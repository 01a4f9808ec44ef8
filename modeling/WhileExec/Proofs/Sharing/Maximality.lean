import Mathlib
import WhileExec.Proofs.Sharing.Tables

/-!
# Nothing more can be shared

Cells that were shared are all in the table, where every outline occurs once. So equal nodes are one node, and sharing
the results again leaves them as they are: under the key of each of them nothing else can be found. The first of all
cells is its own result, since what was filed before it has a smaller outline.
-/

namespace WhileExec

namespace Cell

section Filed

variable {given : Set Cell} {table : Table} {a c : Cell} {k : Key}

theorem Table.Sound.filed_below (sound : Table.Sound given table) (filed : table.lookup c.key = some c)
    (below : a ∈ c.preorder) : table.lookup a.key = some a := by
  induction c using structural with
  | step c ih =>
    rcases mem_preorder.mp below with rfl | below
    · exact filed
    · obtain ⟨d,operand,below⟩ := mem_preorderAll.mp below
      exact ih d operand (sound.within filed d operand) below

theorem Table.Sound.filed_results (sound : Table.Sound given table) {cells results : List Cell}
    (stands : List.Forall₂ table.Stands cells results) (member : a ∈ preorderAll results) :
    table.lookup a.key = some a := by
  obtain ⟨r,listed,below⟩ := mem_preorderAll.mp member
  obtain ⟨c,-,known⟩ := exists_of_forall₂_right stands listed
  exact sound.filed_below (sound.filed known) below

theorem Table.Sound.stands_below (sound : Table.Sound given table) (graph : Graph given) (stands : table.Stands c c)
    (below : a ∈ c.preorder) : table.Stands a a := by
  induction c using structural with
  | step c ih =>
    rcases mem_preorder.mp below with rfl | below
    · exact stands
    · obtain ⟨d,operand,below⟩ := mem_preorderAll.mp below
      exact ih d operand (List.forall₂_same.mp (sound.operands graph stands).1 d operand) below

end Filed

/-- Cells and everything below them, told apart by their keys. -/
structure Distinct (shared : Set Cell) : Prop where
  closed : ∀ c ∈ shared, ∀ a ∈ c.args, a ∈ shared
  unique : ∀ a ∈ shared, ∀ b ∈ shared, a.key = b.key → a = b

/-- The table holds nothing but such cells, under their keys. -/
def Table.Among (shared : Set Cell) (table : Table) : Prop :=
  ∀ k c, table.lookup k = some c → c ∈ shared ∧ c.key = k

variable {shared : Set Cell} {table : Table}

theorem sharing_same (distinct : Distinct shared) :
    (∀ c table first after, c.share.run table = (first,after) → c ∈ shared → Table.Among shared table →
      first = c ∧ after.Among shared) ∧
    ∀ cs table firsts after, (shareAll cs).run table = (firsts,after) → (∀ c ∈ cs, c ∈ shared) →
      Table.Among shared table → firsts = cs ∧ after.Among shared := by
  apply sharing_induction
  case nil =>
    intro table _ among
    exact ⟨rfl,among⟩
  case cons =>
    intro c cs table first mid firsts after one more within among
    obtain ⟨rfl,known⟩ := one (within c (by simp)) among
    obtain ⟨rfl,known⟩ := more (fun c member => within c (by simp [member])) known
    exact ⟨rfl,known⟩
  case node =>
    intro c table firsts mid first after operands run member among
    obtain ⟨rfl,known⟩ := operands (distinct.closed c member) among
    rw [withArgs_args] at run
    obtain ⟨-,found,new⟩ := intern_lookup run
    have still : after.Among shared := by
      intro k d filed
      rcases new k d filed with old | ⟨rfl,rfl,-⟩
      · exact known k d old
      · exact ⟨member,rfl⟩
    exact ⟨distinct.unique first (still _ _ found).1 c member (still _ _ found).2,still⟩

/-- With an empty table a cell is its own result, with its operands shared. -/
theorem share_first {c : Cell} (coherent : Coherent [c]) : ∃ firsts, (c.share.run []).1 = c.withArgs firsts := by
  have below : Coherent c.args := coherent.sublist fun a member => by
    simpa [preorderAll] using args_mem_preorder (self_mem_preorder c) member
  rcases operands : (shareAll c.args).run [] with ⟨firsts,mid⟩
  obtain ⟨sound,-,each⟩ := shareAll_sound below.graph
    (fun a member => mem_preorderAll.mpr ⟨a,member,self_mem_preorder a⟩) (.nil _) operands
  refine ⟨firsts,?_⟩
  rw [share_run operands,intern_run]
  cases found : mid.lookup (c.withArgs firsts).key with
  | none => rfl
  | some first =>
    -- Whatever is found stands for the cell and for something below it, so it has the outlines of both.
    obtain ⟨o,inside,-,stands⟩ := sound.origin found
    have outlines : o.expr.outline = c.expr.outline :=
      (sound.outline below.graph stands).symm.trans (sound.outline below.graph (.of_args each found))
    have smaller := outline_lt inside
    rw [outlines] at smaller
    exact absurd smaller (lt_irrefl _)

theorem share_first_id {c : Cell} (coherent : Coherent [c]) : (c.share.run []).1.id = c.id := by
  obtain ⟨firsts,same⟩ := share_first coherent
  rw [same,withArgs_id]

theorem mem_preorderAll_self {cells : List Cell} : ∀ c ∈ cells, c ∈ preorderAll cells :=
  fun c member => mem_preorderAll.mpr ⟨c,member,self_mem_preorder c⟩

/-- The results of sharing: no two of their nodes have the same identity or the same outline, and they are their own
results. -/
theorem shareAll_results {cells results : List Cell} (coherent : Coherent cells)
    (run : (shareAll cells).run [] = (results,table)) :
    Coherent results ∧
      (∀ a ∈ preorderAll results, ∀ b ∈ preorderAll results, a.expr.outline = b.expr.outline → a = b) ∧
      ∃ last, (shareAll results).run [] = (results,last) := by
  obtain ⟨sound,-,each⟩ := shareAll_sound coherent.graph mem_preorderAll_self (.nil _) run
  have filed : ∀ a ∈ preorderAll results, table.lookup a.key = some a := fun a member => sound.filed_results each member
  have unique : Coherent results := fun a left b right same =>
    sound.unique coherent.graph (filed a left) (filed b right) same
  have distinct : Distinct {a | a ∈ preorderAll results} := by
    refine ⟨unique.graph.closed,fun a left b right same => ?_⟩
    have found := filed a left
    rw [same,filed b right] at found
    exact (Option.some.inj found).symm
  have empty : Table.Among {a | a ∈ preorderAll results} [] := by simp [Table.Among]
  rcases again : (shareAll results).run [] with ⟨firsts,last⟩
  obtain ⟨rfl,-⟩ := (sharing_same distinct).2 results [] firsts last again mem_preorderAll_self empty
  exact ⟨unique,fun a left b right same => sound.eq_of_outline (filed a left) (filed b right) same,last,rfl⟩

end Cell

end WhileExec
