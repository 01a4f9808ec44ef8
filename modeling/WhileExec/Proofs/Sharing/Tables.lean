import Mathlib
import WhileExec.Sharing
import WhileExec.Proofs.Sharing.Outlines

/-!
# Tables of shared cells

What a table of shared cells knows. `Table.Stands` says which cell a table has for a cell: operands first, then the cell
under the key that they make. A sound table files every cell under its own key, has all operands of the cells in it, and
each of its cells is one of those that were given, with other operands. Sharing keeps tables sound, `sharing_sound`, and
the results stand for the cells that were given.

Cells whose nodes are told apart by their identities are a graph, unfolded: the same node may be met on many ways. In a
sound table for such cells no two cells have the same identity, nor the same outline.
-/

namespace WhileExec

namespace Cell

/-- The operands of a cell. -/
def args : Cell → List Cell
  | .app _ _ _ args => args
  | _ => []

/-- The same node with other operands. -/
def withArgs : Cell → List Cell → Cell
  | .app id form op _, args => .app id form op args
  | leaf, _ => leaf

/-- The key under which a cell is filed. -/
def key : Cell → Key
  | .int _ n => .value n
  | .truth _ v => .value v.toInt
  | .var _ name => .name name
  | .app _ _ op args => .app op (args.map Cell.id)

@[simp] theorem withArgs_id (c : Cell) (cs : List Cell) : (c.withArgs cs).id = c.id := by
  cases c <;> rfl

@[simp] theorem withArgs_args (c : Cell) : c.withArgs c.args = c := by
  cases c <;> rfl

@[simp] theorem withArgs_args_withArgs (c : Cell) (cs : List Cell) :
    c.withArgs (c.withArgs cs).args = c.withArgs cs := by
  cases c <;> rfl

theorem args_withArgs {R : Cell → Cell → Prop} {c : Cell} {cs : List Cell} (each : List.Forall₂ R c.args cs) :
    (c.withArgs cs).args = cs := by
  cases c with
  | app => rfl
  | _ => cases each; rfl

theorem mem_of_mem_withArgs {a c : Cell} {cs : List Cell} (member : a ∈ (c.withArgs cs).args) : a ∈ cs := by
  cases c with
  | app => exact member
  | _ => simp [withArgs,args] at member

/-- Induction over cells, with the operands at hand. -/
@[elab_as_elim]
theorem structural {motive : Cell → Prop} (step : ∀ c, (∀ a ∈ c.args, motive a) → motive c) : ∀ c, motive c
  | .int id n => step (.int id n) (by simp [args])
  | .truth id v => step (.truth id v) (by simp [args])
  | .var id name => step (.var id name) (by simp [args])
  | .app id form op cs => step (.app id form op cs) fun c (_ : c ∈ cs) => structural step c

theorem exprs_eq (cs : List Cell) : exprs cs = cs.map expr := by
  induction cs with
  | nil => rfl
  | cons c cs ih => rw [exprs,ih,List.map_cons]

@[simp] theorem expr_app (id : Nat) (form : Form) (op : String) (cs : List Cell) :
    (app id form op cs).expr = .app form op (cs.map expr) := by
  rw [expr,exprs_eq]

theorem mem_preorderAll {a : Cell} {cs : List Cell} : a ∈ preorderAll cs ↔ ∃ c ∈ cs, a ∈ c.preorder := by
  induction cs with
  | nil => simp [preorderAll]
  | cons c cs ih => simp [preorderAll,ih]

theorem preorder_eq (c : Cell) : c.preorder = c :: preorderAll c.args := by
  cases c <;> simp [preorder,args,preorderAll]

theorem mem_preorder {a c : Cell} : a ∈ c.preorder ↔ a = c ∨ a ∈ preorderAll c.args := by
  rw [preorder_eq,List.mem_cons]

theorem self_mem_preorder (c : Cell) : c ∈ c.preorder := mem_preorder.mpr (.inl rfl)

theorem args_mem_preorder {a b c : Cell} (member : b ∈ c.preorder) (below : a ∈ b.args) : a ∈ c.preorder := by
  induction c using structural with
  | step c ih =>
    rcases mem_preorder.mp member with rfl | inside
    · exact mem_preorder.mpr (.inr (mem_preorderAll.mpr ⟨a,below,self_mem_preorder a⟩))
    · obtain ⟨d,listed,inside⟩ := mem_preorderAll.mp inside
      exact mem_preorder.mpr (.inr (mem_preorderAll.mpr ⟨d,listed,ih d listed inside⟩))

theorem outline_lt {a c : Cell} (member : a ∈ preorderAll c.args) : sizeOf a.expr.outline < sizeOf c.expr.outline := by
  induction c using structural with
  | step c ih =>
    obtain ⟨d,listed,inside⟩ := mem_preorderAll.mp member
    have operand : sizeOf d.expr.outline < sizeOf c.expr.outline := by
      cases c with
      | app id form op cs =>
        have listed : d.expr.outline ∈ cs.map fun c => c.expr.outline := List.mem_map_of_mem listed
        have smaller := List.sizeOf_lt_of_mem listed
        simp only [expr_app,Expr.outline_app,List.map_map,Function.comp_def,Expr.app.sizeOf_spec]
        omega
      | _ => simp [args] at listed
    rcases mem_preorder.mp inside with rfl | below
    · exact operand
    · exact (ih d listed below).trans operand

/-- Cells and everything below them, told apart by their identities: a graph that may share nodes. -/
structure Graph (given : Set Cell) : Prop where
  closed : ∀ c ∈ given, ∀ a ∈ c.args, a ∈ given
  unique : ∀ a ∈ given, ∀ b ∈ given, a.id = b.id → a = b

/-- An identity belongs to one node only, wherever it occurs. -/
def Coherent (cells : List Cell) : Prop :=
  ∀ a ∈ preorderAll cells, ∀ b ∈ preorderAll cells, a.id = b.id → a = b

theorem Coherent.graph {cells : List Cell} (coherent : Coherent cells) : Graph {a | a ∈ preorderAll cells} := by
  refine ⟨fun c member a below => ?_,coherent⟩
  obtain ⟨d,listed,inside⟩ := mem_preorderAll.mp member
  exact mem_preorderAll.mpr ⟨d,listed,args_mem_preorder inside below⟩

theorem Coherent.sublist {cells : List Cell} (coherent : Coherent cells) {some : List Cell}
    (within : ∀ c ∈ some, c ∈ preorderAll cells) : Coherent some := by
  have inside : ∀ a ∈ preorderAll some, a ∈ preorderAll cells := by
    intro a member
    obtain ⟨c,listed,below⟩ := mem_preorderAll.mp member
    obtain ⟨d,given,between⟩ := mem_preorderAll.mp (within c listed)
    refine mem_preorderAll.mpr ⟨d,given,?_⟩
    clear * - below between
    induction c using structural with
    | step c ih =>
      rcases mem_preorder.mp below with rfl | below
      · exact between
      · obtain ⟨e,operand,below⟩ := mem_preorderAll.mp below
        exact ih e operand below (args_mem_preorder between operand)
  exact fun a left b right same => coherent a (inside a left) b (inside b right) same

namespace Table

/-- Nothing that was filed is lost. -/
def Extends (after before : Table) : Prop :=
  ∀ k c, before.lookup k = some c → after.lookup k = some c

theorem Extends.refl (table : Table) : Extends table table := fun _ _ filed => filed

theorem Extends.trans {a b c : Table} (second : Extends c b) (first : Extends b a) : Extends c a :=
  fun k d filed => second k d (first k d filed)

/-- The cell that a table has for a cell. -/
inductive Stands (table : Table) : Cell → Cell → Prop
  | of_args {c first : Cell} {firsts : List Cell} (each : List.Forall₂ (Stands table) c.args firsts)
      (filed : table.lookup (c.withArgs firsts).key = some first) : Stands table c first

theorem Stands.mono {before after : Table} (more : Extends after before) {c first : Cell}
    (stands : before.Stands c first) : after.Stands c first := by
  induction c using structural generalizing first with
  | step c ih =>
    obtain ⟨each,filed⟩ := stands
    exact .of_args (forall₂_imp_of_mem each fun a member b _ stands => ih a member stands) (more _ _ filed)

theorem Stands.unique {table : Table} {c a b : Cell} (left : table.Stands c a) (right : table.Stands c b) : a = b := by
  induction c using structural generalizing a b with
  | step c ih =>
    obtain @⟨_,_,firsts,each,filed⟩ := left
    obtain @⟨_,_,seconds,each',filed'⟩ := right
    have same := forall₂_unique each each' fun a member _ _ one two => ih a member one two
    rw [same,filed'] at filed
    exact (Option.some.inj filed).symm

/-- A table in which cells are filed that come from those given. -/
structure Sound (given : Set Cell) (table : Table) : Prop where
  keyed : ∀ {k c}, table.lookup k = some c → c.key = k
  within : ∀ {k c}, table.lookup k = some c → ∀ a ∈ c.args, table.lookup a.key = some a
  origin : ∀ {k c}, table.lookup k = some c → ∃ o ∈ given, c = o.withArgs c.args ∧ table.Stands o c

theorem Sound.nil (given : Set Cell) : Sound given [] :=
  ⟨by simp,by simp,by simp⟩

theorem Sound.filed {given : Set Cell} {table : Table} (sound : Sound given table) {c first : Cell}
    (stands : table.Stands c first) : table.lookup first.key = some first := by
  obtain ⟨-,filed⟩ := stands
  rwa [sound.keyed filed]

end Table

section Runs

variable {k : Key} {c first : Cell} {cs firsts : List Cell} {table mid after : Table}

theorem intern_run (k : Key) (c : Cell) (table : Table) :
    (intern k c).run table = (table.lookup k).elim (c,(k,c) :: table) fun first => (first,table) := by
  unfold intern
  rw [StateT.run_bind]
  simp only [StateT.run_get,pure_bind]
  cases table.lookup k <;> rfl

theorem intern_at (run : (intern k c).run table = (first,after)) (j : Key) :
    after.lookup j = (table.lookup j).or (if k = j then some c else none) := by
  rw [intern_run] at run
  cases found : table.lookup k with
  | some other =>
    rw [found] at run
    cases run
    by_cases same : k = j
    · rw [← same,found]
      rfl
    · simp [same]
  | none =>
    rw [found] at run
    cases run
    by_cases same : k = j
    · simp [← same,found]
    · simp [same,List.lookup_cons,beq_eq_false_iff_ne.mpr (Ne.symm same)]

theorem intern_first (run : (intern k c).run table = (first,after)) : first = (table.lookup k).getD c := by
  rw [intern_run] at run
  cases found : table.lookup k <;> rw [found] at run <;> cases run <;> rfl

/-- A cell that is filed is found from then on. If nothing was found before, it is the only one that is new. -/
theorem intern_lookup (run : (intern k c).run table = (first,after)) :
    after.Extends table ∧ after.lookup k = some first ∧
      ∀ j d, after.lookup j = some d → table.lookup j = some d ∨ (j = k ∧ d = c ∧ first = c) := by
  have found := intern_at run
  have result := intern_first run
  refine ⟨fun j d filed => ?_,?_,fun j d filed => ?_⟩
  · rw [found,filed]
    rfl
  · rw [found,result]
    cases table.lookup k <;> simp
  · rw [found] at filed
    cases before : table.lookup j with
    | some other => exact .inl (by simpa [before] using filed)
    | none =>
      by_cases same : k = j
      · subst same
        exact .inr ⟨rfl,by simpa [before] using filed.symm,by simp [result,before]⟩
      · simp [before,same] at filed

theorem share_run (operands : (shareAll c.args).run table = (firsts,mid)) :
    c.share.run table = (intern (c.withArgs firsts).key (c.withArgs firsts)).run mid := by
  cases c with
  | app id form op cs =>
    rw [share]
    change (shareAll cs).run table = (firsts,mid) at operands
    rw [StateT.run_bind,operands]
    rfl
  | _ =>
    cases operands
    rw [share]
    rfl

theorem shareAll_run (one : c.share.run table = (first,mid)) (more : (shareAll cs).run mid = (firsts,after)) :
    (shareAll (c :: cs)).run table = (first :: firsts,after) := by
  rw [shareAll]
  change ((c.share.run table).1 :: ((shareAll cs).run (c.share.run table).2).1,
    ((shareAll cs).run (c.share.run table).2).2) = (first :: firsts,after)
  rw [one,more]

/-- Induction over a run of sharing: for a cell its operands are shared first, and then it is filed. -/
theorem sharing_induction {P : Cell → Table → Cell → Table → Prop} {Q : List Cell → Table → List Cell → Table → Prop}
    (nil : ∀ table, Q [] table [] table)
    (cons : ∀ c cs table first mid firsts after, P c table first mid → Q cs mid firsts after →
      Q (c :: cs) table (first :: firsts) after)
    (node : ∀ c table firsts mid first after, Q c.args table firsts mid →
      (intern (c.withArgs firsts).key (c.withArgs firsts)).run mid = (first,after) → P c table first after) :
    (∀ c table first after, c.share.run table = (first,after) → P c table first after) ∧
      ∀ cs table firsts after, (shareAll cs).run table = (firsts,after) → Q cs table firsts after := by
  have several : ∀ cs, (∀ c ∈ cs, ∀ table first after, c.share.run table = (first,after) → P c table first after) →
      ∀ table firsts after, (shareAll cs).run table = (firsts,after) → Q cs table firsts after := by
    intro cs each table firsts after run
    induction cs generalizing table firsts with
    | nil =>
      cases run
      exact nil _
    | cons c cs ih =>
      rcases one : c.share.run table with ⟨first,mid⟩
      rcases more : (shareAll cs).run mid with ⟨rest,last⟩
      cases (shareAll_run one more).symm.trans run
      apply cons c cs table first mid rest after
      · exact each c (by simp) table first mid one
      · exact ih (fun c member => each c (by simp [member])) mid rest more
  have single : ∀ c table first after, c.share.run table = (first,after) → P c table first after := by
    intro c
    induction c using structural with
    | step c ih =>
      intro table first after run
      rcases operands : (shareAll c.args).run table with ⟨firsts,mid⟩
      rw [share_run operands] at run
      exact node c table firsts mid first after (several c.args ih table firsts mid operands) run
  exact ⟨single,fun cs => several cs fun c _ => single c⟩

theorem shareAll_of_stands_of (each : List.Forall₂ (fun c first => c.share.run table = (first,table)) cs firsts) :
    (shareAll cs).run table = (firsts,table) := by
  induction each with
  | nil => rfl
  | cons one _ ih => exact shareAll_run one ih

theorem share_of_stands (stands : table.Stands c first) : c.share.run table = (first,table) := by
  induction c using structural generalizing first with
  | step c ih =>
    obtain ⟨each,filed⟩ := stands
    rw [share_run (shareAll_of_stands_of (forall₂_imp_of_mem each fun a member _ _ stands => ih a member stands)),
      intern_run,filed]
    rfl

theorem shareAll_of_stands (each : List.Forall₂ table.Stands cs firsts) : (shareAll cs).run table = (firsts,table) :=
  shareAll_of_stands_of (each.imp fun _ _ stands => share_of_stands stands)

end Runs

section Soundness

variable {given : Set Cell} {table after : Table} {c first : Cell} {cs firsts : List Cell}

/-- Sharing keeps a table sound and finds cells that stand for the given ones. -/
theorem sharing_sound (graph : Graph given) :
    (∀ c table first after, c.share.run table = (first,after) → c ∈ given → Table.Sound given table →
      Table.Sound given after ∧ after.Extends table ∧ after.Stands c first) ∧
    ∀ cs table firsts after, (shareAll cs).run table = (firsts,after) → (∀ c ∈ cs, c ∈ given) →
      Table.Sound given table →
      Table.Sound given after ∧ after.Extends table ∧ List.Forall₂ after.Stands cs firsts := by
  apply sharing_induction
  case nil =>
    intro table _ sound
    exact ⟨sound,.refl table,.nil⟩
  case cons =>
    intro c cs table first mid firsts after one more within sound
    obtain ⟨soundMid,grows,stands⟩ := one (within c (by simp)) sound
    obtain ⟨soundLast,grows',others⟩ := more (fun c member => within c (by simp [member])) soundMid
    exact ⟨soundLast,grows'.trans grows,.cons (stands.mono grows') others⟩
  case node =>
    intro c table firsts mid first after operands run member sound
    obtain ⟨soundMid,grows,each⟩ := operands (graph.closed c member) sound
    obtain ⟨grows',found,new⟩ := intern_lookup run
    have stands : after.Stands c first :=
      .of_args (each.imp fun _ _ stands => stands.mono grows') found
    refine ⟨⟨fun {k d} filed => ?_,fun {k d} filed a below => ?_,fun {k d} filed => ?_⟩,grows'.trans grows,stands⟩
    · rcases new k d filed with old | ⟨rfl,rfl,-⟩
      · exact soundMid.keyed old
      · rfl
    · rcases new k d filed with old | ⟨rfl,rfl,-⟩
      · exact grows' _ _ (soundMid.within old a below)
      · obtain ⟨b,-,stands⟩ := exists_of_forall₂_right each (mem_of_mem_withArgs below)
        exact grows' _ _ (soundMid.filed stands)
    · rcases new k d filed with old | ⟨rfl,rfl,same⟩
      · obtain ⟨o,known,same,stands⟩ := soundMid.origin old
        exact ⟨o,known,same,stands.mono grows'⟩
      · exact ⟨c,member,by simp,same ▸ stands⟩

theorem share_sound (graph : Graph given) (member : c ∈ given) (sound : Table.Sound given table)
    (run : c.share.run table = (first,after)) :
    Table.Sound given after ∧ after.Extends table ∧ after.Stands c first :=
  (sharing_sound graph).1 c table first after run member sound

theorem shareAll_sound (graph : Graph given) (within : ∀ c ∈ cs, c ∈ given) (sound : Table.Sound given table)
    (run : (shareAll cs).run table = (firsts,after)) :
    Table.Sound given after ∧ after.Extends table ∧ List.Forall₂ after.Stands cs firsts :=
  (sharing_sound graph).2 cs table firsts after run within sound

end Soundness

theorem outline_of_key {c first : Cell} (key : first.key = (c.withArgs first.args).key)
    (operands : List.Forall₂ (fun a b => b.expr.outline = a.expr.outline) c.args first.args) :
    first.expr.outline = c.expr.outline := by
  have operands := map_eq_map_iff_forall₂.mpr (operands.imp fun _ _ same => same.symm)
  cases c <;> cases first <;> simp_all [Cell.key,withArgs,args,expr,exprs_eq,Function.comp_def]

theorem args_of_outline {a b : Cell} (outlines : a.expr.outline = b.expr.outline) :
    List.Forall₂ (fun x y => x.expr.outline = y.expr.outline) a.args b.args := by
  rw [← map_eq_map_iff_forall₂]
  cases a <;> cases b <;> simp_all [args,expr,exprs_eq,Function.comp_def]

/-- Nodes with the same outline and the same operands have the same key. -/
theorem key_of_outline {a b : Cell} (outlines : a.expr.outline = b.expr.outline) (operands : a.args = b.args) :
    a.key = b.key := by
  cases a <;> cases b <;> simp_all [Cell.key,args,expr]

namespace Table.Sound

variable {given : Set Cell} {table : Table} {a b c first : Cell} {j k : Key}

theorem unique (sound : Sound given table) (graph : Graph given) (left : table.lookup j = some a)
    (right : table.lookup k = some b) (same : a.id = b.id) : a = b := by
  obtain ⟨o,known,node,stands⟩ := sound.origin left
  obtain ⟨o',known',node',stands'⟩ := sound.origin right
  have origins : o = o' := by
    apply graph.unique o known o' known'
    calc o.id = a.id := by rw [node,withArgs_id]
      _ = b.id := same
      _ = o'.id := by rw [node',withArgs_id]
  subst origins
  exact stands.unique stands'

theorem operands (sound : Sound given table) (graph : Graph given) (stands : table.Stands c first) :
    List.Forall₂ table.Stands c.args first.args ∧ first.key = (c.withArgs first.args).key := by
  obtain @⟨_,_,firsts,each,filed⟩ := stands
  have key := sound.keyed filed
  have within := sound.within filed
  cases c with
  | app id form op cs =>
    cases first with
    | app id' form' op' args' =>
      simp only [Cell.key,withArgs,Key.app.injEq] at key
      obtain ⟨rfl,ids⟩ := key
      have same : args' = firsts := by
        rw [← List.forall₂_eq_eq_eq]
        refine forall₂_imp_of_mem (map_eq_map_iff_forall₂.mp ids) fun x inLeft y inRight same => ?_
        obtain ⟨z,-,stands⟩ := exists_of_forall₂_right each inRight
        exact sound.unique graph (within x inLeft) (sound.filed stands) same
      subst same
      exact ⟨each,rfl⟩
    | _ => simp [Cell.key,withArgs] at key
  | _ =>
    cases each
    cases first with
    | app => simp [Cell.key,withArgs] at key
    | _ => exact ⟨.nil,key⟩

theorem outline (sound : Sound given table) (graph : Graph given) (stands : table.Stands c first) :
    first.expr.outline = c.expr.outline := by
  induction c using structural generalizing first with
  | step c ih =>
    obtain ⟨each,key⟩ := sound.operands graph stands
    apply outline_of_key key
    exact forall₂_imp_of_mem each fun a member _ _ stands => ih a member stands

theorem eq_of_outline (sound : Sound given table) (left : table.lookup a.key = some a)
    (right : table.lookup b.key = some b) (outlines : a.expr.outline = b.expr.outline) : a = b := by
  induction a using structural generalizing b with
  | step a ih =>
    have operands : a.args = b.args := by
      rw [← List.forall₂_eq_eq_eq]
      refine forall₂_imp_of_mem (args_of_outline outlines) fun x inLeft y inRight same => ?_
      exact ih x inLeft (sound.within left x inLeft) (sound.within right y inRight) same
    rw [key_of_outline outlines operands,right] at left
    exact (Option.some.inj left).symm

end Table.Sound

end Cell

namespace Item

theorem mapM_share_cells (cells : List Cell) (table : Cell.Table) :
    ((cells.map Item.cell).mapM share).run table =
      (((Cell.shareAll cells).run table).1.map Item.cell,((Cell.shareAll cells).run table).2) := by
  induction cells generalizing table with
  | nil => rfl
  | cons c cells ih =>
    rcases one : c.share.run table with ⟨first,mid⟩
    rcases more : (Cell.shareAll cells).run mid with ⟨firsts,after⟩
    rw [Cell.shareAll_run one more,List.map_cons,List.mapM_cons,StateT.run_bind]
    change (do
      let rest ← ((cells.map Item.cell).mapM share).run (c.share.run table).2
      pure (Item.cell (c.share.run table).1 :: rest.1,rest.2) : Id (List Item × Cell.Table)) = _
    rw [one,ih mid,more]
    rfl

/-- Where all items are cells, sharing them is sharing cells from an empty table. -/
theorem shareAll_cells {cells results : List Cell} {table : Cell.Table}
    (run : (Cell.shareAll cells).run [] = (results,table)) :
    shareAll (cells.map Item.cell) = results.map Item.cell := by
  rw [shareAll,mapM_share_cells,run]

end Item

end WhileExec
