import Mathlib
import WhileExec.Proofs.Sharing.Maximality

/-!
# Sharing in place

Sharing as it is done on nodes in a memory, where an application is overwritten with its shared operands. A node that is
met again has been overwritten by then, and the recursion goes to the nodes that stand for its operands instead of the
operands themselves. The results are those of sharing cells, `mirrors`: what is filed stands for itself, so nothing
changes any more on this way. `Memory.Follows` relates the memory to the table on the way: each node is as it was
given, or its operands have been replaced by what stands for them.

The depth bounds how deep nodes are followed. For a graph without cycles every depth from some on gives the same.
-/

namespace WhileExec

open Cell (Key Table Graph Coherent)

/-- A node in memory. Its operands are known by their identities. -/
inductive Record where
  | int (n : Int)
  | truth (v : Value)
  | var (name : String)
  | app (form : Form) (op : String) (operands : List Nat)
  deriving DecidableEq

abbrev Memory := Nat → Option Record

/-- Nodes that are being shared: the memory, and the identities of the nodes met first, by key. -/
structure Progress where
  memory : Memory
  firsts : List (Key × Nat) := []

namespace Progress

def write (id : Nat) (record : Record) (p : Progress) : Progress :=
  { p with memory := Function.update p.memory id (some record) }

/-- The node met first with this key, which is the given one if there is none yet. -/
def file (key : Key) (id : Nat) : StateT Progress Option Nat := do
  match (← get).firsts.lookup key with
  | some first => return first
  | none =>
    modify fun p => { p with firsts := (key,id) :: p.firsts }
    return id

/-- Shares a node, and gives the node that stands for it. -/
def shareAt : Nat → Nat → StateT Progress Option Nat
  | 0, _ => failure
  | depth + 1, id => do
    match (← get).memory id with
    | none => failure
    | some (.int n) => file (.value n) id
    | some (.truth v) => file (.value v.toInt) id
    | some (.var name) => file (.name name) id
    | some (.app form op operands) =>
      let operands ← operands.mapM (shareAt depth)
      modify (write id (.app form op operands))
      file (.app op operands) id

end Progress

/-- Shares nodes with one table: the nodes that stand for them, and the memory afterwards. -/
def Memory.shareAll (depth : Nat) (ids : List Nat) (memory : Memory) : Option (List Nat × Memory) :=
  ((ids.mapM (Progress.shareAt depth)).run { memory }).map fun result => (result.1,result.2.memory)

namespace Record

def operands : Record → List Nat
  | .app _ _ operands => operands
  | _ => []

def withOperands : Record → List Nat → Record
  | .app form op _, operands => .app form op operands
  | leaf, _ => leaf

def key : Record → Key
  | .int n => .value n
  | .truth v => .value v.toInt
  | .var name => .name name
  | .app _ op operands => .app op operands

end Record

/-- The node of a cell. -/
def Cell.record : Cell → Record
  | .int _ n => .int n
  | .truth _ v => .truth v
  | .var _ name => .var name
  | .app _ form op args => .app form op (args.map Cell.id)

namespace Cell

@[simp] theorem record_operands (c : Cell) : c.record.operands = c.args.map id := by
  cases c <;> rfl

@[simp] theorem record_withOperands (c : Cell) (cs : List Cell) :
    c.record.withOperands (cs.map id) = (c.withArgs cs).record := by
  cases c <;> rfl

@[simp] theorem record_key (c : Cell) : c.record.key = c.key := by
  cases c <;> rfl

@[simp] theorem withArgs_withArgs (c : Cell) (cs ds : List Cell) : (c.withArgs cs).withArgs ds = c.withArgs ds := by
  cases c <;> rfl

end Cell

/-- The nodes of the cells are in the memory. -/
def Memory.Has (memory : Memory) (cells : List Cell) : Prop :=
  ∀ c ∈ Cell.preorderAll cells, memory c.id = some c.record

/-- Wherever the nodes of the cells are in memory, sharing them in place gives the nodes of the results, from some depth
on. Sharing those again gives the same nodes, and then the memory does not change. -/
def Memory.Shares (cells results : List Cell) : Prop :=
  ∀ memory : Memory, memory.Has cells → ∃ (after : Memory) (depth : Nat), after.Has results ∧
    ∀ deeper, depth ≤ deeper →
      memory.shareAll deeper (cells.map Cell.id) = some (results.map Cell.id,after) ∧
      after.shareAll deeper (results.map Cell.id) = some (results.map Cell.id,after)

namespace Progress

variable {depth : Nat} {id : Nat} {ids : List Nat} {p q : Progress} {record : Record}

theorem file_run (key : Key) (id : Nat) (p : Progress) :
    (file key id).run p =
      some ((p.firsts.lookup key).elim (id,{ p with firsts := (key,id) :: p.firsts }) fun first => (first,p)) := by
  unfold file
  rw [StateT.run_bind]
  simp only [StateT.run_get,Option.pure_def,Option.bind_eq_bind,Option.bind_some]
  cases p.firsts.lookup key <;> rfl

theorem write_same (read : p.memory id = some record) : p.write id record = p := by
  rw [write,← read,Function.update_eq_self]

/-- One step: the operands of the node are shared, the node is overwritten and then filed. -/
theorem shareAt_succ (read : p.memory id = some record)
    (operands : (record.operands.mapM (shareAt depth)).run p = some (ids,q)) :
    (shareAt (depth + 1) id).run p =
      (file (record.withOperands ids).key id).run (q.write id (record.withOperands ids)) := by
  rw [shareAt,StateT.run_bind]
  simp only [StateT.run_get,Option.pure_def,Option.bind_eq_bind,Option.bind_some,read]
  cases record with
  | app form op old =>
    change (old.mapM (shareAt depth)).run p = some (ids,q) at operands
    rw [StateT.run_bind,operands]
    rfl
  | _ =>
    cases operands
    have same := write_same read
    simp only [Record.withOperands,same]
    rfl

theorem mapM_cons_run {r : Progress} {first : Nat} (one : (shareAt depth id).run p = some (first,q))
    {rest firsts : List Nat} (more : (rest.mapM (shareAt depth)).run q = some (firsts,r)) :
    ((id :: rest).mapM (shareAt depth)).run p = some (first :: firsts,r) := by
  rw [List.mapM_cons,StateT.run_bind,one]
  change ((do
    let firsts ← rest.mapM (shareAt depth)
    pure (first :: firsts) : StateT Progress Option (List Nat)).run q) = _
  rw [StateT.run_bind,more]
  rfl

theorem of_shareAt {first : Nat} (run : (shareAt (depth + 1) id).run p = some (first,q)) :
    ∃ record ids mid, p.memory id = some record ∧ (record.operands.mapM (shareAt depth)).run p = some (ids,mid) := by
  rw [shareAt,StateT.run_bind] at run
  simp only [StateT.run_get,Option.pure_def,Option.bind_eq_bind,Option.bind_some] at run
  cases read : p.memory id with
  | none =>
    rw [read] at run
    cases run
  | some record =>
    cases record with
    | app form op old =>
      cases operands : (old.mapM (shareAt depth)).run p with
      | none =>
        simp only [read] at run
        rw [StateT.run_bind,operands] at run
        cases run
      | some result => exact ⟨_,_,_,rfl,operands⟩
    | _ => exact ⟨_,_,_,rfl,rfl⟩

theorem of_mapM_cons {r : Progress} {rest firsts : List Nat}
    (run : ((id :: rest).mapM (shareAt depth)).run p = some (firsts,r)) :
    ∃ first others q, (shareAt depth id).run p = some (first,q) ∧
      (rest.mapM (shareAt depth)).run q = some (others,r) ∧ firsts = first :: others := by
  rw [List.mapM_cons,StateT.run_bind] at run
  obtain ⟨⟨first,q⟩,one,run⟩ := Option.bind_eq_some_iff.mp run
  rw [StateT.run_bind] at run
  obtain ⟨⟨others,r⟩,more,run⟩ := Option.bind_eq_some_iff.mp run
  cases run
  exact ⟨first,others,q,one,more,rfl⟩

theorem mapM_deeper_of {more : Nat}
    (each : ∀ {id p first q}, (shareAt depth id).run p = some (first,q) → (shareAt more id).run p = some (first,q))
    {firsts : List Nat} (run : (ids.mapM (shareAt depth)).run p = some (firsts,q)) :
    (ids.mapM (shareAt more)).run p = some (firsts,q) := by
  induction ids generalizing p firsts with
  | nil => exact run
  | cons id rest ih =>
    obtain ⟨first,others,mid,one,more,rfl⟩ := of_mapM_cons run
    exact mapM_cons_run (each one) (ih more)

theorem shareAt_deeper {more : Nat} (enough : depth ≤ more) {first : Nat}
    (run : (shareAt depth id).run p = some (first,q)) : (shareAt more id).run p = some (first,q) := by
  induction depth generalizing id p first q more with
  | zero => cases run
  | succ depth ih =>
    cases more with
    | zero => omega
    | succ more =>
      obtain ⟨record,ids,mid,read,operands⟩ := of_shareAt run
      have deeper := mapM_deeper_of (fun run => ih (Nat.le_of_succ_le_succ enough) run) operands
      rw [shareAt_succ read deeper,← shareAt_succ read operands,run]

/-- Progress on the nodes of a graph, when cells have been shared up to a table. Each node is as it was given, or its
operands have been replaced, and what is filed has shared operands only. -/
structure Follows (given : Set Cell) (table : Table) (p : Progress) : Prop where
  firsts : p.firsts = table.map fun entry => (entry.1,entry.2.id)
  nodes : ∀ o ∈ given, p.memory o.id = some o.record ∨
    ∃ first, table.Stands o first ∧ p.memory o.id = some (o.withArgs first.args).record
  filed : ∀ {k c}, table.lookup k = some c → p.memory c.id = some c.record

theorem lookup_ids (k : Key) (table : Table) :
    (table.map fun entry => (entry.1,entry.2.id)).lookup k = (table.lookup k).map Cell.id := by
  induction table with
  | nil => rfl
  | cons entry table ih =>
    rw [List.map_cons,List.lookup_cons,List.lookup_cons,ih]
    cases k == entry.1 <;> rfl

theorem file_ids {k : Key} {c first : Cell} {table after : Table} (run : (Cell.intern k c).run table = (first,after))
    (firsts : p.firsts = table.map fun entry => (entry.1,entry.2.id)) :
    (file k c.id).run p = some (first.id,{ p with firsts := after.map fun entry => (entry.1,entry.2.id) }) := by
  rw [file_run,firsts,lookup_ids]
  rw [Cell.intern_run] at run
  cases found : table.lookup k with
  | none =>
    rw [found] at run
    cases run
    rfl
  | some other =>
    rw [found] at run
    cases run
    rw [← firsts]
    rfl

variable {given : Set Cell} {table mid after : Table} {o first : Cell} {firsts : List Cell}

/-- The end of a step: the node is overwritten with the operands found, and filed. -/
theorem Follows.finish (graph : Graph given) (member : o ∈ given) (sound : Table.Sound given after)
    (follows : Follows given mid p) (each : List.Forall₂ mid.Stands o.args firsts)
    (run : (Cell.intern (o.withArgs firsts).key (o.withArgs firsts)).run mid = (first,after)) :
    ∃ q, (file (o.withArgs firsts).key o.id).run (p.write o.id (o.withArgs firsts).record) = some (first.id,q) ∧
      Follows given after q ∧ ∀ id, id ≠ o.id → q.memory id = p.memory id := by
  obtain ⟨grows,found,new⟩ := Cell.intern_lookup run
  have stands : after.Stands o first := .of_args (each.imp fun _ _ stands => stands.mono grows) found
  have operands : firsts = first.args := forall₂_unique (each.imp fun _ _ stands => stands.mono grows)
    (sound.operands graph stands).1 fun _ _ _ _ one two => one.unique two
  have others : ∀ id, id ≠ o.id → (p.write o.id (o.withArgs firsts).record).memory id = p.memory id :=
    fun id apart => Function.update_of_ne apart _ _
  have written : (p.write o.id (o.withArgs firsts).record).memory o.id = some (o.withArgs firsts).record :=
    Function.update_self _ _ _
  have filing := file_ids (p := p.write o.id (o.withArgs firsts).record) run follows.firsts
  rw [Cell.withArgs_id] at filing
  refine ⟨_,filing,⟨rfl,fun c known => ?_,fun {k c} filed => ?_⟩,others⟩
  · by_cases same : c.id = o.id
    · rw [graph.unique c known o member same]
      exact .inr ⟨first,stands,operands ▸ written⟩
    · simp only [others c.id same]
      apply (follows.nodes c known).imp_right
      rintro ⟨other,stands,read⟩
      exact ⟨other,stands.mono grows,read⟩
  · by_cases same : c.id = o.id
    · obtain ⟨o',known,node,stands'⟩ := sound.origin filed
      have origin : o' = o := by
        apply graph.unique o' known o member
        rw [← same,node,Cell.withArgs_id]
      rw [origin] at node stands'
      simp only [same]
      rw [written,node,stands'.unique stands,operands]
    · simp only [others c.id same]
      rcases new k c filed with old | ⟨-,rfl,-⟩
      · exact follows.filed old
      · exact absurd (Cell.withArgs_id o firsts) same

/-- The memory is the same but for the nodes of the graph. -/
def Within (given : Set Cell) (p q : Progress) : Prop :=
  ∀ id, (∀ o ∈ given, o.id ≠ id) → q.memory id = p.memory id

/-- At this depth the node of a cell is shared in place as the cell is. -/
def Mirrors (given : Set Cell) (depth : Nat) (o : Cell) : Prop :=
  ∀ (table after : Table) (first : Cell) (p : Progress), Table.Sound given table → Follows given table p →
    o.share.run table = (first,after) →
    ∃ q, (shareAt depth o.id).run p = some (first.id,q) ∧ Follows given after q ∧ Within given p q

theorem mapM_follows (graph : Graph given) {os : List Cell} (within : ∀ o ∈ os, o ∈ given)
    (each : ∀ o ∈ os, Mirrors given depth o) (sound : Table.Sound given table) (follows : Follows given table p)
    (run : (Cell.shareAll os).run table = (firsts,after)) :
    ∃ q, ((os.map Cell.id).mapM (shareAt depth)).run p = some (firsts.map Cell.id,q) ∧ Follows given after q ∧
      Within given p q := by
  induction os generalizing table p firsts with
  | nil =>
    cases run
    exact ⟨p,rfl,follows,fun _ _ => rfl⟩
  | cons o os ih =>
    rcases one : o.share.run table with ⟨first,mid⟩
    rcases more : (Cell.shareAll os).run mid with ⟨rest,last⟩
    cases (Cell.shareAll_run one more).symm.trans run
    obtain ⟨soundMid,-,-⟩ := Cell.share_sound graph (within o (by simp)) sound one
    obtain ⟨q,first,follows,same⟩ := each o (by simp) _ _ _ _ sound follows one
    obtain ⟨r,others,follows,same'⟩ := ih (fun o member => within o (by simp [member]))
      (fun o member => each o (by simp [member])) soundMid follows more
    exact ⟨r,mapM_cons_run first others,follows,fun id apart => (same' id apart).trans (same id apart)⟩

/-- A filed cell has operands that stand for nodes of the graph with the same identities. -/
theorem exists_origins (sound : Table.Sound given table) {k : Key} (filed : table.lookup k = some first) :
    ∃ os : List Cell, List.Forall₂ (fun o a => (o ∈ given ∧ o.id = a.id) ∧ table.Stands o a) os first.args := by
  apply exists_forall₂_left
  intro a member
  obtain ⟨o,known,node,stands⟩ := sound.origin (sound.within filed a member)
  refine ⟨o,⟨known,?_⟩,stands⟩
  rw [node,Cell.withArgs_id]

/-- One step, when the node has been read in one form or the other and its operands have been shared. -/
theorem step_follows (graph : Graph given) (member : o ∈ given) (sound : Table.Sound given table)
    (run : o.share.run table = (first,after)) (operands : (Cell.shareAll o.args).run table = (firsts,mid))
    {cs : List Cell} (read : p.memory o.id = some (o.withArgs cs).record)
    (below : ((o.withArgs cs).record.operands.mapM (shareAt depth)).run p = some (firsts.map Cell.id,q))
    (follows : Follows given mid q) (same : Within given p q) :
    ∃ q, (shareAt (depth + 1) o.id).run p = some (first.id,q) ∧ Follows given after q ∧ Within given p q := by
  obtain ⟨soundAfter,-,-⟩ := Cell.share_sound graph member sound run
  obtain ⟨-,-,each⟩ := Cell.shareAll_sound graph (graph.closed o member) sound operands
  rw [Cell.share_run operands] at run
  obtain ⟨r,filing,follows,same'⟩ := follows.finish graph member soundAfter each run
  refine ⟨r,?_,follows,fun id apart => ?_⟩
  · rw [shareAt_succ read below,Cell.record_withOperands,Cell.record_key,Cell.withArgs_withArgs]
    exact filing
  · rw [same' id (Ne.symm (apart o member)),same id apart]

theorem mirrors (graph : Graph given) (member : o ∈ given) (deep : sizeOf o.expr.outline ≤ depth) :
    Mirrors given depth o := by
  induction depth generalizing o with
  | zero => cases o <;> simp [Cell.expr] at deep
  | succ depth ih =>
    intro table after first p sound follows run
    rcases follows.nodes o member with read | ⟨other,stands,read⟩
    · -- The node is met for the first time: its operands are nodes of the graph.
      rcases operands : (Cell.shareAll o.args).run table with ⟨firsts,mid⟩
      have smaller : ∀ a ∈ o.args, Mirrors given depth a := by
        intro a below
        have lt := Cell.outline_lt (Cell.mem_preorderAll.mpr ⟨a,below,Cell.self_mem_preorder a⟩)
        exact ih (graph.closed o member a below) (by omega)
      obtain ⟨q,below,follows,same⟩ := mapM_follows graph (graph.closed o member) smaller sound follows operands
      have read : p.memory o.id = some (o.withArgs o.args).record := by rwa [Cell.withArgs_args]
      apply step_follows graph member sound run operands read _ follows same
      rwa [Cell.withArgs_args,Cell.record_operands]
    · -- The node has been overwritten: its operands are filed, and each of them stands for a node that is found again.
      obtain ⟨each,-⟩ := sound.operands graph stands
      obtain ⟨os,origins⟩ := exists_origins sound (sound.filed stands)
      have ids : os.map Cell.id = other.args.map Cell.id :=
        map_eq_map_iff_forall₂.mpr (origins.imp fun _ _ known => known.1.2)
      have known : ∀ x ∈ os, x ∈ given ∧ ∃ a ∈ other.args, table.Stands x a := by
        intro x listed
        obtain ⟨a,below,⟨known,-⟩,stands⟩ := exists_of_forall₂_right (List.Forall₂.flip origins) listed
        exact ⟨known,a,below,stands⟩
      have within : ∀ x ∈ os, x ∈ given := fun x listed => (known x listed).1
      have smaller : ∀ x ∈ os, Mirrors given depth x := by
        intro x listed
        obtain ⟨-,a,below,found⟩ := known x listed
        have lt := Cell.outline_lt (Cell.mem_preorderAll.mpr ⟨a,below,Cell.self_mem_preorder a⟩)
        rw [sound.outline graph found,sound.outline graph stands] at lt
        exact ih (within x listed) (by omega)
      obtain ⟨q,below,follows,same⟩ := mapM_follows graph within smaller sound follows
        (Cell.shareAll_of_stands (origins.imp fun _ _ known => known.2))
      apply step_follows graph member sound run (Cell.shareAll_of_stands each) read _ follows same
      rw [ids] at below
      rwa [Cell.record_operands,Cell.args_withArgs each]

end Progress

namespace Memory

open Progress

variable {memory : Memory} {cells results : List Cell} {table : Table}

theorem shareAll_follows (coherent : Coherent cells) (has : memory.Has cells)
    (run : (Cell.shareAll cells).run [] = (results,table)) :
    ∃ (depth : Nat) (q : Progress),
      (∀ deeper, depth ≤ deeper → memory.shareAll deeper (cells.map Cell.id) = some (results.map Cell.id,q.memory)) ∧
      Follows {c | c ∈ Cell.preorderAll cells} table q ∧ Within {c | c ∈ Cell.preorderAll cells} { memory } q := by
  have start : Follows {c | c ∈ Cell.preorderAll cells} [] { memory } :=
    ⟨rfl,fun c member => .inl (has c member),by simp⟩
  let depth := (cells.map fun c => sizeOf c.expr.outline).sum
  have deep : ∀ c ∈ cells, Mirrors {c | c ∈ Cell.preorderAll cells} depth c := fun c member =>
    mirrors coherent.graph (Cell.mem_preorderAll_self c member) (List.le_sum_of_mem (List.mem_map_of_mem member))
  obtain ⟨q,done,follows,same⟩ := mapM_follows coherent.graph Cell.mem_preorderAll_self deep (.nil _) start run
  refine ⟨depth,q,fun deeper more => ?_,follows,same⟩
  rw [shareAll,mapM_deeper_of (fun run => shareAt_deeper more run) done]
  rfl

theorem has_results (coherent : Coherent cells) (run : (Cell.shareAll cells).run [] = (results,table)) {q : Progress}
    (follows : Follows {c | c ∈ Cell.preorderAll cells} table q) : q.memory.Has results := by
  obtain ⟨sound,-,each⟩ := Cell.shareAll_sound coherent.graph Cell.mem_preorderAll_self (.nil _) run
  exact fun a member => follows.filed (sound.filed_results each member)

theorem shareAll_again (coherent : Coherent results) (has : memory.Has results)
    (run : (Cell.shareAll results).run [] = (results,table)) :
    ∃ depth, ∀ deeper, depth ≤ deeper →
      memory.shareAll deeper (results.map Cell.id) = some (results.map Cell.id,memory) := by
  obtain ⟨depth,q,done,follows,same⟩ := shareAll_follows coherent has run
  obtain ⟨sound,-,each⟩ := Cell.shareAll_sound coherent.graph Cell.mem_preorderAll_self (.nil _) run
  have unchanged : q.memory = memory := by
    funext id
    by_cases inside : ∃ c ∈ Cell.preorderAll results, c.id = id
    · obtain ⟨c,member,rfl⟩ := inside
      obtain ⟨r,listed,below⟩ := Cell.mem_preorderAll.mp member
      have stands := sound.stands_below coherent.graph (List.forall₂_same.mp each r listed) below
      rcases follows.nodes c member with read | ⟨first,other,read⟩
      · rw [read,has c member]
      · rw [read,has c member,other.unique stands,Cell.withArgs_args]
    · exact same id fun c member same => inside ⟨c,member,same⟩
  exact ⟨depth,fun deeper more => unchanged ▸ done deeper more⟩

theorem shares (coherent : Coherent cells) (run : (Cell.shareAll cells).run [] = (results,table)) :
    Shares cells results := by
  intro memory has
  obtain ⟨unique,-,last,again⟩ := Cell.shareAll_results coherent run
  obtain ⟨depth,q,done,follows,-⟩ := shareAll_follows coherent has run
  have results := has_results coherent run follows
  obtain ⟨depth',still⟩ := shareAll_again unique results again
  exact ⟨q.memory,max depth depth',results,fun deeper more =>
    ⟨done deeper (le_of_max_le_left more),still deeper (le_of_max_le_right more)⟩⟩

end Memory

namespace Cell

/-- Sharing leaves nothing to share. Equal nodes of the results are one node. Sharing the results again gives the same
nodes and changes no operands, also in memory, where nodes are overwritten on the way. A cell shared on its own is its
own result. -/
theorem shareAll_maximal {cells : List Cell} (coherent : Coherent cells) :
    ∃ results : List Cell, Item.shareAll (cells.map .cell) = results.map .cell ∧ Coherent results ∧
      (∀ a ∈ preorderAll results, ∀ b ∈ preorderAll results, a.expr.alike b.expr = true → a = b) ∧
      Item.shareAll (results.map .cell) = results.map .cell ∧ Memory.Shares cells results ∧
      ∀ c ∈ cells, ∃ first, Item.shareEach [.cell c] = [.cell first] ∧ first.id = c.id ∧ Memory.Shares [c] [first] := by
  rcases run : (shareAll cells).run [] with ⟨results,table⟩
  obtain ⟨unique,distinct,last,again⟩ := shareAll_results coherent run
  refine ⟨results,Item.shareAll_cells run,unique,?_,Item.shareAll_cells again,Memory.shares coherent run,?_⟩
  · intro a left b right same
    exact distinct a left b right (Expr.outline_of_alike same)
  · intro c member
    have alone : Coherent [c] := by
      apply coherent.sublist
      intro a listed
      rw [List.mem_singleton.mp listed]
      exact mem_preorderAll_self c member
    exact ⟨(c.share.run []).1,rfl,share_first_id alone,Memory.shares alone (shareAll_run rfl rfl)⟩

end Cell

/-- The square of a sum that is one node, the same sum in nodes of its own, and the first sum once more. -/
def Cell.sums : List Cell :=
  let sum := Cell.app 1 .arith "+" [.var 2 "x",.int 3 5]
  [.app 0 .arith "*" [sum,sum],.app 4 .arith "+" [.var 5 "x",.int 6 5],sum]

theorem Cell.shareAll_maximal_sums :
    Coherent sums ∧ ∃ results, Item.shareAll (sums.map .cell) = results.map .cell ∧ results.map Cell.id = [0,1,1] ∧
      (∀ a ∈ preorderAll results, ∀ b ∈ preorderAll results, a.expr.alike b.expr = true → a = b) ∧
      Item.shareAll (results.map .cell) = results.map .cell ∧ Memory.Shares sums results ∧
      ∀ c ∈ sums, ∃ first, Item.shareEach [.cell c] = [.cell first] ∧ first.id = c.id ∧ Memory.Shares [c] [first] := by
  have coherent : Coherent sums := by
    simp [Coherent,sums,preorderAll,preorder,Cell.id]
  obtain ⟨results,run,-,rest⟩ := shareAll_maximal coherent
  refine ⟨coherent,results,run,?_,rest⟩
  have ids : (results.map Item.cell).map Item.id = [0,1,1] := by
    rw [← run]
    rfl
  rwa [List.map_map] at ids

end WhileExec
