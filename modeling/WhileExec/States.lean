import WhileExec.Interpreter

/-!
# State objects

Variables belong to state objects, of which there can be several. A statement is run on one of them, changes it in
place and gives back the one with which to go on. None is made on the way.
-/

namespace WhileExec

/-- The variables of each state object, and the text printed. -/
structure States (n : Nat) where
  stores : Vector Store n
  out : String := ""

namespace States

variable {n : Nat}

def store (states : States n) (k : Fin n) : Store :=
  states.stores[k]

/-- What a run on a state object finds. -/
def machine (states : States n) (k : Fin n) : Machine :=
  ⟨states.store k,states.out⟩

/-- What a run on a state object leaves. -/
def put (states : States n) (k : Fin n) (m : Machine) : States n :=
  ⟨states.stores.set k m.store,m.out⟩

end States

/-- A computation that changes state objects and can fail. A failure undoes nothing. -/
abbrev Action (n : Nat) := EStateM Fault (States n)

namespace Action

variable {n : Nat}

/-- A run on one state object. -/
def within {α : Type} (k : Fin n) (run : Run α) : Action n α := fun states =>
  match run (states.machine k) with
  | .ok a m => .ok a (states.put k m)
  | .error fault m => .error fault (states.put k m)

/-- At most `limit` iterations of a loop. Each works on the state object that the one before it gave back. -/
def iterate (test : Fin n → Action n Bool) (body : Fin n → Action n (Fin n)) : Nat → Fin n → Action n (Fin n)
  | 0, k => do
    if ← test k then throw .unending
    return k
  | limit + 1, k => do
    if ← test k then
      let k ← body k
      iterate test body limit k
    else
      return k

end Action

mutual

/-- Runs a statement on a state object, with at most `limit` iterations in every execution of a loop. -/
def Stmt.visit {n : Nat} (limit : Nat) : Stmt → Fin n → Action n (Fin n)
  | .ifElse cond yes no, k => do
    if (← Action.within k (Run.value cond)).isTrue then yes.visit limit k else no.visit limit k
  | .ifOnly cond yes, k => do
    if (← Action.within k (Run.value cond)).isTrue then yes.visit limit k else return k
  | .loop cond body _, k =>
    Action.iterate (fun k => Action.within k (Value.isTrue <$> Run.value cond)) (body.visit limit) limit k
  | .block items, k => Stmt.visitAll limit items k
  | s, k => do
    Action.within k (s.exec limit)
    return k

def Stmt.visitAll {n : Nat} (limit : Nat) : List Stmt → Fin n → Action n (Fin n)
  | [], k => return k
  | s :: ss, k => do
    let k ← s.visit limit k
    Stmt.visitAll limit ss k

end

/-- Runs a node on a state object: gives a state object back for a statement, and a value for an expression. -/
def Node.visit {n : Nat} (limit : Nat) : Node → Fin n → Action n (Fin n ⊕ Value)
  | .stmt s, k => .inl <$> s.visit limit k
  | .expr e, k => .inr <$> Action.within k (Run.value e)

end WhileExec
