import WhileExec.Symbolic.Eager
import WhileExec.Symbolic.Lazy

/-!
# Sessions

A session explores programs step by step with one engine, and lists the states that have been seen in the order in
which they were seen first. States are told apart by their handles, so a state that is given back twice has one
place in the list.
-/

namespace WhileExec.Symbolic

/-- How programs are explored: all results at once, or on demand with a bound on loops. -/
inductive Engine where
  | eager
  | bounded (bound : Nat)
  deriving DecidableEq, Repr, Inhabited

def Engine.joining : Engine → Joining
  | .eager => .flat
  | .bounded _ => .nested

structure Session where
  engine : Engine
  pool : Pool := {}
  seen : List Handle := []
  deriving Inhabited

namespace Session

/-- A session that has seen one new state. -/
def start (engine : Engine) : Session :=
  { engine, pool := { states := #[{}] }, seen := [0] }

def handle (s : Session) (place : Nat) : Handle :=
  s.seen[place]?.getD 0

/-- The place of a state in the list, where it is put if it was not seen before. -/
def see (h : Handle) : StateM Session Nat :=
  modifyGet fun s =>
    match s.seen.findIdx? (· == h) with
    | some place => (place, s)
    | none => (s.seen.length, { s with seen := s.seen ++ [h] })

/-- Carries out an action on the pool. -/
def act {α : Type} (action : Explore α) : StateM Session (Except Fault α) :=
  modifyGet fun s =>
    match action s.pool with
    | .ok value pool => (.ok value, { s with pool })
    | .error fault pool => (.error fault, { s with pool })

/-- Explores a statement from a state. Of the results that can be drawn one by one, those drawn before a failure
have been seen. -/
def run (solver : Solver) (stmt : Stmt) (place : Nat) (wanted : Option Nat) :
    StateM Session (Except Fault (List Nat)) := do
  let s ← get
  match s.engine with
  | .eager =>
    match ← act (eager solver stmt (s.handle place)) with
    | .ok handles => return .ok (← handles.mapM see)
    | .error fault => return .error fault
  | .bounded bound =>
    let drawn := (explore solver bound stmt (s.handle place)).draw wanted s.pool
    modify fun s => { s with pool := drawn.pool }
    let places ← drawn.values.mapM see
    match drawn.fault with
    | none => return .ok places
    | some fault => return .error fault

def new : StateM Session (List Nat) := do
  match ← act (Explore.new {}) with
  | .ok h => return [← see h]
  | .error _ => return []

def fork (place : Nat) : StateM Session (List Nat) := do
  let h := (← get).handle place
  match ← act (Explore.fork h) with
  | .ok child => return [← see h, ← see child]
  | .error _ => return []

/-- Requires conditions of a state. All are evaluated before the first is added. -/
def require (place : Nat) (conds : List Expr) : StateM Session (Except Fault Unit) := do
  let s ← get
  let h := s.handle place
  act do
    let fs ← conds.mapM (Explore.formula s.engine.joining h)
    fs.forM (Explore.require h)

def eval (place : Nat) (e : Expr) : StateM Session (Except Fault Meaning) := do
  let s ← get
  act (Explore.meaning s.engine.joining (s.handle place) e)

def markFailed (place : Nat) : StateM Session Unit := do
  let s ← get
  discard <| act (Explore.markFailed (s.handle place))

def state (s : Session) (place : Nat) : State :=
  s.pool.state (s.handle place)

def states (s : Session) : List State :=
  s.seen.map s.pool.state

/-- The text printed since the last time, which is taken away. -/
def takeOutput : StateM Session String :=
  modifyGet fun s => (s.pool.out, { s with pool := { s.pool with out := "" } })

end Session

end WhileExec.Symbolic
