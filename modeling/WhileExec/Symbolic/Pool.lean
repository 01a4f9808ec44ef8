import WhileExec.Definedness
import WhileExec.Print
import WhileExec.Symbolic.Meaning

/-!
# Symbolic states

A symbolic state stands for many stores: variables are bound to symbols, and the path says which values those may
have. States live in a pool and are known by handles, since an exploration changes them in place and gives the
same state back under the same handle. Forking a state leaves it as it is and adds a second one with the same
bindings and path, which is no error state.

A solver answers questions about paths and simplifies formulas. Nothing is assumed of it here.
-/

namespace WhileExec

/-- The variables that a statement assigns or chooses on every way. -/
def Stmt.changed (s : Stmt) : List String :=
  (s.fact {}).defs.toList

theorem Stmt.changed_perm (s : Stmt) : s.changed.Perm s.changed :=
  .refl _

namespace Symbolic

structure State where
  env : Env Symbol := {}
  path : Path := []
  failed : Bool := false
  deriving Inhabited

def State.text (s : State) : String :=
  s.env.listing Symbol.text ++ "pc: " ++ s.path.text ++ "\n"

/-- The conditions of a state as a benchmark file asserts them. A last condition that is plainly true is left
out. -/
def State.assertions (s : State) : List String :=
  let path := match s.path.getLast? with
    | some (.bool true) => s.path.dropLast
    | _ => s.path
  path.map Formula.benchmarkText

/-- Answers about paths, and what else the engines leave open. -/
structure Solver where
  /-- No interpretation satisfies the path. -/
  unsat : Path → Bool
  /-- The integer that a symbol is under all interpretations that satisfy the path, if there is just one. -/
  forced : Path → Symbol → Option Int
  /-- The form in which an invariant is put on a path. -/
  simplify : Formula → Formula := id
  /-- The variables that the body of a loop assigns, in the order in which they are renewed. -/
  renewed : Stmt → List String := Stmt.changed
  renewed_perm : ∀ body, (renewed body).Perm body.changed := by exact Stmt.changed_perm

/-- The values that a path leaves to the variables of a state; an asterisk where there are several. -/
def State.concrete (solver : Solver) (s : State) : Option (Env String) :=
  if solver.unsat s.path then none
  else some (s.env.map fun _ symbol =>
    match solver.forced s.path symbol with
    | some n => toString n
    | none => "*")

abbrev Handle := Nat

/-- All states, the number of symbols made so far, and the text printed. -/
structure Pool where
  states : Array State := #[]
  symbols : Nat := 0
  out : String := ""
  deriving Inhabited

def Pool.state (pool : Pool) (h : Handle) : State :=
  pool.states[h]?.getD {}

/-- A computation that changes a pool and can fail. A failure undoes nothing. -/
abbrev Explore := EStateM Fault Pool

namespace Explore

def state (h : Handle) : Explore State :=
  return (← get).state h

def new (s : State) : Explore Handle := do
  let pool ← get
  set { pool with states := pool.states.push s }
  return pool.states.size

def update (h : Handle) (change : State → State) : Explore Unit :=
  modify fun pool => { pool with states := pool.states.modify h change }

/-- A second state like the given one. -/
def fork (h : Handle) : Explore Handle := do
  new { ← state h with failed := false }

def require (h : Handle) (f : Formula) : Explore Unit :=
  update h fun s => { s with path := s.path ++ [f] }

def markFailed (h : Handle) : Explore Unit :=
  update h fun s => { s with failed := true }

/-- Makes a new symbol for a variable. -/
def symbol (name : String) : Explore Symbol := do
  let pool ← get
  set { pool with symbols := pool.symbols + 1 }
  return ⟨name, pool.symbols⟩

/-- Binds a variable to a new symbol. -/
def renew (h : Handle) (name : String) : Explore Symbol := do
  let s ← symbol name
  update h fun state => { state with env := state.env.insert name s }
  return s

def print (text : String) : Explore Unit :=
  modify fun pool => { pool with out := pool.out ++ text }

def ofExcept {α : Type} : Except Fault α → Explore α
  | .ok a => pure a
  | .error fault => throw fault

def printWritten (w : Written) : Explore Unit := do
  print (← ofExcept w.toExcept)

def isEmpty (solver : Solver) (h : Handle) : Explore Bool :=
  return solver.unsat (← state h).path

def meaning (joining : Joining) (h : Handle) (e : Expr) : Explore Meaning := do
  ofExcept (Meaning.of joining (← state h).env e)

def term (joining : Joining) (h : Handle) (e : Expr) : Explore Term := do
  ofExcept (← meaning joining h e).toTerm

def formula (joining : Joining) (h : Handle) (e : Expr) : Explore Formula := do
  ofExcept (← meaning joining h e).toFormula

/-- An assignment: the variable gets a new symbol, which equals the meaning that the right-hand side had before. -/
def assign (joining : Joining) (h : Handle) (name : String) (rhs : Expr) : Explore Unit := do
  let t ← term joining h rhs
  let s ← renew h name
  require h (.compare .eq (.sym s) t)

def havoc (h : Handle) (names : List String) : Explore Unit :=
  names.forM fun name => discard (renew h name)

def printState (h : Handle) : Explore Unit := do
  print ((← state h).text ++ "\n")

end Explore

end Symbolic

end WhileExec
