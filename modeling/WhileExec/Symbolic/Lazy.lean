import WhileExec.Symbolic.Search

/-!
# Lazy exploration

The resulting states of a statement, found as they are asked for. The state that a branch, loop or assertion is
entered with goes on as the case where the condition holds; the other case is a fork, of which nothing is required
until the first case has given all its results. Every execution of a loop does at most as many iterations as the
bound allows, counted anew wherever the loop is entered. Whether a state is possible at all is asked before each
statement of a block.
-/

namespace WhileExec.Symbolic

namespace Lazy

/-- Goes on only if the state is possible. -/
def ifPossible (solver : Solver) (h : Handle) (search : Search Handle) : Search Handle := do
  if ← Explore.isEmpty solver h then Search.none else search

/-- At most `bound` iterations of a loop. -/
def unwind (solver : Solver) (cond : Expr) (body : Handle → Search Handle) : Nat → Handle → Search Handle
  | bound, h => do
    let f ← Explore.formula .nested h cond
    let exit ← Explore.fork h
    Explore.require h f
    Explore.require exit (.not f)
    let again : Search Handle :=
      match bound with
      | 0 => Search.none
      | bound + 1 => ifPossible solver h do
        let out ← body h
        unwind solver cond body bound out
    again.also (ifPossible solver exit (pure exit))

/-- Reports a state in which an assertion fails. -/
def report (solver : Solver) (statement : Stmt) (h : Handle) : Explore Unit := do
  Explore.print "[symexec]: Error at "
  Explore.printWritten (statement.write 0)
  let s ← Explore.state h
  Explore.print (" with " ++ s.text ++ "\n")
  let values := match s.concrete solver with
    | some values => values.listing fun value => value
    | none => "None"
  Explore.print ("[symexec]: Concrete state " ++ values ++ "\n")
  Explore.markFailed h

end Lazy

open Lazy

mutual

/-- The states that a statement gives from a state. -/
def lazily (solver : Solver) (bound : Nat) : Stmt → Handle → Search Handle
  | .skip, h => pure h
  | .printState, h => do
    Explore.printState h
    return h
  | .assign name rhs, h => do
    Explore.assign .nested h name rhs
    return h
  | .ifElse cond yes no, h => do
    let f ← Explore.formula .nested h cond
    let other ← Explore.fork h
    Explore.require h f
    (ifPossible solver h (lazily solver bound yes h)).also do
      Explore.require other (.not f)
      ifPossible solver other (lazily solver bound no other)
  | .ifOnly cond yes, h => do
    let f ← Explore.formula .nested h cond
    let other ← Explore.fork h
    Explore.require h f
    (ifPossible solver h (lazily solver bound yes h)).also do
      Explore.require other (.not f)
      ifPossible solver other (pure other)
  | .loop cond body _, h => unwind solver cond (lazily solver bound body) bound h
  | .assert cond, h => do
    let f ← Explore.formula .nested h cond
    let other ← Explore.fork h
    Explore.require other (.not f)
    unless ← Explore.isEmpty solver other do
      report solver (.assert cond) other
    Explore.require h f
    ifPossible solver h (pure h)
  | .assume cond, h => do
    Explore.require h (← Explore.formula .nested h cond)
    ifPossible solver h (pure h)
  | .havoc names, h => do
    Explore.havoc h names
    return h
  | .block items, h => lazilyAll solver bound items h
  | .hollow, _ => (throw .noItemCount : Explore Handle)

/-- The states that statements give one after the other, each from every result of the one before. -/
def lazilyAll (solver : Solver) (bound : Nat) : List Stmt → Handle → Search Handle
  | [], h => pure h
  | s :: ss, h => do
    let out ← ifPossible solver h (lazily solver bound s h)
    lazilyAll solver bound ss out

end

/-- The states that a program gives from a state, if that is possible at all. -/
def explore (solver : Solver) (bound : Nat) (s : Stmt) (h : Handle) : Search Handle :=
  ifPossible solver h (lazily solver bound s h)

end WhileExec.Symbolic
