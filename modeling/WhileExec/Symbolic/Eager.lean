import WhileExec.Symbolic.Pool

/-!
# Eager exploration

All resulting states of a statement at once. The state that a branch, loop or assertion is entered with goes on as
the case where the condition holds; the other case is a fork of it.

A block runs each of its statements on the state that the block was entered with and gives the results of the
last one. A branch without an alternative gives the state it was entered with for the case where its condition
fails. A loop is unrolled for ten rounds. A loop with an invariant is first checked: the invariant has to hold on
entry, and the body, run once from a state of which only the invariant is known, has to keep it. If that state
can be left at all it is the only result, and else the loop is unrolled too. Invariants are simplified before they
are put on a path.
-/

namespace WhileExec.Symbolic

namespace Eager

/-- One state of a round: the fork that leaves the loop, and the states that the body gives. -/
def advance (solver : Solver) (cond : Expr) (body : Handle → Explore (List Handle)) (h : Handle) :
    Explore (List Handle × List Handle) := do
  let f ← Explore.formula .flat h cond
  let exit ← Explore.fork h
  Explore.require h f
  Explore.require exit (.not f)
  let left := if ← Explore.isEmpty solver exit then [] else [exit]
  let entered ← if ← Explore.isEmpty solver h then pure [] else body h
  return (left, entered)

/-- One round over all states in the loop. -/
def round (solver : Solver) (cond : Expr) (body : Handle → Explore (List Handle)) :
    List Handle → Explore (List Handle × List Handle)
  | [] => return ([], [])
  | h :: hs => do
    let first ← advance solver cond body h
    let rest ← round solver cond body hs
    return (first.1 ++ rest.1, first.2 ++ rest.2)

/-- A number of rounds; the states that leave the loop in any of them. -/
def unroll (solver : Solver) (cond : Expr) (body : Handle → Explore (List Handle)) :
    Nat → List Handle → Explore (List Handle)
  | 0, _ => return []
  | rounds + 1, inside => do
    let (left, entered) ← round solver cond body inside
    return left ++ (← unroll solver cond body rounds entered)

/-- The number of rounds for which a loop is unrolled. -/
def rounds : Nat := 10

/-- What an invariant means in a state, simplified. -/
def simplified (solver : Solver) (inv : Expr) (h : Handle) : Explore Formula :=
  return solver.simplify (← Explore.formula .flat h inv)

/-- The invariant has to hold where the loop is entered. -/
def checkEntry (solver : Solver) (inv : Expr) (h : Handle) (f : Formula) : Explore Unit := do
  Explore.require h (.not f)
  unless ← Explore.isEmpty solver h do
    Explore.print "Invariant does not hold before initial loop entry\n"
    Explore.printWritten (inv.show ++ ("\n" : Written))
    Explore.printState h
    Explore.markFailed h

/-- The invariant has to hold again behind the body. -/
def checkKept (solver : Solver) (inv : Expr) (h : Handle) : Explore Unit := do
  let f ← simplified solver inv h
  Explore.require h (.not f)
  unless ← Explore.isEmpty solver h do
    Explore.print "Invariant does not hold within the loop\n"
    Explore.print "inv:  "
    Explore.printWritten (inv.show ++ ("\n" : Written))
    Explore.print ("inv_post:  " ++ f.text ++ "\n")
    Explore.print ("i:  " ++ (← Explore.state h).text ++ "\n")
    Explore.print ("pc " ++ (Formula.and (← Explore.state h).path).text ++ "\n")
    Explore.markFailed h

/-- Checks an invariant; the state that leaves the loop, if it can be left. -/
def checkInvariant (solver : Solver) (cond inv : Expr) (changed : List String)
    (body : Handle → Explore (List Handle)) (h : Handle) : Explore (Option Handle) := do
  let f ← simplified solver inv h
  let inside ← Explore.fork h
  checkEntry solver inv h f
  Explore.havoc inside changed
  Explore.require inside (← simplified solver inv inside)
  discard <| Explore.meaning .flat inside cond
  let exit ← Explore.fork inside
  unless ← Explore.isEmpty solver inside do
    (← body inside).forM (checkKept solver inv)
  return if ← Explore.isEmpty solver exit then none else some exit

end Eager

open Eager

mutual

/-- All states that a statement gives from a state. -/
def eager (solver : Solver) : Stmt → Handle → Explore (List Handle)
  | .skip, h => return [h]
  | .printState, h => do
    Explore.printState h
    return [h]
  | .assign name rhs, h => do
    Explore.assign .flat h name rhs
    return [h]
  | .ifElse cond yes no, h => do
    let f ← Explore.formula .flat h cond
    let other ← Explore.fork h
    Explore.require h f
    Explore.require other (.not f)
    let first ← if ← Explore.isEmpty solver h then pure [] else eager solver yes h
    let second ← if ← Explore.isEmpty solver other then pure [] else eager solver no other
    return first ++ second
  | .ifOnly cond yes, h => do
    let f ← Explore.formula .flat h cond
    let other ← Explore.fork h
    Explore.require h f
    Explore.require other (.not f)
    let first ← if ← Explore.isEmpty solver h then pure [] else eager solver yes h
    let second := if ← Explore.isEmpty solver other then [] else [h]
    return first ++ second
  | .loop cond body none, h => unroll solver cond (eager solver body) rounds [h]
  | .loop cond body (some inv), h => do
    match ← checkInvariant solver cond inv (solver.renewed body) (eager solver body) h with
    | some exit => return [exit]
    | none => unroll solver cond (eager solver body) rounds [h]
  | .assert cond, h => do
    let f ← Explore.formula .flat h cond
    let other ← Explore.fork h
    Explore.require h f
    Explore.require other (.not f)
    unless ← Explore.isEmpty solver other do
      Explore.print ("Assertion may be violated for:  " ++ f.text ++ "\n")
      Explore.markFailed other
    return if ← Explore.isEmpty solver h then [] else [h]
  | .assume cond, h => do
    Explore.require h (← Explore.formula .flat h cond)
    return if ← Explore.isEmpty solver h then [] else [h]
  | .havoc names, h => do
    Explore.havoc h names
    return [h]
  | .block items, h => eagerAll solver items h []
  | .hollow, _ => throw .noItems

/-- The results of the last statement, each run on the same state; `previous` if there is none. -/
def eagerAll (solver : Solver) : List Stmt → Handle → List Handle → Explore (List Handle)
  | [], _, previous => return previous
  | s :: ss, h, _ => do
    let results ← eager solver s h
    eagerAll solver ss h results

end

end WhileExec.Symbolic
