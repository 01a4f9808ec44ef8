import Mathlib
import WhileExec.Symbolic.Eager
import WhileExec.Proofs.Symbolic.LazySteps

/-!
# Scripts

An exploration is a function of the pool it starts with, which hides what happens on the way. A script keeps its
single steps apart: it looks at the pool, acts on it, yields a result, returns or fails. `Script.eager` and
`Script.explore` are the two engines step by step. Carried out, they are the engines: `eager_run`, `explore_trace`.
-/

namespace WhileExec.Symbolic

/-- A single step on a pool. An assignment requires by `equate` that a symbol equals a term. What the solver is
asked changes nothing. -/
inductive Action where
  | new
  | fork (h : Handle)
  | require (h : Handle) (f : Formula)
  | equate (h : Handle) (s : Symbol) (t : Term)
  | markFailed (h : Handle)
  | symbol (name : String)
  | bind (h : Handle) (name : String) (s : Symbol)
  | output (text : String)
  | ask (path : Path)

def Action.apply (p : Pool) : Action → Pool
  | new => p.add {}
  | fork h => p.forked h
  | require h f => p.required h f
  | equate h s t => p.required h (.compare .eq (.sym s) t)
  | markFailed h => p.marked h
  | symbol _ => { p with symbols := p.symbols + 1 }
  | bind h name s => p.change h fun state => state.bind name s
  | output text => { p with out := text }
  | ask _ => p

/-- The pool after some actions. -/
def Pool.through (p : Pool) (actions : List Action) : Pool :=
  actions.foldl Action.apply p

namespace Pool

@[simp] theorem through_nil (p : Pool) : p.through [] = p := rfl

@[simp] theorem through_cons (p : Pool) (a : Action) (as : List Action) :
    p.through (a :: as) = (a.apply p).through as := rfl

@[simp] theorem through_append (p : Pool) (as bs : List Action) :
    p.through (as ++ bs) = (p.through as).through bs := List.foldl_append

end Pool

/-- A computation that yields values `ω` on its way and returns a value `α`. -/
inductive Script (ω α : Type) where
  | done (a : α)
  | fail (fault : Fault)
  | look (next : Pool → Script ω α)
  | act (action : Action) (next : Script ω α)
  | yield (value : ω) (next : Script ω α)

namespace Script

variable {ω α β : Type}

protected def bind (f : α → Script ω β) : Script ω α → Script ω β
  | .done a => f a
  | .fail fault => .fail fault
  | .look next => .look fun p => (next p).bind f
  | .act action next => .act action (next.bind f)
  | .yield value next => .yield value (next.bind f)

instance : Monad (Script ω) where
  pure := .done
  bind x f := x.bind f

/-- Goes on with a second script behind the first. -/
def also (first second : Script ω Unit) : Script ω Unit :=
  first.bind fun _ => second

/-- A script in the place of every value that is yielded. -/
def each {χ : Type} (body : ω → Script χ Unit) : Script ω Unit → Script χ Unit
  | .done a => .done a
  | .fail fault => .fail fault
  | .look next => .look fun p => (next p).each body
  | .act action next => .act action (next.each body)
  | .yield value next => (body value).also (next.each body)

def lift : Script Empty α → Script ω α
  | .done a => .done a
  | .fail fault => .fail fault
  | .look next => .look fun p => (next p).lift
  | .act action next => .act action next.lift
  | .yield value _ => value.elim

instance : MonadLift (Script Empty) (Script Handle) where
  monadLift := lift

def give (value : ω) : Script ω Unit :=
  .yield value (.done ())

/-- A script that yields nothing, carried out. -/
def run : Script Empty α → Explore α
  | .done a => pure a
  | .fail fault => throw fault
  | .look next => fun p => (next p).run p
  | .act action next => fun p => next.run (action.apply p)
  | .yield value _ => value.elim

/-- A script as a search: resumed behind a result, it goes on with the pool of that moment. -/
def trace : Script ω Unit → Search ω
  | .done _ => fun p => .done p
  | .fail fault => fun p => .failed fault p
  | .look next => fun p => (next p).trace p
  | .act action next => fun p => next.trace (action.apply p)
  | .yield value next => fun p => .yield value p next.trace

/-- The actions up to the next value, or to the end. -/
def actions : Script ω α → Pool → List Action
  | .done _, _ => []
  | .fail _, _ => []
  | .look next, p => (next p).actions p
  | .act action next, p => action :: next.actions (action.apply p)
  | .yield _ _, _ => []

/-- What is left to do behind the next value. -/
def rest : Script ω α → Pool → Script ω α
  | .done a, _ => .done a
  | .fail fault, _ => .fail fault
  | .look next, p => (next p).rest p
  | .act action next, p => next.rest (action.apply p)
  | .yield _ next, _ => next

theorem run_after (x : Script Empty α) (p : Pool) : Explore.after x.run p = p.through (x.actions p) := by
  induction x generalizing p with
  | done a => rfl
  | fail fault => rfl
  | look next ih => exact ih p p
  | act action next ih => exact ih (action.apply p)
  | yield value => exact value.elim

theorem trace_yield {x : Script ω Unit} {p q : Pool} {value : ω} {resume : Pool → Trace ω}
    (drawn : x.trace p = .yield value q resume) : q = p.through (x.actions p) ∧ resume = (x.rest p).trace := by
  induction x generalizing p with
  | done a => cases drawn
  | fail fault => cases drawn
  | look next ih => exact ih p drawn
  | act action next ih => exact ih drawn
  | yield value next => cases drawn; exact ⟨rfl,rfl⟩

theorem trace_done {x : Script ω Unit} {p q : Pool} (drawn : x.trace p = .done q) : q = p.through (x.actions p) := by
  induction x generalizing p with
  | done a => cases drawn; rfl
  | fail fault => cases drawn
  | look next ih => exact ih p drawn
  | act action next ih => exact ih drawn
  | yield value next => cases drawn

theorem trace_failed {x : Script ω Unit} {p q : Pool} {fault : Fault} (drawn : x.trace p = .failed fault q) :
    q = p.through (x.actions p) := by
  induction x generalizing p with
  | done a => cases drawn
  | fail fault => cases drawn; rfl
  | look next ih => exact ih p drawn
  | act action next ih => exact ih drawn
  | yield value next => cases drawn

theorem run_bind (x : Script Empty α) (f : α → Script Empty β) :
    (x >>= f).run = x.run >>= fun a => (f a).run := by
  funext p
  induction x generalizing p with
  | done a => rfl
  | fail fault => rfl
  | look next ih => exact ih p p
  | act action next ih => exact ih (action.apply p)
  | yield value => exact value.elim

theorem lift_bind_trace (x : Script Empty α) (f : α → Script Handle Unit) :
    ((x.lift : Script Handle α) >>= f).trace = (liftM x.run : Search α) >>= fun a => (f a).trace := by
  funext p
  rw [Search.lift_bind]
  induction x generalizing p with
  | done a => rfl
  | fail fault => rfl
  | look next ih => exact ih p p
  | act action next ih => exact ih (action.apply p)
  | yield value => exact value.elim

theorem also_trace (first second : Script Handle Unit) :
    (first.also second).trace = first.trace.also second.trace := by
  funext p
  induction first generalizing p with
  | done a => rfl
  | fail fault => rfl
  | look next ih => exact ih p p
  | act action next ih => exact ih (action.apply p)
  | yield value next ih => exact congrArg (Trace.yield value p) (funext ih)

theorem each_trace (x : Script Handle Unit) (body : Handle → Script Handle Unit) :
    (x.each body).trace = x.trace >>= fun h => (body h).trace := by
  funext p
  induction x generalizing p with
  | done a => rfl
  | fail fault => rfl
  | look next ih => exact ih p p
  | act action next ih => exact ih (action.apply p)
  | yield value next ih =>
    change ((body value).also (next.each body)).trace p = ((body value).trace p).andThen _
    rw [also_trace,funext ih]
    rfl

section Steps

variable (joining : Joining) (solver : Solver) (h : Handle)

def ofExcept : Except Fault α → Script Empty α
  | .ok a => .done a
  | .error fault => .fail fault

def state : Script Empty State :=
  .look fun p => .done (p.state h)

def fork : Script Empty Handle :=
  .look fun p => .act (.fork h) (.done p.states.size)

def require (f : Formula) : Script Empty Unit :=
  .act (.require h f) (.done ())

def markFailed : Script Empty Unit :=
  .act (.markFailed h) (.done ())

def symbol (name : String) : Script Empty Symbol :=
  .look fun p => .act (.symbol name) (.done ⟨name,p.symbols⟩)

def renew (name : String) : Script Empty Symbol := do
  let s ← symbol name
  .act (.bind h name s) (.done s)

def print (text : String) : Script Empty Unit :=
  .look fun p => .act (.output (p.out ++ text)) (.done ())

def printWritten (w : Written) : Script Empty Unit := do
  print (← ofExcept w.toExcept)

def isEmpty : Script Empty Bool := do
  let path := (← state h).path
  .act (.ask path) (.done (solver.unsat path))

def meaning (e : Expr) : Script Empty Meaning := do
  ofExcept (Meaning.of joining (← state h).env e)

def term (e : Expr) : Script Empty Term := do
  ofExcept (← meaning joining h e).toTerm

def formula (e : Expr) : Script Empty Formula := do
  ofExcept (← meaning joining h e).toFormula

def assign (name : String) (rhs : Expr) : Script Empty Unit := do
  let t ← term joining h rhs
  let s ← renew h name
  .act (.equate h s t) (.done ())

def havoc (names : List String) : Script Empty Unit :=
  names.forM fun name => discard (renew h name)

def printState : Script Empty Unit := do
  print ((← state h).text ++ "\n")

end Steps

section Eager

variable (solver : Solver) (cond : Expr) (body : Handle → Script Empty (List Handle))

def advance (h : Handle) : Script Empty (List Handle × List Handle) := do
  let f ← formula .flat h cond
  let exit ← fork h
  require h f
  require exit (.not f)
  let left := if ← isEmpty solver exit then [] else [exit]
  let entered ← if ← isEmpty solver h then pure [] else body h
  return (left,entered)

def round : List Handle → Script Empty (List Handle × List Handle)
  | [] => return ([],[])
  | h :: hs => do
    let first ← advance solver cond body h
    let rest ← round hs
    return (first.1 ++ rest.1,first.2 ++ rest.2)

def unroll : Nat → List Handle → Script Empty (List Handle)
  | 0, _ => return []
  | rounds + 1, inside => do
    let (left,entered) ← round solver cond body inside
    return left ++ (← unroll rounds entered)

def simplified (inv : Expr) (h : Handle) : Script Empty Formula :=
  return solver.simplify (← formula .flat h inv)

def checkEntry (inv : Expr) (h : Handle) (f : Formula) : Script Empty Unit := do
  require h (.not f)
  unless ← isEmpty solver h do
    print "Invariant does not hold before initial loop entry\n"
    printWritten (inv.show ++ ("\n" : Written))
    printState h
    markFailed h

def checkKept (inv : Expr) (h : Handle) : Script Empty Unit := do
  let f ← simplified solver inv h
  require h (.not f)
  unless ← isEmpty solver h do
    print "Invariant does not hold within the loop\n"
    print "inv:  "
    printWritten (inv.show ++ ("\n" : Written))
    print ("inv_post:  " ++ f.text ++ "\n")
    print ("i:  " ++ (← state h).text ++ "\n")
    print ("pc " ++ (Formula.and (← state h).path).text ++ "\n")
    markFailed h

def checkInvariant (inv : Expr) (changed : List String) (h : Handle) : Script Empty (Option Handle) := do
  let f ← simplified solver inv h
  let inside ← fork h
  checkEntry solver inv h f
  havoc inside changed
  require inside (← simplified solver inv inside)
  discard <| meaning .flat inside cond
  let exit ← fork inside
  unless ← isEmpty solver inside do
    (← body inside).forM (checkKept solver inv)
  return if ← isEmpty solver exit then none else some exit

end Eager

mutual

/-- All states that a statement gives from a state, step by step. -/
def eager (solver : Solver) : Stmt → Handle → Script Empty (List Handle)
  | .skip, h => return [h]
  | .printState, h => do
    printState h
    return [h]
  | .assign name rhs, h => do
    assign .flat h name rhs
    return [h]
  | .ifElse cond yes no, h => do
    let f ← formula .flat h cond
    let other ← fork h
    require h f
    require other (.not f)
    let first ← if ← isEmpty solver h then pure [] else eager solver yes h
    let second ← if ← isEmpty solver other then pure [] else eager solver no other
    return first ++ second
  | .ifOnly cond yes, h => do
    let f ← formula .flat h cond
    let other ← fork h
    require h f
    require other (.not f)
    let first ← if ← isEmpty solver h then pure [] else eager solver yes h
    let second := if ← isEmpty solver other then [] else [h]
    return first ++ second
  | .loop cond body none, h => unroll solver cond (eager solver body) Symbolic.Eager.rounds [h]
  | .loop cond body (some inv), h => do
    match ← checkInvariant solver cond (eager solver body) inv (solver.renewed body) h with
    | some exit => return [exit]
    | none => unroll solver cond (eager solver body) Symbolic.Eager.rounds [h]
  | .assert cond, h => do
    let f ← formula .flat h cond
    let other ← fork h
    require h f
    require other (.not f)
    unless ← isEmpty solver other do
      print ("Assertion may be violated for:  " ++ f.text ++ "\n")
      markFailed other
    return if ← isEmpty solver h then [] else [h]
  | .assume cond, h => do
    require h (← formula .flat h cond)
    return if ← isEmpty solver h then [] else [h]
  | .havoc names, h => do
    havoc h names
    return [h]
  | .block items, h => eagerAll solver items h []
  | .hollow, _ => .fail .noItems

def eagerAll (solver : Solver) : List Stmt → Handle → List Handle → Script Empty (List Handle)
  | [], _, previous => return previous
  | s :: ss, h, _ => do
    let results ← eager solver s h
    eagerAll solver ss h results

end

section Lazy

variable (solver : Solver)

def ifPossible (h : Handle) (script : Script Handle Unit) : Script Handle Unit := do
  if ← isEmpty solver h then pure () else script

/-- The two ways of a branch, each with its state. -/
def branch (cond : Expr) (yes no : Handle → Script Handle Unit) (h : Handle) : Script Handle Unit := do
  let f ← formula .nested h cond
  let other ← fork h
  require h f
  (ifPossible solver h (yes h)).also do
    require other (.not f)
    ifPossible solver other (no other)

def unwind (cond : Expr) (body : Handle → Script Handle Unit) : Nat → Handle → Script Handle Unit
  | bound, h => do
    let f ← formula .nested h cond
    let exit ← fork h
    require h f
    require exit (.not f)
    let again : Script Handle Unit :=
      match bound with
      | 0 => pure ()
      | bound + 1 => ifPossible solver h ((body h).each (unwind cond body bound))
    again.also (ifPossible solver exit (give exit))

def report (statement : Stmt) (h : Handle) : Script Empty Unit := do
  print "[symexec]: Error at "
  printWritten (statement.write 0)
  let s ← state h
  print (" with " ++ s.text ++ "\n")
  let values := match s.concrete solver with
    | some values => values.listing fun value => value
    | none => "None"
  print ("[symexec]: Concrete state " ++ values ++ "\n")
  markFailed h

end Lazy

mutual

/-- The states that a statement gives from a state, step by step. -/
def lazily (solver : Solver) (bound : Nat) : Stmt → Handle → Script Handle Unit
  | .skip, h => give h
  | .printState, h => do
    printState h
    give h
  | .assign name rhs, h => do
    assign .nested h name rhs
    give h
  | .ifElse cond yes no, h => branch solver cond (lazily solver bound yes) (lazily solver bound no) h
  | .ifOnly cond yes, h => branch solver cond (lazily solver bound yes) give h
  | .loop cond body _, h => unwind solver cond (lazily solver bound body) bound h
  | .assert cond, h => do
    let f ← formula .nested h cond
    let other ← fork h
    require other (.not f)
    unless ← isEmpty solver other do
      report solver (.assert cond) other
    require h f
    ifPossible solver h (give h)
  | .assume cond, h => do
    require h (← formula .nested h cond)
    ifPossible solver h (give h)
  | .havoc names, h => do
    havoc h names
    give h
  | .block items, h => lazilyAll solver bound items h
  | .hollow, _ => .fail .noItemCount

def lazilyAll (solver : Solver) (bound : Nat) : List Stmt → Handle → Script Handle Unit
  | [], h => give h
  | s :: ss, h => (ifPossible solver h (lazily solver bound s h)).each (lazilyAll solver bound ss)

end

def explore (solver : Solver) (bound : Nat) (s : Stmt) (h : Handle) : Script Handle Unit :=
  ifPossible solver h (lazily solver bound s h)

theorem bind_run {x : Script Empty α} {f : α → Script Empty β} {action : Explore α} {next : α → Explore β}
    (first : x.run = action) (second : ∀ a, (f a).run = next a) : (x >>= f).run = action >>= next := by
  rw [run_bind,first,funext second]

theorem bind_trace {x : Script Empty α} {f : α → Script Handle Unit} {action : Explore α}
    {next : α → Search Handle} (first : x.run = action) (second : ∀ a, (f a).trace = next a) :
    ((liftM x : Script Handle α) >>= f).trace = (liftM action : Search α) >>= next := by
  change ((x.lift : Script Handle α) >>= f).trace = _
  rw [lift_bind_trace,first,funext second]

theorem ofExcept_run (x : Except Fault α) : (ofExcept x).run = Explore.ofExcept x := by
  cases x <;> rfl

section Steps

variable (joining : Joining) (solver : Solver) (h : Handle)

theorem meaning_run (e : Expr) : (meaning joining h e).run = Explore.meaning joining h e :=
  bind_run rfl fun _ => ofExcept_run _

theorem formula_run (e : Expr) : (formula joining h e).run = Explore.formula joining h e :=
  bind_run (meaning_run joining h e) fun _ => ofExcept_run _

theorem printWritten_run (w : Written) : (printWritten w).run = Explore.printWritten w :=
  bind_run (ofExcept_run _) fun _ => rfl

theorem assign_run (name : String) (rhs : Expr) :
    (assign joining h name rhs).run = Explore.assign joining h name rhs :=
  bind_run (bind_run (meaning_run joining h rhs) fun _ => ofExcept_run _) fun _ => rfl

theorem forM_run {x : α → Script Empty Unit} {action : α → Explore Unit} (same : ∀ a, (x a).run = action a)
    (as : List α) : (as.forM x).run = as.forM action := by
  induction as with
  | nil => rfl
  | cons a as ih => exact bind_run (same a) fun _ => ih

theorem havoc_run (names : List String) : (havoc h names).run = Explore.havoc h names :=
  forM_run (fun _ => rfl) names

end Steps

section Eager

variable {solver : Solver} {cond : Expr} {body : Handle → Script Empty (List Handle)}
  {explored : Handle → Explore (List Handle)}

theorem split_run {h : Handle} {x : Formula → Handle → Script Empty α} {next : Formula → Handle → Explore α}
    (same : ∀ f other, (x f other).run = next f other) :
    (do
      let f ← formula .flat h cond
      let other ← fork h
      require h f
      require other (.not f)
      x f other).run = (do
        let f ← Explore.formula .flat h cond
        let other ← Explore.fork h
        Explore.require h f
        Explore.require other (.not f)
        next f other) :=
  bind_run (formula_run .flat h cond) fun f => bind_run rfl fun other => bind_run rfl fun _ =>
    bind_run rfl fun _ => same f other

theorem advance_run (same : ∀ h, (body h).run = explored h) (h : Handle) :
    (advance solver cond body h).run = Symbolic.Eager.advance solver cond explored h := by
  refine split_run fun f exit => bind_run rfl fun _ => bind_run rfl fun empty => ?_
  cases empty with
  | true => rfl
  | false => exact bind_run (same h) fun _ => rfl

theorem round_run (same : ∀ h, (body h).run = explored h) (hs : List Handle) :
    (round solver cond body hs).run = Symbolic.Eager.round solver cond explored hs := by
  induction hs with
  | nil => rfl
  | cons h hs ih => exact bind_run (advance_run same h) fun _ => bind_run ih fun _ => rfl

theorem unroll_run (same : ∀ h, (body h).run = explored h) (rounds : Nat) (hs : List Handle) :
    (unroll solver cond body rounds hs).run = Symbolic.Eager.unroll solver cond explored rounds hs := by
  induction rounds generalizing hs with
  | zero => rfl
  | succ rounds ih => exact bind_run (round_run same hs) fun _ => bind_run (ih _) fun _ => rfl

theorem checkEntry_run (inv : Expr) (h : Handle) (f : Formula) :
    (checkEntry solver inv h f).run = Symbolic.Eager.checkEntry solver inv h f := by
  refine bind_run rfl fun _ => bind_run rfl fun empty => ?_
  cases empty with
  | true => rfl
  | false => exact bind_run rfl fun _ => bind_run (printWritten_run _) fun _ => rfl

theorem simplified_run (inv : Expr) (h : Handle) :
    (simplified solver inv h).run = Symbolic.Eager.simplified solver inv h :=
  bind_run (formula_run .flat h inv) fun _ => rfl

theorem checkKept_run (inv : Expr) (h : Handle) :
    (checkKept solver inv h).run = Symbolic.Eager.checkKept solver inv h := by
  refine bind_run (simplified_run inv h) fun f => bind_run rfl fun _ => bind_run rfl fun empty => ?_
  cases empty with
  | true => rfl
  | false => exact bind_run rfl fun _ => bind_run rfl fun _ => bind_run (printWritten_run _) fun _ => rfl

theorem checkInvariant_run (same : ∀ h, (body h).run = explored h) (inv : Expr) (changed : List String)
    (h : Handle) : (checkInvariant solver cond body inv changed h).run =
      Symbolic.Eager.checkInvariant solver cond inv changed explored h := by
  refine bind_run (simplified_run inv h) fun f => bind_run rfl fun inside => ?_
  refine bind_run (checkEntry_run inv h f) fun _ => bind_run (havoc_run inside changed) fun _ => ?_
  refine bind_run (simplified_run inv inside) fun _ => bind_run rfl fun _ => ?_
  refine bind_run (bind_run (meaning_run .flat inside cond) fun _ => rfl) fun _ => ?_
  refine bind_run rfl fun exit => bind_run rfl fun empty => ?_
  cases empty with
  | true => rfl
  | false => exact bind_run (same inside) fun _ => bind_run (forM_run (checkKept_run inv) _) fun _ => rfl

end Eager

theorem eagerAll_run {solver : Solver} {ss : List Stmt}
    (each : ∀ s ∈ ss, ∀ h, (eager solver s h).run = Symbolic.eager solver s h) (h : Handle) (previous : List Handle) :
    (eagerAll solver ss h previous).run = Symbolic.eagerAll solver ss h previous := by
  induction ss generalizing previous with
  | nil => rfl
  | cons s ss ih =>
    exact bind_run (each s (by simp) h) fun results => ih (fun s member => each s (by simp [member])) results

/-- Carried out, the script does what the engine does. -/
theorem eager_run (solver : Solver) (s : Stmt) (h : Handle) : (eager solver s h).run = Symbolic.eager solver s h := by
  induction s using Stmt.structural generalizing h with
  | skip => rfl
  | printState => rfl
  | assign name rhs => exact bind_run (assign_run .flat h name rhs) fun _ => rfl
  | ifElse cond yes no left right =>
    refine split_run fun f other => bind_run rfl fun empty => ?_
    have second : ∀ first, (do
        let second ← if ← isEmpty solver other then pure [] else eager solver no other
        return first ++ second).run = (do
          let second ← if ← Explore.isEmpty solver other then pure [] else Symbolic.eager solver no other
          return first ++ second) := by
      intro first
      refine bind_run rfl fun refused => ?_
      cases refused with
      | true => rfl
      | false => exact bind_run (right other) fun _ => rfl
    cases empty with
    | true => exact second []
    | false => exact bind_run (left h) second
  | ifOnly cond yes ih =>
    refine split_run fun f other => bind_run rfl fun empty => ?_
    cases empty with
    | true => rfl
    | false => exact bind_run (ih h) fun _ => rfl
  | loop cond body inv ih =>
    cases inv with
    | none => exact unroll_run ih Symbolic.Eager.rounds [h]
    | some inv =>
      refine bind_run (checkInvariant_run ih inv _ h) fun exit => ?_
      cases exit with
      | none => exact unroll_run ih Symbolic.Eager.rounds [h]
      | some exit => rfl
  | assert cond =>
    refine split_run fun f other => bind_run rfl fun empty => ?_
    cases empty <;> rfl
  | assume cond => exact bind_run (formula_run .flat h cond) fun _ => rfl
  | havoc names => exact bind_run (havoc_run h names) fun _ => rfl
  | block items ih => exact eagerAll_run ih h []
  | hollow => rfl

section Lazy

variable {solver : Solver} {cond : Expr} {body : Handle → Script Handle Unit} {searched : Handle → Search Handle}

theorem ifPossible_trace {h : Handle} {x : Script Handle Unit} {search : Search Handle} (same : x.trace = search) :
    (ifPossible solver h x).trace = Lazy.ifPossible solver h search := by
  refine bind_trace rfl fun empty => ?_
  cases empty with
  | true => rfl
  | false => exact same

theorem also_traces {x y : Script Handle Unit} {first second : Search Handle} (left : x.trace = first)
    (right : y.trace = second) : (x.also y).trace = first.also second := by
  rw [also_trace,left,right]

theorem each_traces {x : Script Handle Unit} {search : Search Handle} (left : x.trace = search)
    (right : ∀ h, (body h).trace = searched h) : (x.each body).trace = search >>= searched := by
  rw [each_trace,left,funext right]

theorem unwind_trace (same : ∀ h, (body h).trace = searched h) (bound : Nat) (h : Handle) :
    (unwind solver cond body bound h).trace = Lazy.unwind solver cond searched bound h := by
  induction bound generalizing h with
  | zero =>
    refine bind_trace (formula_run .nested h cond) fun f => bind_trace rfl fun exit => bind_trace rfl fun _ => ?_
    exact bind_trace rfl fun _ => also_traces rfl (ifPossible_trace rfl)
  | succ bound ih =>
    refine bind_trace (formula_run .nested h cond) fun f => bind_trace rfl fun exit => bind_trace rfl fun _ => ?_
    exact bind_trace rfl fun _ => also_traces (ifPossible_trace (each_traces (same h) ih)) (ifPossible_trace rfl)

theorem branch_trace {yes no : Handle → Script Handle Unit} {first second : Handle → Search Handle}
    (left : ∀ h, (yes h).trace = first h) (right : ∀ h, (no h).trace = second h) (h : Handle) :
    (branch solver cond yes no h).trace = Lazy.branch solver cond first second h := by
  refine bind_trace (formula_run .nested h cond) fun f => bind_trace rfl fun other => bind_trace rfl fun _ => ?_
  exact also_traces (ifPossible_trace (left h)) (bind_trace rfl fun _ => ifPossible_trace (right other))

theorem report_run (s : Stmt) (h : Handle) : (report solver s h).run = Lazy.report solver s h :=
  bind_run rfl fun _ => bind_run (printWritten_run _) fun _ => rfl

end Lazy

theorem lazilyAll_trace {solver : Solver} {bound : Nat} {ss : List Stmt}
    (each : ∀ s ∈ ss, ∀ h, (lazily solver bound s h).trace = Symbolic.lazily solver bound s h) (h : Handle) :
    (lazilyAll solver bound ss h).trace = Symbolic.lazilyAll solver bound ss h := by
  induction ss generalizing h with
  | nil => rfl
  | cons s ss ih =>
    exact each_traces (ifPossible_trace (each s (by simp) h)) (ih fun s member => each s (by simp [member]))

theorem lazily_trace (solver : Solver) (bound : Nat) (s : Stmt) (h : Handle) :
    (lazily solver bound s h).trace = Symbolic.lazily solver bound s h := by
  induction s using Stmt.structural generalizing h with
  | skip => rfl
  | printState => exact bind_trace rfl fun _ => rfl
  | assign name rhs => exact bind_trace (assign_run .nested h name rhs) fun _ => rfl
  | ifElse cond yes no left right =>
    rw [lazily_ifElse]
    exact branch_trace left right h
  | ifOnly cond yes ih =>
    rw [lazily_ifOnly]
    exact branch_trace ih (fun _ => rfl) h
  | loop cond body inv ih => exact unwind_trace ih bound h
  | assert cond =>
    refine bind_trace (formula_run .nested h cond) fun f => bind_trace rfl fun other => bind_trace rfl fun _ => ?_
    refine bind_trace rfl fun empty => ?_
    have last : (do require h f; ifPossible solver h (give h) : Script Handle Unit).trace =
        (do Explore.require h f; Lazy.ifPossible solver h (pure h) : Search Handle) :=
      bind_trace rfl fun _ => ifPossible_trace rfl
    cases empty with
    | true => exact last
    | false => exact bind_trace (report_run _ other) fun _ => last
  | assume cond =>
    refine bind_trace (formula_run .nested h cond) fun f => bind_trace rfl fun _ => ?_
    exact ifPossible_trace rfl
  | havoc names => exact bind_trace (havoc_run h names) fun _ => rfl
  | block items ih => exact lazilyAll_trace ih h
  | hollow => rfl

/-- Resumed step by step, the script gives what the engine gives. -/
theorem explore_trace (solver : Solver) (bound : Nat) (s : Stmt) (h : Handle) :
    (explore solver bound s h).trace = Symbolic.explore solver bound s h :=
  ifPossible_trace (lazily_trace solver bound s h)

end Script

end WhileExec.Symbolic
