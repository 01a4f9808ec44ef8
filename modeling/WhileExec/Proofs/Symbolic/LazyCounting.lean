import Mathlib
import WhileExec.Proofs.Symbolic.Deciding
import WhileExec.Proofs.Symbolic.Reachability

/-!
# The number of results of lazy exploration

Lazy exploration always ends, also where an execution would not. Each way through a statement gives at most one result,
and the ways are counted without running anything: `Stmt.wayCount`. A loop does one iteration after another while its
bound goes down, but loops inside its body start again from the full bound, so the ways through `i` iterations are
the `i`-th power of those through the body.

All ways are taken in a run in which no path is refused that the solver is asked about, and then each of them gives a
result unless something fails. The script of the engine tells what is asked.
-/

namespace WhileExec

mutual

/-- The number of ways through a statement on which no loop makes more than `bound` iterations when it is entered. -/
def Stmt.wayCount (bound : Nat) : Stmt → Nat
  | .ifElse _ yes no => yes.wayCount bound + no.wayCount bound
  | .ifOnly _ yes => yes.wayCount bound + 1
  | .loop _ body _ => ∑ i ∈ Finset.range (bound + 1), body.wayCount bound ^ i
  | .block items => Stmt.wayCountAll bound items
  | _ => 1

def Stmt.wayCountAll (bound : Nat) : List Stmt → Nat
  | [] => 1
  | s :: ss => s.wayCount bound * Stmt.wayCountAll bound ss

end

namespace Symbolic

/-- However it is resumed, the search ends after at most `n` results. -/
inductive Trace.Counts : Nat → Trace Handle → Prop
  | done {n : Nat} {q : Pool} : Counts n (.done q)
  | failed {n : Nat} {fault : Fault} {q : Pool} : Counts n (.failed fault q)
  | yield {n : Nat} {value : Handle} {q : Pool} {resume : Pool → Trace Handle} (resumed : ∀ r, Counts n (resume r)) :
      Counts (n + 1) (.yield value q resume)

/-- What the solver is asked. -/
def Action.asks : Action → List Path
  | ask path => [path]
  | _ => []

namespace Script

variable {α : Type}

/-- What the solver is asked until the script has come to its end, if the pool is left alone at its results. -/
def asked : Script Handle α → Pool → List Path
  | .done _, _ => []
  | .fail _, _ => []
  | .look next, p => (next p).asked p
  | .act action next, p => action.asks ++ next.asked (action.apply p)
  | .yield _ next, p => next.asked p

/-- However it is resumed, the script ends after at most `most` results. Unless a path is refused or something fails
it has given `least`. -/
inductive Counts (solver : Solver) : Nat → Nat → Pool → Script Handle Unit → Prop
  | done {most : Nat} {p : Pool} {u : Unit} : Counts solver 0 most p (.done u)
  | fail {least most : Nat} {p : Pool} {fault : Fault} : Counts solver least most p (.fail fault)
  | look {least most : Nat} {p : Pool} {next : Pool → Script Handle Unit} (seen : Counts solver least most p (next p)) :
      Counts solver least most p (.look next)
  | act {least most : Nat} {p : Pool} {a : Action} {next : Script Handle Unit}
      (rest : Counts solver least most (a.apply p) next) : Counts solver least most p (.act a next)
  | refused {least most : Nat} {p : Pool} {path : Path} {next : Script Handle Unit}
      (refused : solver.unsat path = true) (rest : Counts solver 0 most p next) :
      Counts solver least most p (.act (.ask path) next)
  | yield {least most : Nat} {p : Pool} {value : Handle} {next : Script Handle Unit}
      (resumed : ∀ q, Counts solver (least - 1) most q next) : Counts solver least (most + 1) p (.yield value next)

namespace Counts

variable {solver : Solver} {least most least' most' : Nat} {p : Pool} {x : Script Handle Unit}

theorem mono (counts : x.Counts solver least most p) (lower : least' ≤ least) (higher : most ≤ most') :
    x.Counts solver least' most' p := by
  induction counts generalizing least' most' with
  | done =>
    obtain rfl : least' = 0 := Nat.le_zero.mp lower
    exact .done
  | fail => exact .fail
  | look seen ih => exact .look (ih lower higher)
  | act rest ih => exact .act (ih lower higher)
  | refused refused rest ih => exact .refused refused (ih le_rfl higher)
  | yield resumed ih =>
    obtain ⟨more,rfl⟩ : ∃ more, most' = more + 1 := ⟨most' - 1,by omega⟩
    exact .yield fun q => ih q (by omega) (by omega)

theorem also {y : Script Handle Unit} (counts : x.Counts solver least most p)
    (after : ∀ q, y.Counts solver least' most' q) : (x.also y).Counts solver (least + least') (most + most') p := by
  induction counts with
  | done => exact (after _).mono (by omega) (by omega)
  | fail => exact .fail
  | look seen ih => exact .look ih
  | act rest ih => exact .act ih
  | refused refused rest ih => exact .refused refused (ih.mono (by omega) le_rfl)
  | yield resumed ih =>
    rw [Nat.add_right_comm]
    exact .yield fun q => (ih q).mono (by omega) le_rfl

theorem each {body : Handle → Script Handle Unit} (counts : x.Counts solver least most p)
    (bodies : ∀ h q, (body h).Counts solver least' most' q) :
    (x.each body).Counts solver (least * least') (most * most') p := by
  induction counts with
  | done =>
    rw [Nat.zero_mul]
    exact .done
  | fail => exact .fail
  | look seen ih => exact .look ih
  | act rest ih => exact .act ih
  | refused refused rest ih => exact .refused refused (ih.mono (by omega) le_rfl)
  | @yield least most p value next resumed ih =>
    refine ((bodies value p).also ih).mono ?_ (by rw [Nat.succ_mul,Nat.add_comm])
    cases least with
    | zero => simp
    | succ n => rw [Nat.add_sub_cancel,Nat.succ_mul,Nat.add_comm]

/-- What goes before without results of its own does not matter. -/
theorem lift_bind {x : Script Empty α} {f : α → Script Handle Unit} (rest : ∀ a q, (f a).Counts solver least most q) :
    ((liftM x : Script Handle α) >>= f).Counts solver least most p := by
  induction x generalizing p with
  | done a => exact rest a p
  | fail fault => exact .fail
  | look next ih => exact .look (ih p)
  | act action next ih => exact .act ih
  | yield value => exact value.elim

theorem give (h : Handle) : (give h).Counts solver 1 1 p := .yield fun _ => .done

theorem ifPossible {h : Handle} (counts : ∀ q, x.Counts solver least most q) :
    (ifPossible solver h x).Counts solver least most p := by
  refine .look ?_
  change Counts solver least most p (.act (.ask _) (if solver.unsat (p.state h).path = true then .done () else x))
  split
  · exact .refused ‹_› .done
  · exact .act (counts p)

theorem trace (counts : x.Counts solver least most p) : (x.trace p).Counts most := by
  induction counts with
  | done => exact .done
  | fail => exact .failed
  | look seen ih => exact ih
  | act rest ih => exact ih
  | refused refused rest ih => exact ih
  | yield resumed ih => exact .yield ih

theorem draw_length (counts : x.Counts solver least most p) :
    ((x.trace p).draw none).values.length ≤ most ∧
      ((∀ path ∈ x.asked p, solver.unsat path = false) → ((x.trace p).draw none).fault = none →
        least ≤ ((x.trace p).draw none).values.length) := by
  induction counts with
  | done => simp [Script.trace,Trace.draw]
  | fail => simp [Script.trace,Trace.draw]
  | look seen ih => exact ih
  | act rest ih => exact ⟨ih.1,fun passed => ih.2 fun path member => passed path (List.mem_append_right _ member)⟩
  | @refused least most p path next refused rest ih =>
    refine ⟨ih.1,fun passed => ?_⟩
    rw [passed path (List.mem_append_left _ (by simp [Action.asks]))] at refused
    cases refused
  | @yield least most p value next resumed ih =>
    obtain ⟨few,enough⟩ := ih p
    simp only [Script.trace,Trace.draw,List.length_cons]
    refine ⟨by omega,fun passed unfailing => ?_⟩
    have := enough passed unfailing
    omega

end Counts

/-- From every state the script gives `n` results at most, and all of them unless a path is refused or something
fails. -/
def Counting (solver : Solver) (n : Nat) (script : Handle → Script Handle Unit) : Prop :=
  ∀ h p, (script h).Counts solver n n p

section Lazy

variable {solver : Solver} {cond : Expr} {m n : Nat} {yes no body : Handle → Script Handle Unit}

theorem branch_counting (left : Counting solver m yes) (right : Counting solver n no) :
    Counting solver (m + n) (branch solver cond yes no) := by
  intro h p
  refine .lift_bind fun f _ => .lift_bind fun other _ => .lift_bind fun _ q => ?_
  exact (Counts.ifPossible (left h)).also fun _ => .lift_bind fun _ _ => .ifPossible (right other)

/-- One iteration more goes through the body and then as often as before. -/
theorem unwind_counting (inside : Counting solver n body) (bound : Nat) :
    Counting solver (∑ i ∈ Finset.range (bound + 1), n ^ i) (unwind solver cond body bound) := by
  induction bound with
  | zero =>
    intro h p
    have one : ∑ i ∈ Finset.range (0 + 1), n ^ i = 0 + 1 := by simp
    rw [one]
    refine .lift_bind fun f _ => .lift_bind fun exit _ => .lift_bind fun _ _ => .lift_bind fun _ q => ?_
    exact Counts.done.also fun _ => .ifPossible fun _ => .give exit
  | succ bound ih =>
    intro h p
    rw [geom_sum_succ]
    refine .lift_bind fun f _ => .lift_bind fun exit _ => .lift_bind fun _ _ => .lift_bind fun _ q => ?_
    exact (Counts.ifPossible fun _ => (inside h _).each ih).also fun _ => .ifPossible fun _ => .give exit

end Lazy

theorem lazilyAll_counting {solver : Solver} {bound : Nat} {ss : List Stmt}
    (each : ∀ s ∈ ss, Counting solver (s.wayCount bound) (lazily solver bound s)) :
    Counting solver (Stmt.wayCountAll bound ss) (lazilyAll solver bound ss) := by
  induction ss with
  | nil => exact fun h _ => .give h
  | cons s ss ih =>
    intro h p
    exact (Counts.ifPossible (each s (by simp) h)).each (ih fun s member => each s (by simp [member]))

theorem lazily_counting (solver : Solver) (bound : Nat) (s : Stmt) :
    Counting solver (s.wayCount bound) (lazily solver bound s) := by
  induction s using Stmt.structural with
  | skip => exact fun h _ => .give h
  | printState => exact fun h _ => .lift_bind fun _ _ => .give h
  | assign name rhs => exact fun h _ => .lift_bind fun _ _ => .give h
  | ifElse cond yes no left right => exact branch_counting left right
  | ifOnly cond yes ih => exact branch_counting ih fun h _ => .give h
  | loop cond body inv ih => exact unwind_counting ih bound
  | assert cond =>
    intro h p
    refine .lift_bind fun f _ => .lift_bind fun other _ => .lift_bind fun _ _ => .lift_bind fun empty _ => ?_
    have last : ∀ q, Counts solver 1 1 q (do require h f; ifPossible solver h (give h)) :=
      fun _ => .lift_bind fun _ _ => .ifPossible fun _ => .give h
    cases empty with
    | true => exact last _
    | false => exact .lift_bind fun _ q => last q
  | assume cond => exact fun h _ => .lift_bind fun f _ => .lift_bind fun _ _ => .ifPossible fun _ => .give h
  | havoc names => exact fun h _ => .lift_bind fun _ _ => .give h
  | block items ih => exact lazilyAll_counting ih
  | hollow => exact fun _ _ => .fail

end Script

/-- Lazy exploration ends, whatever the statement, the bound and the state are and whatever is done to the pool between
two results, and there are no more results than ways through the statement. Drawn to the end without a failure, there
are just as many if no path was refused that the solver was asked about on the way. -/
theorem explore_result_count (solver : Solver) (bound : Int) (s : Stmt) (h : Handle) (pool : Pool) :
    (explore solver bound.toNat s h pool).Counts (s.wayCount bound.toNat) ∧
    explore solver bound.toNat s h = (Script.explore solver bound.toNat s h).trace ∧
    ∀ drawn, (explore solver bound.toNat s h).draw none pool = drawn →
      drawn.values.length ≤ s.wayCount bound.toNat ∧
      ((∀ path ∈ (Script.explore solver bound.toNat s h).asked pool, solver.unsat path = false) →
        drawn.fault = none → drawn.values.length = s.wayCount bound.toNat) := by
  have counts : (Script.explore solver bound.toNat s h).Counts solver _ _ pool :=
    .ifPossible (Script.lazily_counting solver bound.toNat s h)
  have same := Script.explore_trace solver bound.toNat s h
  refine ⟨same ▸ counts.trace,same.symm,?_⟩
  rintro drawn rfl
  obtain ⟨few,enough⟩ := counts.draw_length
  rw [same] at few enough
  exact ⟨few,fun passed unfailing => Nat.le_antisymm few (enough passed unfailing)⟩

/-- Goes on as long as small numbers are chosen, and chooses again in between as long as they are large. -/
def choosy : Stmt :=
  .loop (.app .compare "<" [.var "x",.int 3])
    (.block [.havoc ["x"],.loop (.app .compare ">" [.var "x",.int 5]) (.havoc ["x"]) none]) none

/-- With two iterations for every loop there are three ways through the inner loop, and one, three and nine through the
outer one. The solver gives the right answers and refuses none of them. -/
theorem explore_choosy_count :
    choosy.wayCount 2 = 13 ∧ (explore .precise 2 choosy 0 positive).Counts 13 ∧
      ((explore .precise 2 choosy 0).draw none positive).fault = none ∧
      ((explore .precise 2 choosy 0).draw none positive).values.length = 13 := by
  have ways : choosy.wayCount 2 = 13 := by decide
  have ended : ((explore .precise 2 choosy 0).draw none positive).fault = none := by decide +kernel
  have passed : ((Script.explore .precise 2 choosy 0).asked positive).all (!Solver.precise.unsat ·) = true := by
    decide +kernel
  obtain ⟨counts,-,each⟩ := explore_result_count .precise 2 choosy 0 positive
  have count := (each _ rfl).2 (by simpa using passed) ended
  rw [show Int.toNat 2 = 2 from rfl,ways] at counts count
  exact ⟨ways,counts,ended,count⟩

end Symbolic

end WhileExec
