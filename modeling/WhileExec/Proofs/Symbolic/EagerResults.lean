import Mathlib
import WhileExec.Proofs.Symbolic.EagerCoverage
import WhileExec.Proofs.Symbolic.EagerSoundness
import WhileExec.Proofs.Symbolic.Reachability

/-!
# Results of eager exploration

Which executions eager exploration covers, and what its results are. An execution is covered if it is the history of
a result, and of the executions with few iterations and without havoc no other is. A result has gone through the
history of a result; this is an execution unless the state was taken out of a loop before the condition failed.
-/

namespace WhileExec.Symbolic

open Interpretation (Agrees)

section Results

variable {solver : Solver} {pool q : Pool} {h : Handle} {s : Stmt} {results : List Handle} {i : Interpretation}

/-- Whether an action ends, with a value and a pool that pass a test. -/
def Explore.passes {α : Type} (action : Explore α) (p : Pool) (test : α → Pool → Bool) : Bool :=
  match action p with
  | .ok a q => test a q
  | .error _ _ => false

theorem Explore.ok_of_passes {α : Type} {action : Explore α} {p : Pool} {test : α → Pool → Bool}
    (passed : action.passes p test = true) : ∃ a q, action p = .ok a q ∧ test a q = true := by
  unfold Explore.passes at passed
  split at passed
  next a q ok => exact ⟨a,q,ok,passed⟩
  next => cases passed

/-- Some result has the store by an interpretation that agrees on the symbols there were. -/
def Covered (symbols : Nat) (i : Interpretation) (results : List Handle) (q : Pool) (store : Store) : Prop :=
  ∃ o ∈ results, ∃ j, Agrees symbols i j ∧ (q.state o).path.holds j = true ∧
    store.Equiv (j.store (q.state o).env)

theorem covered_of_given (sound : solver.Sound) (inScope : (pool.state h).Scoped pool.symbols)
    (valid : h < pool.states.size) (typed : s.wellTyped = true) (free : s.invariantFree = true) {bound : Nat}
    (few : bound < Eager.rounds) (holds : (pool.state h).path.holds i = true)
    (ok : eager solver s h pool = .ok results q) {final : Store}
    (given : s.Given (.within bound) (i.store (pool.state h).env) final) : Covered pool.symbols i results q final := by
  have represents : pool.Represents h i (i.store (pool.state h).env) := ⟨valid,inScope,holds,.rfl⟩
  obtain ⟨o,member,j,agree,reached⟩ :=
    eager_finds sound few s typed free h pool results q i _ final ok represents given
  exact ⟨o,member,j,agree,reached.allows.path,reached.allows.store⟩

/-- A result that an interpretation admits has a history from every store that the state allowed before. -/
theorem history_of_result (sound : solver.Sound) (valid : h < pool.states.size) (typed : s.wellTyped = true)
    (free : s.invariantFree = true) (ok : eager solver s h pool = .ok results q) {o : Handle} (member : o ∈ results)
    (holds : (q.state o).path.holds i = true) :
    (pool.state h).path.holds i = true ∧ ∀ store, (pool.state h).Allows i store →
      ∃ final, s.Given .anyhow store final ∧ final.Equiv (i.store (q.state o).env) := by
  obtain ⟨before,follows⟩ := eager_justifies sound s typed free h pool results q valid ok o member i holds
  refine ⟨before,fun store allows => ?_⟩
  obtain ⟨final,given,after⟩ := follows store allows
  exact ⟨final,given,after.store⟩

theorem given_of_covered (sound : solver.Sound) (inScope : (pool.state h).Scoped pool.symbols)
    (valid : h < pool.states.size) (typed : s.wellTyped = true) (free : s.invariantFree = true)
    (holds : (pool.state h).path.holds i = true) (ok : eager solver s h pool = .ok results q) {store : Store}
    (covered : Covered pool.symbols i results q store) :
    ∃ final, s.Given .anyhow (i.store (pool.state h).env) final ∧ final.Equiv store := by
  obtain ⟨o,member,j,agree,admitted,same⟩ := covered
  have allows : (pool.state h).Allows i (i.store (pool.state h).env) := ⟨holds,.rfl⟩
  obtain ⟨final,given,after⟩ :=
    (history_of_result sound valid typed free ok member admitted).2 _ (allows.congr inScope agree)
  exact ⟨final,given,after.trans same.symm⟩

/-- A branch without an alternative covers nothing from where its condition fails. -/
theorem not_covered_ifOnly {cond : Expr} {yes : Stmt} (sound : solver.Sound)
    (inScope : (pool.state h).Scoped pool.symbols) (valid : h < pool.states.size)
    (typed : (Stmt.ifOnly cond yes).wellTyped = true) (free : (Stmt.ifOnly cond yes).invariantFree = true)
    (holds : (pool.state h).path.holds i = true) (ok : eager solver (.ifOnly cond yes) h pool = .ok results q)
    (fails : cond.Decides (i.store (pool.state h).env) false) (store : Store) :
    ¬ Covered pool.symbols i results q store := by
  intro covered
  obtain ⟨final,given,-⟩ := given_of_covered sound inScope valid typed free holds ok covered
  cases given.1.unique fails

/-- An execution in which no loop makes as many iterations as a loop is unrolled for is covered if it is the history
of a result. If it is covered then its final store is that of such a history, which for a statement without havoc is
the execution itself. -/
theorem eager_covers_histories (sound : solver.Sound) {live : List (Search Handle)} (reachable : Reachable pool live)
    (valid : h < pool.states.size) (typed : s.wellTyped = true) (free : s.invariantFree = true) {bound : Nat}
    (few : bound < Eager.rounds) (holds : (pool.state h).path.holds i = true) {text : String} {final : Machine}
    (ends : s.exec bound ⟨i.store (pool.state h).env,text⟩ = .ok () final)
    (ok : eager solver s h pool = .ok results q) :
    (s.Given (.within bound) (i.store (pool.state h).env) final.store →
        Covered pool.symbols i results q final.store) ∧
      (Covered pool.symbols i results q final.store →
        (∃ same, s.Given .anyhow (i.store (pool.state h).env) same ∧ same.Equiv final.store) ∧
        (s.havocFree = true → s.filled = true →
          s.Given (.within bound) (i.store (pool.state h).env) final.store)) := by
  have inScope := reachable.settled.inScope h
  refine ⟨covered_of_given sound inScope valid typed free few holds ok,fun covered => ?_⟩
  obtain ⟨same,given,equal⟩ := given_of_covered sound inScope valid typed free holds ok covered
  refine ⟨⟨same,given,equal⟩,fun still filled => ?_⟩
  have run := Stmt.runs_of_exec bound s _ final ends
  obtain ⟨rfl,proper⟩ := Stmt.given_determined few s filled still given run
  exact proper

/-- Takes five off if there are more, and counts down to two. -/
def countdown : Stmt :=
  .block [
    .ifElse (.app .compare ">" [.var "x",.int 5]) (.assign "y" (.app .arith "-" [.var "x",.int 5]))
      (.assign "y" (.var "x")),
    .loop (.app .compare ">" [.var "y",.int 2]) (.assign "y" (.app .arith "-" [.var "y",.int 1])) none]

/-- All symbols are eight. -/
def eight : Interpretation := ⟨fun _ => 8,fun _ => 0⟩

/-- The first way of the branch is taken, and the loop stands last. All paths that are asked about are possible. -/
theorem eager_covers_countdown :
    ∃ final results q, countdown.exec 1 ⟨eight.store (positive.state 0).env,""⟩ = .ok () final ∧
      eager .undecided countdown 0 positive = .ok results q ∧
      countdown.Given (.within 1) (eight.store (positive.state 0).env) final.store ∧
      Covered positive.symbols eight results q final.store := by
  have passed : (eager .undecided countdown 0).passes positive (fun _ _ => true) = true := by decide +kernel
  obtain ⟨results,q,ok,-⟩ := Explore.ok_of_passes passed
  have given : countdown.Given (.within 1) (eight.store (positive.state 0).env)
      (((eight.store (positive.state 0).env).insert "y" (.int 3)).insert "y" (.int 2)) :=
    ⟨_,⟨⟨_,rfl,rfl⟩,_,rfl,rfl⟩,.inr ⟨⟨_,rfl,rfl⟩,_,⟨_,rfl,rfl⟩,⟨_,rfl,rfl⟩,rfl⟩⟩
  refine ⟨_,results,q,rfl,ok,given,?_⟩
  exact (eager_covers_histories Solver.undecided_sound positive_reachable (by decide +kernel) (by decide) (by decide)
    (by decide) (by decide +kernel) rfl ok).1 given

/-- Tells the sign of a chosen number, and has one more statement behind that. -/
def signed : Stmt :=
  .block [
    .havoc ["x"],
    .ifElse (.app .compare ">" [.var "x",.int 0]) (.assign "y" (.int 1)) (.assign "y" (.int 2)),
    .skip]

/-- An execution that takes the second way of a branch is lost behind it. -/
theorem eager_loses_second_way :
    ∃ final results q, signed.exec 0 ⟨eight.store ((Explore.after (.new {}) {}).state 0).env,""⟩ = .ok () final ∧
      eager .undecided signed 0 (Explore.after (.new {}) {}) = .ok results q ∧ ¬ Covered 0 eight results q final.store := by
  have passed : (eager .undecided signed 0).passes (Explore.after (.new {}) {}) (fun _ _ => true) = true := by
    decide +kernel
  obtain ⟨results,q,ok,-⟩ := Explore.ok_of_passes passed
  refine ⟨_,results,q,rfl,ok,fun covered => ?_⟩
  obtain ⟨final,⟨mid,-,next,⟨-,v,value,rfl⟩,rfl⟩,equal⟩ := given_of_covered Solver.undecided_sound
    (Reachable.start.new.settled.inScope 0) (by decide +kernel) (by decide) (by decide) (by decide +kernel) ok covered
  cases value
  have second := equal.getElem?_eq (k := "y")
  simp at second

/-- Every result has gone through the history of a result. This is an execution if each loop was left with its
condition failing, as it is in orderly statements. Where the execution of a statement without havoc is short, it is
the history. -/
theorem eager_result_history (sound : solver.Sound) (valid : h < pool.states.size) (typed : s.wellTyped = true)
    (free : s.invariantFree = true) (ok : eager solver s h pool = .ok results q) {o : Handle} (member : o ∈ results)
    (holds : (q.state o).path.holds i = true) :
    (pool.state h).path.holds i = true ∧
      ∃ final, final.Equiv (i.store (q.state o).env) ∧ s.Given .anyhow (i.store (pool.state h).env) final ∧
        (s.Given .finished (i.store (pool.state h).env) final ∨ s.orderly = true →
          ∃ limit, s.Runs limit (i.store (pool.state h).env) final) ∧
        (s.havocFree = true → s.filled = true → ∀ bound < Eager.rounds, ∀ text ran,
          s.exec bound ⟨i.store (pool.state h).env,text⟩ = .ok () ran → ran.store = final) := by
  obtain ⟨before,follows⟩ := history_of_result sound valid typed free ok member holds
  obtain ⟨final,given,after⟩ := follows _ ⟨before,.rfl⟩
  refine ⟨before,final,after,given,?_,fun still filled bound few text ran ends => ?_⟩
  · rintro (finished | orderly)
    · exact Stmt.given_runs s finished
    · exact Stmt.given_runs s (Stmt.orderly_finished s orderly given)
  · exact (Stmt.given_determined few s filled still given (Stmt.runs_of_exec bound s _ ran ends)).1.symm

/-- The variable is eight, and three and two are what is counted. -/
def counted : Interpretation :=
  ⟨fun s => match s.index with | 0 => 8 | 1 => 3 | _ => 2,fun _ => 0⟩

theorem eager_countdown_history :
    ∃ results q, eager .undecided countdown 0 positive = .ok results q ∧ 3 ∈ results ∧
      (q.state 3).path.holds counted = true ∧ (positive.state 0).path.holds counted = true ∧
      ∃ final, final.Equiv (counted.store (q.state 3).env) ∧
        ∃ limit, countdown.Runs limit (counted.store (positive.state 0).env) final := by
  have passed : (eager .undecided countdown 0).passes positive
      (fun results q => 3 ∈ results && (q.state 3).path.holds counted) = true := by decide +kernel
  obtain ⟨results,q,ok,passed⟩ := Explore.ok_of_passes passed
  simp only [Bool.and_eq_true,decide_eq_true_eq] at passed
  obtain ⟨before,final,after,-,runs,-⟩ := eager_result_history Solver.undecided_sound (by decide +kernel) (by decide)
    (by decide) ok passed.1 passed.2
  exact ⟨results,q,ok,passed.1,passed.2,before,final,after,runs (.inr (by decide))⟩

/-- Counts up to twenty and tells how far it came. -/
def counting : Stmt :=
  .block [
    .loop (.app .compare "<" [.var "x",.int 20]) (.assign "x" (.app .arith "+" [.var "x",.int 1])) none,
    .assign "y" (.var "x")]

/-- The variable starts at one and is eleven after ten iterations. -/
def upToEleven : Interpretation := ⟨fun s => min (s.index + 1) 11,fun _ => 0⟩

/-- A state that was taken out of a loop after ten iterations is given behind it. No execution ends there. -/
theorem eager_breaks_off_loop :
    ∃ results q, eager .undecided counting 0 positive = .ok results q ∧ 0 ∈ results ∧
      (q.state 0).path.holds upToEleven = true ∧
      ∀ limit final, counting.Runs limit (upToEleven.store (positive.state 0).env) final →
        ¬ final.Equiv (upToEleven.store (q.state 0).env) := by
  have passed : (eager .undecided counting 0).passes positive (fun results q => 0 ∈ results &&
      (q.state 0).path.holds upToEleven && (upToEleven.store (q.state 0).env)["x"]? == some (.int 11)) = true := by
    decide +kernel
  obtain ⟨results,q,ok,passed⟩ := Explore.ok_of_passes passed
  simp only [Bool.and_eq_true,decide_eq_true_eq,beq_iff_eq] at passed
  obtain ⟨⟨member,holds⟩,reached⟩ := passed
  refine ⟨results,q,ok,member,holds,fun limit final run equal => ?_⟩
  obtain ⟨mid,looped,next,⟨v,value,rfl⟩,rfl⟩ := run
  have eleven : mid["x"]? = some (.int 11) := by
    rw [← reached,← equal.getElem?_eq,Std.TreeMap.getElem?_insert]
    simp
  have holds : (Expr.app .compare "<" [.var "x",.int 20]).Decides mid true :=
    ⟨.bool true,by simp [Expr.eval,Expr.evalAll,eleven]; rfl,rfl⟩
  cases holds.unique looped.fails

end Results

end WhileExec.Symbolic
