import Mathlib
import WhileExec.Proofs.Symbolic.Freshness

/-!
# Reachable pools

The pools that can come about: states are made, forked, required something of and marked, programs are explored
from them in either way, and lazy explorations are drawn from in any order, also while others are under way. All this
can be recorded action by action, so every such pool is in scope.
-/

namespace WhileExec.Symbolic

/-- A pool, and the searches that have been begun on it and not come to an end. A solver may answer differently
each time it is asked, but simplifies without new symbols. -/
inductive Reachable : Pool → List (Search Handle) → Prop
  | start : Reachable {} []
  | new {pool live} (before : Reachable pool live) : Reachable (Explore.after (.new {}) pool) live
  | fork {pool live} (before : Reachable pool live) (h : Handle) : Reachable (Explore.after (.fork h) pool) live
  | require {pool live} (before : Reachable pool live) (h : Handle) {f : Formula} (made : f.bound ≤ pool.symbols) :
      Reachable (Explore.after (.require h f) pool) live
  | markFailed {pool live} (before : Reachable pool live) (h : Handle) :
      Reachable (Explore.after (.markFailed h) pool) live
  | print {pool live} (before : Reachable pool live) (text : String) : Reachable { pool with out := text } live
  | eager {pool live} (before : Reachable pool live) {solver : Solver} (keeps : solver.KeepsSymbols) (s : Stmt)
      (h : Handle) : Reachable (Explore.after (eager solver s h) pool) live
  | explore {pool live} (before : Reachable pool live) (solver : Solver) (bound : Nat) (s : Stmt) (h : Handle) :
      Reachable pool (explore solver bound s h :: live)
  | reorder {pool live same} (before : Reachable pool live) (perm : live.Perm same) : Reachable pool same
  | yield {pool q live search value resume} (before : Reachable pool (search :: live))
      (drawn : search pool = .yield value q resume) : Reachable q (resume :: live)
  | done {pool q live search} (before : Reachable pool (search :: live)) (drawn : search pool = .done q) :
      Reachable q live
  | failed {pool q live search fault} (before : Reachable pool (search :: live))
      (drawn : search pool = .failed fault q) : Reachable q live

theorem Reachable.recorded {pool : Pool} {live : List (Search Handle)} (reachable : Reachable pool live) :
    ∃ as entries, Recorded as pool entries ∧ live = entries.map Prod.fst := by
  induction reachable with
  | start => exact ⟨_,_,.start,rfl⟩
  | new before ih =>
    obtain ⟨as,entries,recorded,same⟩ := ih
    exact ⟨_,_,recorded.act .new trivial,same⟩
  | fork before h ih =>
    obtain ⟨as,entries,recorded,same⟩ := ih
    exact ⟨_,_,recorded.act (.fork h) trivial,same⟩
  | require before h made ih =>
    obtain ⟨as,entries,recorded,same⟩ := ih
    exact ⟨_,_,recorded.act (.require h _) made,same⟩
  | markFailed before h ih =>
    obtain ⟨as,entries,recorded,same⟩ := ih
    exact ⟨_,_,recorded.act (.markFailed h) trivial,same⟩
  | print before text ih =>
    obtain ⟨as,entries,recorded,same⟩ := ih
    exact ⟨_,_,recorded.act (.output text) trivial,same⟩
  | eager before keeps s h ih =>
    obtain ⟨as,entries,recorded,same⟩ := ih
    exact ⟨_,_,recorded.eager keeps s h,same⟩
  | explore before solver bound s h ih =>
    obtain ⟨as,entries,recorded,rfl⟩ := ih
    exact ⟨_,_,recorded.explore solver bound s h,rfl⟩
  | @reorder pool live same before perm ih =>
    obtain ⟨as,entries,recorded,rfl⟩ := ih
    have paired := congrFun (congrFun (List.eq_map_comp_perm Prod.fst) same) entries
    obtain ⟨order,rfl,moved⟩ := paired.mpr perm.symm
    exact ⟨_,_,recorded.reorder moved.symm,rfl⟩
  | yield before drawn ih =>
    obtain ⟨as,entries,recorded,same⟩ := ih
    obtain ⟨⟨search,script⟩,rest,rfl,rfl,rfl⟩ := List.map_eq_cons_iff.mp same.symm
    exact ⟨_,_,recorded.yield drawn,rfl⟩
  | done before drawn ih =>
    obtain ⟨as,entries,recorded,same⟩ := ih
    obtain ⟨⟨search,script⟩,rest,rfl,rfl,rfl⟩ := List.map_eq_cons_iff.mp same.symm
    exact ⟨_,_,recorded.done drawn,rfl⟩
  | failed before drawn ih =>
    obtain ⟨as,entries,recorded,same⟩ := ih
    obtain ⟨⟨search,script⟩,rest,rfl,rfl,rfl⟩ := List.map_eq_cons_iff.mp same.symm
    exact ⟨_,_,recorded.failed drawn,rfl⟩

/-- The pool is in scope, and has a record with all searches under way. -/
structure Settled (pool : Pool) (live : List (Search Handle)) : Prop where
  inScope : pool.Scoped
  recorded : ∃ as entries, Recorded as pool entries ∧ live = entries.map Prod.fst

theorem Reachable.settled {pool : Pool} {live : List (Search Handle)} (reachable : Reachable pool live) :
    Settled pool live := by
  obtain ⟨as,entries,recorded,same⟩ := reachable.recorded
  exact ⟨recorded.kept.inScope,as,entries,recorded,same⟩

/-- One state, in which a variable has some positive value. -/
def positive : Pool :=
  Explore.after (eager .undecided (.block [.havoc ["x"],.assume (.app .compare ">" [.var "x",.int 0])]) 0)
    (Explore.after (.new {}) {})

theorem positive_reachable : Reachable positive [] := Reachable.start.new.eager Solver.undecided_keepsSymbols _ _

end WhileExec.Symbolic
