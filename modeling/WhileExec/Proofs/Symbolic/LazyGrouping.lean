import Mathlib
import WhileExec.Proofs.Symbolic.EngineAgreement

/-!
# Blocks within blocks

Whether the statements of a block stand in it one by one or in two smaller blocks makes no difference to lazy
exploration: it is the same search, but for one more question whether a state is possible, asked where the first of
the smaller blocks has given a result. The statements of the second one would ask it anyway. If there are none, the
answer is known: all results of an exploration are possible.
-/

namespace WhileExec.Symbolic

namespace Trace

variable {α β γ : Type}

theorem andThen_assoc (t : Trace α) (second third : Pool → Trace α) :
    (t.andThen second).andThen third = t.andThen fun p => (second p).andThen third := by
  induction t with
  | done p => rfl
  | failed fault p => rfl
  | yield value p resume ih => simp only [andThen,ih]

theorem andThen_bind (t : Trace α) (second : Pool → Trace α) (next : α → Pool → Trace β) :
    (t.andThen second).bind next = (t.bind next).andThen fun p => (second p).bind next := by
  induction t with
  | done p => rfl
  | failed fault p => rfl
  | yield value p resume ih => simp only [andThen,bind,ih,andThen_assoc]

theorem bind_assoc (t : Trace α) (next : α → Pool → Trace β) (last : β → Pool → Trace γ) :
    (t.bind next).bind last = t.bind fun a p => (next a p).bind last := by
  induction t with
  | done p => rfl
  | failed fault p => rfl
  | yield value p resume ih => simp only [bind,andThen_bind,ih]

theorem bind_yield (t : Trace α) : (t.bind fun a p => .yield a p .done) = t := by
  induction t with
  | done p => rfl
  | failed fault p => rfl
  | yield value p resume ih => simp only [bind,andThen,ih]

end Trace

namespace Search

variable {α β : Type}

theorem bind_apply (search : Search α) (next : α → Search β) (p : Pool) :
    (search >>= next) p = (search p).bind next := rfl

instance : LawfulMonad Search :=
  LawfulMonad.mk' Search (fun search => funext fun p => (search p).bind_yield)
    (fun a next => funext fun p => (next a p).andThen_done)
    (fun search next last => funext fun p => (search p).bind_assoc next last)

end Search

namespace Lazy

variable {solver : Solver} {h : Handle}

theorem ifPossible_bind (search : Search Handle) (next : Handle → Search Handle) :
    ifPossible solver h (search >>= next) = ifPossible solver h search >>= next := by
  funext p
  rw [Search.bind_apply,ifPossible_apply,ifPossible_apply]
  split <;> rfl

theorem ifPossible_twice (search : Search Handle) :
    ifPossible solver h (ifPossible solver h search) = ifPossible solver h search := by
  funext p
  simp only [ifPossible_apply]
  split <;> rfl

/-- Asking whether results are possible makes no difference where they all are. -/
theorem draws_possible {t : Trace Handle}
    (passes : ∀ ts whole q, t.Draws ts whole q → ∀ taken ∈ ts, solver.unsat taken.state.path = false) :
    (∀ ts whole q, (t.bind fun o => ifPossible solver o (pure o)).Draws ts whole q ↔ t.Draws ts whole q) ∧
    ∀ wanted, (t.bind fun o => ifPossible solver o (pure o)).draw wanted = t.draw wanted := by
  induction t with
  | done q => exact ⟨fun _ _ _ => Iff.rfl,fun _ => rfl⟩
  | failed fault q => exact ⟨fun _ _ _ => Iff.rfl,fun _ => rfl⟩
  | yield value p resume ih =>
    have passed : solver.unsat (p.state value).path = false := passes _ _ _ .last ⟨value,p,p⟩ (by simp)
    have later : ∀ r, p.Grows {value} r → ∀ ts whole q, (resume r).Draws ts whole q →
        ∀ taken ∈ ts, solver.unsat taken.state.path = false := by
      intro r careful ts whole q rest taken member
      exact passes _ _ _ (.next careful rest) taken (List.mem_cons_of_mem _ member)
    have step : ((Trace.yield value p resume).bind fun o => ifPossible solver o (pure o)) =
        .yield value p fun r => (resume r).bind fun o => ifPossible solver o (pure o) := by
      change (ifPossible solver value (pure value) p).andThen _ = _
      rw [ifPossible_apply,passed]
      rfl
    rw [step]
    constructor
    · intro ts whole q
      constructor
      · intro draws
        cases draws with
        | last => exact .last
        | next careful rest => exact .next careful (((ih _ (later _ careful)).1 _ _ _).mp rest)
      · intro draws
        cases draws with
        | last => exact .last
        | next careful rest => exact .next careful (((ih _ (later _ careful)).1 _ _ _).mpr rest)
    · intro wanted
      have same := (ih p (later p (.refl _ p))).2
      rcases wanted with _ | _ | _ | n <;> simp only [Trace.draw,same]

end Lazy

open Lazy

section Blocks

variable (solver : Solver) (bound : Nat) (h : Handle) (xs ys : List Stmt)

theorem lazilyAll_append :
    lazilyAll solver bound (xs ++ ys) h = lazilyAll solver bound xs h >>= lazilyAll solver bound ys := by
  induction xs generalizing h with
  | nil => exact (pure_bind h _).symm
  | cons x xs ih =>
    rw [List.cons_append,lazilyAll_cons,lazilyAll_cons,bind_assoc]
    congr 1
    funext o
    exact ih o

theorem explore_append :
    explore solver bound (.block (xs ++ ys)) h =
      explore solver bound (.block xs) h >>= lazilyAll solver bound ys := by
  rw [explore,explore,lazily,lazily,lazilyAll_append,ifPossible_bind]

theorem explore_pair :
    explore solver bound (.block [.block xs,.block ys]) h =
      explore solver bound (.block xs) h >>= explore solver bound (.block ys) := by
  have second : ∀ o, lazilyAll solver bound [.block ys] o = explore solver bound (.block ys) o := fun o => by
    rw [lazilyAll_cons]
    exact bind_pure _
  rw [explore,lazily,lazilyAll_cons,ifPossible_bind,ifPossible_twice,funext second]
  rfl

/-- The statements of a block ask by themselves whether the state is possible. -/
theorem explore_block_cons (y : Stmt) :
    explore solver bound (.block (y :: ys)) h = lazilyAll solver bound (y :: ys) h := by
  rw [explore,lazily,lazilyAll_cons,ifPossible_bind,ifPossible_twice]

end Blocks

/-- The statements of a block may be put into two smaller blocks. The same is drawn from the search, however many
results are wanted and whatever becomes of those that were taken: the same states under the same handles, the same
numbers of new symbols, the same text and the same failure, if there is one. -/
theorem explore_groups {solver : Solver} (exact : solver.Exact) {pool : Pool} {live : List (Search Handle)}
    (reachable : Reachable pool live) {h : Handle} (valid : h < pool.states.size) (xs ys : List Stmt) (bound : Int) :
    (∀ wanted, (explore solver bound.toNat (.block (xs ++ ys)) h).draw wanted pool =
      (explore solver bound.toNat (.block [.block xs,.block ys]) h).draw wanted pool) ∧
    ∀ ts whole q, (explore solver bound.toNat (.block (xs ++ ys)) h pool).Draws ts whole q ↔
      (explore solver bound.toNat (.block [.block xs,.block ys]) h pool).Draws ts whole q := by
  rw [explore_append,explore_pair]
  cases ys with
  | cons y ys =>
    have same : explore solver bound.toNat (.block (y :: ys)) = lazilyAll solver bound.toNat (y :: ys) :=
      funext fun o => explore_block_cons solver bound.toNat o ys y
    rw [same]
    exact ⟨fun _ => rfl,fun _ _ _ => Iff.rfl⟩
  | nil =>
    have first : (explore solver bound.toNat (.block xs) h >>= lazilyAll solver bound.toNat []) =
        explore solver bound.toNat (.block xs) h := bind_pure _
    have second : explore solver bound.toNat (.block []) = fun o => ifPossible solver o (pure o) := rfl
    have passes : ∀ ts whole q, (explore solver bound.toNat (.block xs) h pool).Draws ts whole q →
        ∀ taken ∈ ts, solver.unsat taken.state.path = false := by
      intro ts whole q draws taken member
      have parts := (lazily_partitions exact bound.toNat (.block xs)).ifPossible exact h pool ts whole q valid draws
      obtain ⟨i,store,represents⟩ := parts.possible (reachable.settled.inScope h) taken member
      exact exact.passes represents.allows.path
    obtain ⟨drawings,drawn⟩ := draws_possible passes
    rw [first,second]
    refine ⟨fun wanted => ?_,fun ts whole q => (drawings ts whole q).symm⟩
    rcases wanted with _ | _ | n
    · exact (drawn none).symm
    · rfl
    · exact (drawn (some (n + 1))).symm

/-- Once with nothing in the second of the smaller blocks, and once with a statement that prints both results. -/
theorem explore_groups_sizes :
    ∃ solver : Solver, solver.Exact ∧ ∃ drawn printed,
      (explore solver 1 (.block ([.skip,sizes] ++ [])) 0).draw none positive = drawn ∧
      (explore solver 1 (.block [.block [.skip,sizes],.block []]) 0).draw none positive = drawn ∧
      drawn.values = [0,1] ∧ drawn.pool.out.isEmpty = true ∧
      (explore solver 1 (.block ([.skip,sizes] ++ [.printState])) 0).draw none positive = printed ∧
      (explore solver 1 (.block [.block [.skip,sizes],.block [.printState]]) 0).draw none positive = printed ∧
      printed.values = [0,1] ∧ printed.pool.symbols = 3 ∧ printed.pool.out.isEmpty = false := by
  have exact := Solver.precise_exact
  have valid : 0 < positive.states.size := by decide +kernel
  have same (ys : List Stmt) := (explore_groups exact positive_reachable valid [.skip,sizes] ys 1).1 none
  refine ⟨_,exact,_,_,rfl,(same []).symm,?_,?_,rfl,(same [.printState]).symm,?_,?_,?_⟩
  · decide +kernel
  · decide +kernel
  · decide +kernel
  · decide +kernel
  · decide +kernel

end WhileExec.Symbolic
