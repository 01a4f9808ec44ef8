import Mathlib
import WhileExec.Proofs.Symbolic.EagerSteps
import WhileExec.Proofs.Symbolic.Histories

/-!
# Coverage of eager exploration

Every history that leaves its loops within the limit is found: one of the results represents the final store. The
entered state represents what its own history leads to.

In a round the state that stands for an execution may be taken up more than once, if a body gives it more than
once. Each time it goes one iteration further, so that the loop is left no later than in the round that comes after
the last iteration.
-/

namespace WhileExec.Symbolic

open Interpretation (Agrees)

namespace Eager

variable {solver : Solver} {cond : Expr} {explore body : Handle → Explore (List Handle)}
  {R : Store → Store → Prop} {p q : Pool} {h o : Handle} {i j : Interpretation} {m n : Nat} {store final : Store}

/-- The state represents the store by an interpretation that agrees on the symbols there were. -/
def Reached (n : Nat) (i : Interpretation) (final : Store) (q : Pool) (o : Handle) : Prop :=
  ∃ j, Agrees n i j ∧ q.Represents o j final

theorem Reached.grows {owned : Set Handle} (reached : Reached n i final p o) (grows : p.Grows owned q)
    (free : o ∉ owned) : Reached n i final q o := by
  obtain ⟨j,agree,represents⟩ := reached
  exact ⟨j,agree,represents.grows grows free⟩

theorem Reached.before (reached : Reached m j final q o) (agree : Agrees n i j) (le : n ≤ m) :
    Reached n i final q o := by
  obtain ⟨k,further,represents⟩ := reached
  exact ⟨k,agree.trans further le,represents⟩

def Finds (explore : Handle → Explore (List Handle)) (R : Store → Store → Prop) : Prop :=
  ∀ h p results q i store final, explore h p = .ok results q → p.Represents h i store → R store final →
    ∃ o ∈ results, Reached p.symbols i final q o

def Takes (explore : Handle → Explore (List Handle)) (R : Store → Store → Prop) : Prop :=
  ∀ h p results q i store final, explore h p = .ok results q → p.Represents h i store → R store final →
    Reached p.symbols i final q h

theorem attempt_represents (sound : solver.Sound) (represents : p.Represents h i store) :
    attempt solver explore h p = explore h p := by
  rw [attempt_apply,represents.possible sound]
  simp

theorem possible_represents (sound : solver.Sound) (represents : p.Represents h i store) :
    possible solver p h = [h] := by
  rw [possible,represents.possible sound]
  simp

/-- A state that stands for an execution leaves the loop, or does an iteration. -/
theorem advance_finds (sound : solver.Sound) (typed : cond.isCondition = true) (keeping : Keeping body)
    (finds : Finds body R) {left entered : List Handle} (ok : advance solver cond body h p = .ok (left,entered) q)
    (represents : p.Represents h i store) (run : Iterates cond R n store final) :
    (∃ o ∈ left, Reached p.symbols i final q o) ∨
      ∃ m, n = m + 1 ∧ ∃ k ∈ entered, ∃ mid, Reached p.symbols i mid q k ∧ Iterates cond R m mid final := by
  obtain ⟨f,known,attempted,rfl⟩ := advance_ok ok
  have decided := Pool.formula_decides known typed represents.allows.store
  have inScope := Pool.formula_bound known represents.inScope
  rcases run.first with ⟨fails,rfl⟩ | ⟨m,rfl,holds,mid,first,rest⟩
  · have exit := represents.split_false inScope (decided.unique fails)
    have older := p.lt_split f represents.valid
    have grows := (keeping.attempt older attempted).grows
    rw [possible_represents sound exit]
    exact .inl ⟨p.states.size,by simp,i,.refl _ i,exit.grows grows represents.valid.ne'⟩
  · have entry := represents.split_true inScope (decided.unique holds)
    rw [attempt_represents sound entry] at attempted
    obtain ⟨k,member,reached⟩ := finds h _ entered q i store mid attempted entry first
    exact .inr ⟨m,rfl,k,member,mid,reached,rest⟩

/-- A state in a round that stands for an execution: it leaves the loop, or it goes on to one of the entered states
with fewer iterations to do. -/
theorem round_finds (sound : solver.Sound) (typed : cond.isCondition = true) (keeping : Keeping body)
    (finds : Finds body R) {hs left entered : List Handle} (valid : ∀ k ∈ hs, k < p.states.size)
    (ok : round solver cond body hs p = .ok (left,entered) q) {r : Handle} (represents : p.Represents r i store)
    (run : Iterates cond R n store final) :
    (∃ o ∈ left, Reached p.symbols i final q o) ∨
      ∃ k mid m, (k ∈ entered ∨ (k = r ∧ r ∉ hs)) ∧ Reached p.symbols i mid q k ∧ Iterates cond R m mid final ∧
        m ≤ n ∧ (r ∈ hs → m < n) := by
  induction hs generalizing p left entered r i store n with
  | nil =>
    cases ok
    exact .inr ⟨r,store,n,.inr ⟨rfl,by simp⟩,⟨i,.refl _ i,represents⟩,run,le_rfl,by simp⟩
  | cons h hs ih =>
    obtain ⟨left₁,entered₁,mid,left₂,entered₂,advanced,rounded,one,later,rfl,rfl⟩ := round_cons keeping valid ok
    have older := valid h (by simp)
    have grows := one.tame.grows
    by_cases same : r = h
    · subst same
      rcases advance_finds sound typed keeping finds advanced represents run with
        ⟨o,member,reached⟩ | ⟨m,rfl,k,member,next,⟨j,agree,reached⟩,rest⟩
      · have outside : o ∉ {k | k ∈ hs} := fun inside =>
          absurd (valid o (List.mem_cons_of_mem r inside)) (Nat.not_lt.mpr (one.new o member))
        have two := round_round keeping later rounded
        exact .inl ⟨o,by simp [member],reached.grows two.tame.grows outside⟩
      · rcases ih later rounded reached rest with ⟨o,found,reached⟩ | ⟨k',next,m',place,reached,rest,le,-⟩
        · exact .inl ⟨o,by simp [found],reached.before agree grows.symbols⟩
        · refine .inr ⟨k',next,m',.inl ?_,reached.before agree grows.symbols,rest,by omega,fun _ => by omega⟩
          rcases place with found | ⟨rfl,-⟩
          · simp [found]
          · simp [member]
    · rcases ih later rounded (represents.grows grows same) run with ⟨o,member,reached⟩ | ⟨k,next,m,place,reached,rest,le,less⟩
      · exact .inl ⟨o,by simp [member],reached.before (.refl _ i) grows.symbols⟩
      · refine .inr ⟨k,next,m,?_,reached.before (.refl _ i) grows.symbols,rest,le,fun member => less ?_⟩
        · rcases place with member | ⟨rfl,outside⟩
          · exact .inl (by simp [member])
          · exact .inr ⟨rfl,by simp [same,outside]⟩
        · exact (List.mem_cons.mp member).resolve_left same

theorem unroll_finds (sound : solver.Sound) (typed : cond.isCondition = true) (keeping : Keeping body)
    (finds : Finds body R) {rounds : Nat} {hs results : List Handle} (valid : ∀ k ∈ hs, k < p.states.size)
    (ok : unroll solver cond body rounds hs p = .ok results q) (member : h ∈ hs) (represents : p.Represents h i store)
    (run : Iterates cond R n store final) (few : n < rounds) : ∃ o ∈ results, Reached p.symbols i final q o := by
  induction rounds generalizing p hs results h i store n with
  | zero => omega
  | succ rounds ih =>
    obtain ⟨left,entered,mid,rest,rounded,unrolled,rfl⟩ := unroll_ok ok
    have round := round_round keeping valid rounded
    rcases round_finds sound typed keeping finds valid rounded represents run with
      ⟨o,found,reached⟩ | ⟨k,next,m,place,⟨j,agree,reached⟩,more,-,less⟩
    · obtain ⟨tame,-⟩ := unroll_tame keeping round.tame.valid unrolled
      exact ⟨o,by simp [found],reached.grows tame.grows (round.apart o found)⟩
    · have inside : k ∈ entered := place.resolve_right fun ⟨_,outside⟩ => outside member
      have fewer : m < rounds := by have := less member; omega
      obtain ⟨o,found,reached⟩ := ih round.tame.valid unrolled inside reached more fewer
      exact ⟨o,by simp [found],reached.before agree round.tame.grows.symbols⟩

end Eager

open Eager

section Statements

variable {solver : Solver} {p q : Pool} {h : Handle} {i : Interpretation} {store final : Store}

theorem eager_simple (sound : solver.Sound) {s : Stmt} (simple : s.simple = true) (typed : s.wellTyped = true)
    {results : List Handle} (ok : eager solver s h p = .ok results q) (represents : p.Represents h i store)
    (run : s.Runs 0 store final) : h ∈ results ∧ Reached p.symbols i final q h := by
  cases s with
  | skip =>
    cases ok
    cases run
    exact ⟨by simp,i,.refl _ i,represents⟩
  | printState =>
    cases ok
    cases run
    exact ⟨by simp,i,.refl _ i,represents.grows (.printed p _) (Set.notMem_empty h)⟩
  | assign name rhs =>
    obtain ⟨t,known,rfl,rfl⟩ := eager_assign_ok ok
    obtain ⟨v,value,rfl⟩ := run
    rw [Pool.term_evaluates known typed represents.allows.store] at value
    cases value
    exact ⟨by simp,_,i.agrees_assign ⟨name,p.symbols⟩ _,
      represents.assigned name (Pool.term_bound known represents.inScope)⟩
  | assert cond =>
    obtain ⟨f,known,grows,rfl⟩ := eager_assert_ok ok
    obtain ⟨holds,rfl⟩ := run
    have decided := Pool.formula_decides known typed represents.allows.store
    have inScope := Pool.formula_bound known represents.inScope
    have after := (represents.split_true inScope (decided.unique holds)).grows grows represents.valid.ne
    exact ⟨by simp [possible_represents sound after],i,.refl _ i,after⟩
  | assume cond =>
    obtain ⟨f,known,rfl,rfl⟩ := eager_assume_ok ok
    obtain ⟨holds,rfl⟩ := run
    have decided := Pool.formula_decides known typed represents.allows.store
    have after := represents.required (Pool.formula_bound known represents.inScope) (decided.unique holds)
    exact ⟨by simp [possible_represents sound after],i,.refl _ i,after⟩
  | havoc names =>
    obtain ⟨rfl,rfl⟩ := eager_havoc_ok ok
    obtain ⟨j,agree,after⟩ := represents.havocked run
    exact ⟨by simp,j,agree,after⟩
  | hollow => exact run.elim
  | ifElse | ifOnly | loop | block => cases simple

theorem eagerAll_takes {limit : Nat} {ss : List Stmt}
    (each : ∀ s ∈ ss, Takes (eager solver s) (s.Carried (.within limit)))
    (keeping : ∀ s ∈ ss, Keeping (eager solver s)) {previous results : List Handle}
    (ok : eagerAll solver ss h previous p = .ok results q) (represents : p.Represents h i store)
    (carried : Stmt.CarriedAll (.within limit) ss store final) : Reached p.symbols i final q h := by
  induction ss generalizing p previous i store with
  | nil =>
    cases ok
    cases carried
    exact ⟨i,.refl _ i,represents⟩
  | cons s ss ih =>
    obtain ⟨first,mid,explored,rest⟩ := eagerAll_ok ok
    obtain ⟨next,carried,others⟩ := carried
    obtain ⟨j,agree,after⟩ := each s (by simp) h p first mid i store next explored represents carried
    have more := (keeping s (by simp) h p first mid represents.valid explored).grows.symbols
    exact (ih (fun s member => each s (by simp [member])) (fun s member => keeping s (by simp [member])) rest after
      others).before agree more

/-- The entered state represents what its own history leads to. -/
theorem eager_takes (sound : solver.Sound) (limit : Nat) (s : Stmt) (typed : s.wellTyped = true)
    (free : s.invariantFree = true) : Takes (eager solver s) (s.Carried (.within limit)) := by
  induction s using Stmt.structural with
  | skip | printState | assign | assert | assume | havoc | hollow =>
    intro h p results q i store final ok represents carried
    exact (eager_simple sound rfl typed ok represents carried).2
  | ifElse cond yes no left right =>
    simp only [Stmt.wellTyped,Stmt.invariantFree,Stmt.every,Stmt.sorted,Bool.true_and,Bool.and_eq_true] at typed free
    intro h p results q i store final ok represents carried
    obtain ⟨f,first,mid,second,known,entered,refused,rfl⟩ := eager_ifElse_ok ok
    have decided := Pool.formula_decides known typed.1.1 represents.allows.store
    have inScope := Pool.formula_bound known represents.inScope
    have entry := represents.split_true inScope (decided.unique carried.1)
    have branched := (eager_keeping solver yes free.1).branched (eager_keeping solver no free.2) represents.valid entered
      refused
    rw [attempt_represents sound entry] at entered
    have reached := left typed.1.2 free.1 h (p.split h f) first mid i store final entered entry carried.2
    exact reached.grows branched.refused.grows represents.valid.ne
  | ifOnly cond yes ih =>
    simp only [Stmt.wellTyped,Stmt.invariantFree,Stmt.every,Stmt.sorted,Bool.true_and,Bool.and_eq_true] at typed free
    intro h p results q i store final ok represents carried
    obtain ⟨f,first,second,known,entered,-,rfl⟩ := eager_ifOnly_ok ok
    have decided := Pool.formula_decides known typed.1 represents.allows.store
    have inScope := Pool.formula_bound known represents.inScope
    have entry := represents.split_true inScope (decided.unique carried.1)
    rw [attempt_represents sound entry] at entered
    exact ih typed.2 free h (p.split h f) first q i store final entered entry carried.2
  | loop cond body inv ih => intro h p results q i store final ok represents carried; exact carried.1.elim
  | block items ih =>
    simp only [Stmt.wellTyped,Stmt.invariantFree,Stmt.every,Stmt.sorted,Bool.and_eq_true] at typed free
    intro h p results q i store final ok represents carried
    have still := Stmt.everyOf_iff.mp free.2
    refine eagerAll_takes (fun s member => ?_) (fun s member => eager_keeping solver s (still s member)) ok represents
      carried
    exact ih s member (Stmt.everyOf_iff.mp typed.2 s member) (still s member)

theorem eagerAll_finds {limit : Nat} {ss : List Stmt}
    (each : ∀ s ∈ ss, Finds (eager solver s) (s.Given (.within limit)))
    (takes : ∀ s ∈ ss, Takes (eager solver s) (s.Carried (.within limit)))
    (keeping : ∀ s ∈ ss, Keeping (eager solver s)) {previous results : List Handle}
    (ok : eagerAll solver ss h previous p = .ok results q) (represents : p.Represents h i store)
    (given : Stmt.GivenLast (.within limit) ss store final) : ∃ o ∈ results, Reached p.symbols i final q o := by
  induction ss generalizing p previous i store with
  | nil => exact given.elim
  | cons s ss ih =>
    obtain ⟨first,mid,explored,rest⟩ := eagerAll_ok ok
    cases ss with
    | nil =>
      cases rest
      exact each s (by simp) h p _ _ i store final explored represents given
    | cons t ss =>
      obtain ⟨next,carried,others⟩ := given
      obtain ⟨j,agree,after⟩ := takes s (by simp) h p first mid i store next explored represents carried
      have more := (keeping s (by simp) h p first mid represents.valid explored).grows.symbols
      obtain ⟨o,member,reached⟩ := ih (fun s member => each s (List.mem_cons_of_mem _ member))
        (fun s member => takes s (List.mem_cons_of_mem _ member))
        (fun s member => keeping s (List.mem_cons_of_mem _ member)) rest after others
      exact ⟨o,member,reached.before agree more⟩

/-- Every history that leaves its loops within the limit leads to a result. -/
theorem eager_finds (sound : solver.Sound) {limit : Nat} (few : limit < rounds) (s : Stmt)
    (typed : s.wellTyped = true) (free : s.invariantFree = true) :
    Finds (eager solver s) (s.Given (.within limit)) := by
  induction s using Stmt.structural with
  | skip | printState | assign | assert | assume | havoc | hollow =>
    intro h p results q i store final ok represents given
    exact ⟨h,eager_simple sound rfl typed ok represents given⟩
  | ifElse cond yes no left right =>
    simp only [Stmt.wellTyped,Stmt.invariantFree,Stmt.every,Stmt.sorted,Bool.true_and,Bool.and_eq_true] at typed free
    intro h p results q i store final ok represents given
    obtain ⟨f,first,mid,second,known,entered,refused,rfl⟩ := eager_ifElse_ok ok
    have decided := Pool.formula_decides known typed.1.1 represents.allows.store
    have inScope := Pool.formula_bound known represents.inScope
    have branched := (eager_keeping solver yes free.1).branched (eager_keeping solver no free.2) represents.valid entered
      refused
    rcases given with ⟨holds,given⟩ | ⟨fails,given⟩
    · have entry := represents.split_true inScope (decided.unique holds)
      rw [attempt_represents sound entry] at entered
      obtain ⟨o,member,reached⟩ := left typed.1.2 free.1 h (p.split h f) first mid i store final entered entry given
      exact ⟨o,by simp [member],reached.grows branched.refused.grows (branched.apart o member)⟩
    · have other := (represents.split_false inScope (decided.unique fails)).grows branched.entered.grows
        represents.valid.ne'
      rw [attempt_represents sound other] at refused
      obtain ⟨o,member,reached⟩ := right typed.2 free.2 p.states.size mid second q i store final refused other given
      exact ⟨o,by simp [member],reached.before (.refl _ i) branched.entered.grows.symbols⟩
  | ifOnly cond yes ih =>
    simp only [Stmt.wellTyped,Stmt.invariantFree,Stmt.every,Stmt.sorted,Bool.true_and,Bool.and_eq_true] at typed free
    intro h p results q i store final ok represents given
    obtain ⟨f,first,second,known,entered,-,rfl⟩ := eager_ifOnly_ok ok
    have decided := Pool.formula_decides known typed.1 represents.allows.store
    have inScope := Pool.formula_bound known represents.inScope
    have entry := represents.split_true inScope (decided.unique given.1)
    rw [attempt_represents sound entry] at entered
    rcases given.2 with given | ⟨unlimited,-⟩
    · obtain ⟨o,member,reached⟩ := ih typed.2 free h (p.split h f) first q i store final entered entry given
      exact ⟨o,by simp [member],reached⟩
    · cases unlimited
  | loop cond body inv ih =>
    simp only [Stmt.wellTyped,Stmt.invariantFree,Stmt.every,Stmt.sorted,Bool.and_eq_true,
      Option.isNone_iff_eq_none] at typed free
    obtain ⟨rfl,free⟩ := free
    intro h p results q i store final ok represents given
    exact unroll_finds sound typed.1 (eager_keeping solver body free) (ih typed.2 free)
      (by simpa using represents.valid) ok (by simp) represents given few
  | block items ih =>
    simp only [Stmt.wellTyped,Stmt.invariantFree,Stmt.every,Stmt.sorted,Bool.and_eq_true] at typed free
    have sorted := Stmt.everyOf_iff.mp typed.2
    have still := Stmt.everyOf_iff.mp free.2
    intro h p results q i store final ok represents given
    exact eagerAll_finds (fun s member => ih s member (sorted s member) (still s member))
      (fun s member => eager_takes sound limit s (sorted s member) (still s member))
      (fun s member => eager_keeping solver s (still s member)) ok represents given

end Statements

end WhileExec.Symbolic
