import Mathlib
import WhileExec.Symbolic.Eager
import WhileExec.Proofs.Executions

/-!
# Histories

What states go through when all results of a statement are found at once, told on stores. The statement changes
the state that it was entered with, and it gives results; these are two histories. The entered state takes the
first way of a branch and stays in a loop. Results come from both ways of a branch and have left the loop, but a
branch without an alternative gives only what took its first way, and a block goes on with the entered state and
gives the results of its last statement.

The entered state of a loop is taken out of it after some iterations in which the condition held; in all rounds of
the loop if the body gives its entered state back. Whether the condition fails by then is not looked at, so this
need not be an execution. `Leaving` says which of these histories are meant.

A history in which every loop is left with its condition failing is an execution, and in an orderly statement every
history of a result is one of these. Without havoc a statement has one execution from a store. A history that goes
along with one of few iterations leaves every loop, for a state that is kept in a loop has met its condition too often.
-/

namespace WhileExec

def Repeats (step : Store → Store → Prop) : Nat → Store → Store → Prop
  | 0, store, final => final = store
  | n + 1, store, final => ∃ mid, step store mid ∧ Repeats step n mid final

namespace Repeats

variable {step more : Store → Store → Prop} {m n : Nat} {a b c : Store}

theorem append (first : Repeats step m a b) (second : Repeats step n b c) : Repeats step (m + n) a c := by
  induction m generalizing a with
  | zero =>
    cases first
    rwa [Nat.zero_add]
  | succ m ih =>
    obtain ⟨mid,one,rest⟩ := first
    rw [Nat.succ_add]
    exact ⟨mid,one,ih rest⟩

theorem mono (weaker : ∀ a b, step a b → more a b) (repeated : Repeats step n a b) : Repeats more n a b := by
  induction n generalizing a with
  | zero => exact repeated
  | succ n ih =>
    obtain ⟨mid,one,rest⟩ := repeated
    exact ⟨mid,weaker _ _ one,ih rest⟩

end Repeats

/-- Any number of iterations of a loop. -/
def Iterations (cond : Expr) (step : Store → Store → Prop) (store final : Store) : Prop :=
  ∃ n, Repeats (fun a b => cond.Decides a true ∧ step a b) n store final

theorem Iterations.trans {cond : Expr} {step : Store → Store → Prop} {a b c : Store}
    (first : Iterations cond step a b) (second : Iterations cond step b c) : Iterations cond step a c := by
  obtain ⟨m,first⟩ := first
  obtain ⟨n,second⟩ := second
  exact ⟨m + n,first.append second⟩

theorem Iterations.one {cond : Expr} {step : Store → Store → Prop} {a b : Store} (holds : cond.Decides a true)
    (first : step a b) : Iterations cond step a b :=
  ⟨1,b,⟨holds,first⟩,rfl⟩

/-- A statement without parts, whose one result is the entered state. -/
def Stmt.simple : Stmt → Bool
  | .ifElse _ _ _ => false
  | .ifOnly _ _ => false
  | .loop _ _ _ => false
  | .block _ => false
  | _ => true

mutual

/-- The entered state is one of the results. -/
def Stmt.returns : Stmt → Bool
  | .ifElse _ yes _ => yes.returns
  | .ifOnly _ yes => yes.returns
  | .loop _ _ _ => false
  | .block items => Stmt.lastReturns items
  | _ => true

def Stmt.lastReturns : List Stmt → Bool
  | [] => false
  | [s] => s.returns
  | _ :: s :: ss => Stmt.lastReturns (s :: ss)

end

mutual

/-- One state may be given twice. -/
def Stmt.repeats : Stmt → Bool
  | .ifElse _ yes no => yes.repeats || no.repeats
  | .ifOnly _ _ => true
  | .block items => Stmt.lastRepeats items
  | _ => false

def Stmt.lastRepeats : List Stmt → Bool
  | [] => false
  | [s] => s.repeats
  | _ :: s :: ss => Stmt.lastRepeats (s :: ss)

end

mutual

/-- The entered state meets no loop. -/
def Stmt.straight : Stmt → Bool
  | .ifElse _ yes _ => yes.straight
  | .ifOnly _ yes => yes.straight
  | .loop _ _ _ => false
  | .block items => Stmt.allStraight items
  | _ => true

def Stmt.allStraight : List Stmt → Bool
  | [] => true
  | s :: ss => s.straight && Stmt.allStraight ss

end

mutual

/-- No result comes from a state that was taken out of a loop. -/
def Stmt.orderly : Stmt → Bool
  | .ifElse _ yes no => yes.orderly && no.orderly
  | .ifOnly _ yes => yes.orderly && yes.straight
  | .loop _ body _ => body.orderly && (body.straight || !body.repeats)
  | .block items => Stmt.lastOrderly items
  | _ => true

def Stmt.lastOrderly : List Stmt → Bool
  | [] => true
  | [s] => s.orderly
  | s :: t :: ss => s.straight && Stmt.lastOrderly (t :: ss)

end

/-- No block is empty. -/
def Stmt.filled (s : Stmt) : Bool :=
  s.every fun
    | .block items => !items.isEmpty
    | _ => true

/-- How the entered state gets out of a loop. -/
inductive Leaving where
  /-- It does not. Only results leave loops, after at most so many iterations. -/
  | within (limit : Nat)
  /-- With the condition failing by then. -/
  | finished
  /-- Whether or not the condition fails by then. -/
  | anyhow

namespace Leaving

def limit : Leaving → Option Nat
  | within limit => some limit
  | _ => none

/-- Whether a loop may be left with this store. -/
def Permits : Leaving → Expr → Store → Prop
  | within _, _, _ => False
  | finished, cond, store => cond.Decides store false
  | anyhow, _, _ => True

end Leaving

mutual

/-- The history of the entered state. -/
def Stmt.Carried (leaving : Leaving) : Stmt → Store → Store → Prop
  | .ifElse cond yes _, store, final => cond.Decides store true ∧ yes.Carried leaving store final
  | .ifOnly cond yes, store, final => cond.Decides store true ∧ yes.Carried leaving store final
  | .loop cond body _, store, final =>
    leaving.Permits cond final ∧ ∃ n, 0 < n ∧ (body.returns = true → Symbolic.Eager.rounds ≤ n) ∧
      Repeats (fun a b => cond.Decides a true ∧ body.Carried leaving a b) n store final
  | .block items, store, final => Stmt.CarriedAll leaving items store final
  | s, store, final => s.Runs 0 store final

def Stmt.CarriedAll (leaving : Leaving) : List Stmt → Store → Store → Prop
  | [], store, final => final = store
  | s :: ss, store, final => ∃ mid, s.Carried leaving store mid ∧ Stmt.CarriedAll leaving ss mid final

end

mutual

/-- The history of a result. -/
def Stmt.Given (leaving : Leaving) : Stmt → Store → Store → Prop
  | .ifElse cond yes no, store, final =>
    (cond.Decides store true ∧ yes.Given leaving store final) ∨
      (cond.Decides store false ∧ no.Given leaving store final)
  | .ifOnly cond yes, store, final =>
    cond.Decides store true ∧
      (yes.Given leaving store final ∨ (leaving.limit = none ∧ yes.Carried leaving store final))
  | .loop cond body _, store, final =>
    match leaving.limit with
    | some limit => Iterates cond (body.Given leaving) limit store final
    | none => Iterations cond (fun a b => body.Given leaving a b ∨ (body.repeats = true ∧ body.Carried leaving a b))
        store final ∧ cond.Decides final false
  | .block items, store, final => Stmt.GivenLast leaving items store final
  | s, store, final => s.Runs 0 store final

def Stmt.GivenLast (leaving : Leaving) : List Stmt → Store → Store → Prop
  | [], _, _ => False
  | [s], store, final => s.Given leaving store final
  | s :: t :: ss, store, final => ∃ mid, s.Carried leaving store mid ∧ Stmt.GivenLast leaving (t :: ss) mid final

end

namespace Stmt

theorem runsAll_cons {s : Stmt} {ss : List Stmt} {l m : Nat} {store mid final : Store} (first : s.Runs l store mid)
    (rest : RunsAll m ss mid final) : ∃ limit, RunsAll limit (s :: ss) store final :=
  ⟨max l m,mid,runs_mono (le_max_left l m) s first,runs_mono (le_max_right l m) (.block ss) rest⟩

/-- Iterations that are executions, each within some limit, are an execution of the loop within some limit. -/
theorem iterates_of_repeats {cond : Expr} {body : Stmt} {step : Store → Store → Prop}
    (each : ∀ {a b}, step a b → ∃ limit, body.Runs limit a b) {n : Nat} {store final : Store}
    (repeated : Repeats (fun a b => cond.Decides a true ∧ step a b) n store final)
    (left : cond.Decides final false) : ∃ limit, Iterates cond (body.Runs limit) limit store final := by
  induction n generalizing store with
  | zero =>
    cases repeated
    exact ⟨0,left,rfl⟩
  | succ n ih =>
    obtain ⟨mid,⟨holds,first⟩,rest⟩ := repeated
    obtain ⟨l,run⟩ := each first
    obtain ⟨m,others⟩ := ih rest
    refine ⟨max l m + 1,.inr ⟨holds,mid,runs_mono (by omega) body run,?_⟩⟩
    exact others.mono (fun _ _ => runs_mono (by omega) body) (by omega)

theorem carriedAll_runs {items : List Stmt}
    (each : ∀ s ∈ items, ∀ {store final}, s.Carried .finished store final → ∃ limit, s.Runs limit store final)
    {store final : Store} (carried : CarriedAll .finished items store final) :
    ∃ limit, RunsAll limit items store final := by
  induction items generalizing store with
  | nil => exact ⟨0,carried⟩
  | cons s ss ih =>
    obtain ⟨mid,first,rest⟩ := carried
    obtain ⟨l,run⟩ := each s (by simp) first
    obtain ⟨m,others⟩ := ih (fun s member => each s (by simp [member])) rest
    exact runsAll_cons run others

theorem carried_runs (s : Stmt) {store final : Store} (carried : s.Carried .finished store final) :
    ∃ limit, s.Runs limit store final := by
  induction s using Stmt.structural generalizing store final with
  | skip | printState | assign | assert | assume | havoc | hollow => exact ⟨0,carried⟩
  | ifElse cond yes no left right =>
    obtain ⟨limit,run⟩ := left carried.2
    exact ⟨limit,.inl ⟨carried.1,run⟩⟩
  | ifOnly cond yes ih =>
    obtain ⟨limit,run⟩ := ih carried.2
    exact ⟨limit,.inl ⟨carried.1,run⟩⟩
  | loop cond body inv ih =>
    obtain ⟨left,n,-,-,repeated⟩ := carried
    exact iterates_of_repeats ih repeated left
  | block items ih => exact carriedAll_runs ih carried

theorem givenLast_runs {items : List Stmt}
    (each : ∀ s ∈ items, ∀ {store final}, s.Given .finished store final → ∃ limit, s.Runs limit store final)
    {store final : Store} (given : GivenLast .finished items store final) :
    ∃ limit, RunsAll limit items store final := by
  match items with
  | [] => exact given.elim
  | [s] =>
    obtain ⟨limit,run⟩ := each s (by simp) given
    exact ⟨limit,final,run,rfl⟩
  | s :: t :: ss =>
    obtain ⟨mid,first,rest⟩ := given
    obtain ⟨l,run⟩ := carried_runs s first
    obtain ⟨m,others⟩ := givenLast_runs (fun s member => each s (by simp [member])) rest
    exact runsAll_cons run others

theorem given_runs (s : Stmt) {store final : Store} (given : s.Given .finished store final) :
    ∃ limit, s.Runs limit store final := by
  induction s using Stmt.structural generalizing store final with
  | skip | printState | assign | assert | assume | havoc | hollow => exact ⟨0,given⟩
  | ifElse cond yes no left right =>
    rcases given with ⟨holds,given⟩ | ⟨fails,given⟩
    · obtain ⟨limit,run⟩ := left given
      exact ⟨limit,.inl ⟨holds,run⟩⟩
    · obtain ⟨limit,run⟩ := right given
      exact ⟨limit,.inr ⟨fails,run⟩⟩
  | ifOnly cond yes ih =>
    obtain ⟨holds,given⟩ := given
    obtain ⟨limit,run⟩ : ∃ limit, yes.Runs limit store final := by
      rcases given with given | ⟨-,carried⟩
      · exact ih given
      · exact carried_runs yes carried
    exact ⟨limit,.inl ⟨holds,run⟩⟩
  | loop cond body inv ih =>
    obtain ⟨⟨n,repeated⟩,left⟩ := given
    refine iterates_of_repeats (fun step => ?_) repeated left
    rcases step with given | ⟨-,carried⟩
    · exact ih given
    · exact carried_runs body carried
  | block items ih => exact givenLast_runs ih given

theorem allStraight_finished {items : List Stmt}
    (each : ∀ s ∈ items, s.straight = true → ∀ {store final}, s.Carried .anyhow store final →
      s.Carried .finished store final)
    (straight : allStraight items = true) {store final : Store} (carried : CarriedAll .anyhow items store final) :
    CarriedAll .finished items store final := by
  induction items generalizing store with
  | nil => exact carried
  | cons s ss ih =>
    simp only [allStraight,Bool.and_eq_true] at straight
    obtain ⟨mid,first,rest⟩ := carried
    exact ⟨mid,each s (by simp) straight.1 first,ih (fun s member => each s (by simp [member])) straight.2 rest⟩

theorem straight_finished (s : Stmt) (straight : s.straight = true) {store final : Store}
    (carried : s.Carried .anyhow store final) : s.Carried .finished store final := by
  induction s using Stmt.structural generalizing store final with
  | skip | printState | assign | assert | assume | havoc | hollow => exact carried
  | ifElse cond yes no left right => exact ⟨carried.1,left straight carried.2⟩
  | ifOnly cond yes ih => exact ⟨carried.1,ih straight carried.2⟩
  | loop cond body inv ih => cases straight
  | block items ih => exact allStraight_finished ih straight carried

theorem lastOrderly_finished {items : List Stmt}
    (each : ∀ s ∈ items, s.orderly = true → ∀ {store final}, s.Given .anyhow store final →
      s.Given .finished store final)
    (orderly : lastOrderly items = true) {store final : Store} (given : GivenLast .anyhow items store final) :
    GivenLast .finished items store final := by
  match items with
  | [] => exact given
  | [s] => exact each s (by simp) orderly given
  | s :: t :: ss =>
    simp only [lastOrderly,Bool.and_eq_true] at orderly
    obtain ⟨mid,first,rest⟩ := given
    exact ⟨mid,straight_finished s orderly.1 first,
      lastOrderly_finished (fun s member => each s (by simp [member])) orderly.2 rest⟩

theorem orderly_finished (s : Stmt) (orderly : s.orderly = true) {store final : Store}
    (given : s.Given .anyhow store final) : s.Given .finished store final := by
  induction s using Stmt.structural generalizing store final with
  | skip | printState | assign | assert | assume | havoc | hollow => exact given
  | ifElse cond yes no left right =>
    simp only [Stmt.orderly,Bool.and_eq_true] at orderly
    rcases given with ⟨holds,given⟩ | ⟨fails,given⟩
    · exact .inl ⟨holds,left orderly.1 given⟩
    · exact .inr ⟨fails,right orderly.2 given⟩
  | ifOnly cond yes ih =>
    simp only [Stmt.orderly,Bool.and_eq_true] at orderly
    rcases given with ⟨holds,given | ⟨-,carried⟩⟩
    · exact ⟨holds,.inl (ih orderly.1 given)⟩
    · exact ⟨holds,.inr ⟨rfl,straight_finished yes orderly.2 carried⟩⟩
  | loop cond body inv ih =>
    simp only [Stmt.orderly,Bool.and_eq_true,Bool.or_eq_true,Bool.not_eq_true'] at orderly
    obtain ⟨⟨n,repeated⟩,left⟩ := given
    refine ⟨⟨n,repeated.mono fun a b ⟨holds,step⟩ => ⟨holds,?_⟩⟩,left⟩
    rcases step with given | ⟨twice,carried⟩
    · exact .inl (ih orderly.1 given)
    · have straight := orderly.2.resolve_right (by simp [twice])
      exact .inr ⟨twice,straight_finished body straight carried⟩
  | block items ih => exact lastOrderly_finished ih orderly given

theorem lastReturns_of_carried {limit : Nat} {items : List Stmt}
    (each : ∀ s ∈ items, ∀ {store final}, s.Carried (.within limit) store final → s.returns = true)
    (filled : items ≠ []) {store final : Store} (carried : CarriedAll (.within limit) items store final) :
    lastReturns items = true := by
  match items with
  | [] => contradiction
  | [s] =>
    obtain ⟨mid,first,-⟩ := carried
    exact each s (by simp) first
  | s :: t :: ss =>
    obtain ⟨mid,-,rest⟩ := carried
    change lastReturns (t :: ss) = true
    exact lastReturns_of_carried (fun s member => each s (by simp [member])) (by simp) rest

/-- A state that meets no loop is given back. -/
theorem returns_of_carried {limit : Nat} (s : Stmt) (filled : s.filled = true) {store final : Store}
    (carried : s.Carried (.within limit) store final) : s.returns = true := by
  induction s using Stmt.structural generalizing store final with
  | skip | printState | assign | assert | assume | havoc | hollow => rfl
  | ifElse cond yes no left right =>
    simp only [Stmt.filled,every,Bool.true_and,Bool.and_eq_true] at filled
    exact left filled.1 carried.2
  | ifOnly cond yes ih =>
    simp only [Stmt.filled,every,Bool.true_and] at filled
    exact ih filled carried.2
  | loop cond body inv ih => exact carried.1.elim
  | block items ih =>
    simp only [Stmt.filled,every,Bool.and_eq_true] at filled
    refine lastReturns_of_carried (fun s member => ih s member (everyOf_iff.mp filled.2 s member)) ?_ carried
    simpa using filled.1

theorem givenLast_of_carried {limit : Nat} {items : List Stmt}
    (each : ∀ s ∈ items, ∀ {store final}, s.Carried (.within limit) store final → s.Given (.within limit) store final)
    (filled : items ≠ []) {store final : Store} (carried : CarriedAll (.within limit) items store final) :
    GivenLast (.within limit) items store final := by
  match items with
  | [] => contradiction
  | [s] =>
    obtain ⟨mid,first,rfl⟩ := carried
    exact each s (by simp) first
  | s :: t :: ss =>
    obtain ⟨mid,first,rest⟩ := carried
    exact ⟨mid,first,givenLast_of_carried (fun s member => each s (by simp [member])) (by simp) rest⟩

theorem given_of_carried {limit : Nat} (s : Stmt) (filled : s.filled = true) {store final : Store}
    (carried : s.Carried (.within limit) store final) : s.Given (.within limit) store final := by
  induction s using Stmt.structural generalizing store final with
  | skip | printState | assign | assert | assume | havoc | hollow => exact carried
  | ifElse cond yes no left right =>
    simp only [Stmt.filled,every,Bool.true_and,Bool.and_eq_true] at filled
    exact .inl ⟨carried.1,left filled.1 carried.2⟩
  | ifOnly cond yes ih =>
    simp only [Stmt.filled,every,Bool.true_and] at filled
    exact ⟨carried.1,.inl (ih filled carried.2)⟩
  | loop cond body inv ih => exact carried.1.elim
  | block items ih =>
    simp only [Stmt.filled,every,Bool.and_eq_true] at filled
    refine givenLast_of_carried (fun s member => ih s member (everyOf_iff.mp filled.2 s member)) ?_ carried
    simpa using filled.1

/-- Steps that the iterations of an execution repeat are no more than these. -/
theorem repeats_le {cond : Expr} {step R : Store → Store → Prop} (same : ∀ a b c, step a b → R a c → b = c)
    {n m : Nat} {store mid final : Store}
    (repeated : Repeats (fun a b => cond.Decides a true ∧ step a b) n store mid)
    (run : Iterates cond R m store final) : n ≤ m := by
  induction n generalizing m store with
  | zero => exact Nat.zero_le m
  | succ n ih =>
    obtain ⟨next,⟨holds,first⟩,rest⟩ := repeated
    cases m with
    | zero => cases holds.unique run.1
    | succ m =>
      rcases run with ⟨fails,-⟩ | ⟨-,other,ran,run⟩
      · cases holds.unique fails
      · cases same _ _ _ first ran
        exact Nat.succ_le_succ (ih rest run)

theorem carriedAll_determined {bound limit : Nat} {items : List Stmt}
    (each : ∀ s ∈ items, ∀ {store final ran}, s.Carried .anyhow store final → s.Runs bound store ran →
      final = ran ∧ s.Carried (.within limit) store final) {store final ran : Store}
    (carried : CarriedAll .anyhow items store final) (run : RunsAll bound items store ran) :
    final = ran ∧ CarriedAll (.within limit) items store final := by
  induction items generalizing store with
  | nil =>
    cases carried
    cases run
    exact ⟨rfl,rfl⟩
  | cons s ss ih =>
    obtain ⟨mid,first,rest⟩ := carried
    obtain ⟨other,ran,run⟩ := run
    obtain ⟨rfl,proper⟩ := each s (by simp) first ran
    obtain ⟨same,others⟩ := ih (fun s member => each s (by simp [member])) rest run
    exact ⟨same,mid,proper,others⟩

theorem carried_determined {bound : Nat} (few : bound < Symbolic.Eager.rounds) (limit : Nat) (s : Stmt)
    (filled : s.filled = true) (free : s.havocFree = true) {store final ran : Store}
    (carried : s.Carried .anyhow store final) (run : s.Runs bound store ran) :
    final = ran ∧ s.Carried (.within limit) store final := by
  induction s using Stmt.structural generalizing store final ran with
  | skip | printState =>
    cases carried
    cases run
    exact ⟨rfl,rfl⟩
  | assign name rhs =>
    obtain ⟨v,value,rfl⟩ := carried
    obtain ⟨w,again,rfl⟩ := run
    rw [value] at again
    cases again
    exact ⟨rfl,v,value,rfl⟩
  | assert cond | assume cond =>
    obtain ⟨holds,rfl⟩ := carried
    obtain ⟨-,rfl⟩ := run
    exact ⟨rfl,holds,rfl⟩
  | havoc names => cases free
  | hollow => exact carried.elim
  | ifElse cond yes no left right =>
    simp only [Stmt.filled,Stmt.havocFree,every,Bool.true_and,Bool.and_eq_true] at filled free
    rcases run with ⟨-,run⟩ | ⟨fails,-⟩
    · obtain ⟨same,proper⟩ := left filled.1 free.1 carried.2 run
      exact ⟨same,carried.1,proper⟩
    · cases carried.1.unique fails
  | ifOnly cond yes ih =>
    simp only [Stmt.filled,Stmt.havocFree,every,Bool.true_and] at filled free
    rcases run with ⟨-,run⟩ | ⟨fails,-⟩
    · obtain ⟨same,proper⟩ := ih filled free carried.2 run
      exact ⟨same,carried.1,proper⟩
    · cases carried.1.unique fails
  | loop cond body inv ih =>
    simp only [Stmt.filled,Stmt.havocFree,every,Bool.true_and] at filled free
    obtain ⟨-,n,positive,enough,repeated⟩ := carried
    have same : ∀ a b c, body.Carried .anyhow a b → body.Runs bound a c → b = c :=
      fun _ _ _ step run => (ih filled free step run).1
    have within : n ≤ bound := repeats_le same repeated run
    obtain ⟨m,rfl⟩ : ∃ m, n = m + 1 := ⟨n - 1,by omega⟩
    obtain ⟨mid,⟨holds,first⟩,-⟩ := repeated
    obtain ⟨k,rfl⟩ : ∃ k, bound = k + 1 := ⟨bound - 1,by omega⟩
    rcases run with ⟨fails,-⟩ | ⟨-,other,ran,-⟩
    · cases holds.unique fails
    · -- The body gives the state back, so it has been there in all rounds.
      have returns := returns_of_carried body filled (ih filled free first ran).2
      have := enough returns
      omega
  | block items ih =>
    simp only [Stmt.filled,Stmt.havocFree,every,Bool.and_eq_true] at filled free
    exact carriedAll_determined (fun s member =>
      ih s member (everyOf_iff.mp filled.2 s member) (everyOf_iff.mp free.2 s member)) carried run

/-- Iterations beside those of an execution are the same ones. -/
theorem iterates_determined {cond : Expr} {step R S : Store → Store → Prop}
    (same : ∀ a b c, step a b → R a c → b = c ∧ S a b) {n m : Nat} {store final ran : Store}
    (repeated : Repeats (fun a b => cond.Decides a true ∧ step a b) n store final)
    (left : cond.Decides final false) (run : Iterates cond R m store ran) :
    final = ran ∧ Iterates cond S m store final := by
  induction n generalizing m store with
  | zero =>
    cases repeated
    cases m with
    | zero => exact ⟨run.2.symm,left,rfl⟩
    | succ m =>
      rcases run with ⟨-,rfl⟩ | ⟨holds,-⟩
      · exact ⟨rfl,.inl ⟨left,rfl⟩⟩
      · cases holds.unique left
  | succ n ih =>
    obtain ⟨mid,⟨holds,first⟩,rest⟩ := repeated
    cases m with
    | zero => cases holds.unique run.1
    | succ m =>
      rcases run with ⟨fails,-⟩ | ⟨-,other,ran,run⟩
      · cases holds.unique fails
      · obtain ⟨rfl,proper⟩ := same _ _ _ first ran
        obtain ⟨same,others⟩ := ih rest run
        exact ⟨same,.inr ⟨holds,mid,proper,others⟩⟩

theorem givenLast_determined {bound : Nat} (few : bound < Symbolic.Eager.rounds) {items : List Stmt}
    (filled : ∀ s ∈ items, s.filled = true) (free : ∀ s ∈ items, s.havocFree = true)
    (each : ∀ s ∈ items, ∀ {store final ran}, s.Given .anyhow store final → s.Runs bound store ran →
      final = ran ∧ s.Given (.within bound) store final) {store final ran : Store}
    (given : GivenLast .anyhow items store final) (run : RunsAll bound items store ran) :
    final = ran ∧ GivenLast (.within bound) items store final := by
  match items with
  | [] => exact given.elim
  | [s] =>
    obtain ⟨mid,run,rfl⟩ := run
    exact each s (by simp) given run
  | s :: t :: ss =>
    obtain ⟨mid,first,rest⟩ := given
    obtain ⟨other,ran,run⟩ := run
    obtain ⟨rfl,proper⟩ := carried_determined few bound s (filled s (by simp)) (free s (by simp)) first ran
    obtain ⟨same,others⟩ := givenLast_determined few (fun s member => filled s (by simp [member]))
      (fun s member => free s (by simp [member])) (fun s member => each s (by simp [member])) rest run
    exact ⟨same,mid,proper,others⟩

/-- A history of a result beside an execution of few iterations is this execution. -/
theorem given_determined {bound : Nat} (few : bound < Symbolic.Eager.rounds) (s : Stmt) (filled : s.filled = true)
    (free : s.havocFree = true) {store final ran : Store} (given : s.Given .anyhow store final)
    (run : s.Runs bound store ran) : final = ran ∧ s.Given (.within bound) store final := by
  induction s using Stmt.structural generalizing store final ran with
  | skip | printState | assign | assert | assume | havoc | hollow =>
    exact carried_determined few bound _ filled free given run
  | ifElse cond yes no left right =>
    simp only [Stmt.filled,Stmt.havocFree,every,Bool.true_and,Bool.and_eq_true] at filled free
    rcases given with ⟨holds,given⟩ | ⟨fails,given⟩ <;> rcases run with ⟨truth,run⟩ | ⟨truth,run⟩
    · obtain ⟨same,proper⟩ := left filled.1 free.1 given run
      exact ⟨same,.inl ⟨holds,proper⟩⟩
    · cases holds.unique truth
    · cases fails.unique truth
    · obtain ⟨same,proper⟩ := right filled.2 free.2 given run
      exact ⟨same,.inr ⟨fails,proper⟩⟩
  | ifOnly cond yes ih =>
    simp only [Stmt.filled,Stmt.havocFree,every,Bool.true_and] at filled free
    obtain ⟨holds,given⟩ := given
    rcases run with ⟨-,run⟩ | ⟨fails,-⟩
    · rcases given with given | ⟨-,carried⟩
      · obtain ⟨same,proper⟩ := ih filled free given run
        exact ⟨same,holds,.inl proper⟩
      · obtain ⟨same,proper⟩ := carried_determined few bound yes filled free carried run
        exact ⟨same,holds,.inl (given_of_carried yes filled proper)⟩
    · cases holds.unique fails
  | loop cond body inv ih =>
    simp only [Stmt.filled,Stmt.havocFree,every,Bool.true_and] at filled free
    obtain ⟨⟨n,repeated⟩,left⟩ := given
    refine iterates_determined (fun a b c step run => ?_) repeated left run
    rcases step with given | ⟨-,carried⟩
    · exact ih filled free given run
    · obtain ⟨same,proper⟩ := carried_determined few bound body filled free carried run
      exact ⟨same,given_of_carried body filled proper⟩
  | block items ih =>
    simp only [Stmt.filled,Stmt.havocFree,every,Bool.and_eq_true] at filled free
    have fill := everyOf_iff.mp filled.2
    have still := everyOf_iff.mp free.2
    exact givenLast_determined few fill still (fun s member => ih s member (fill s member) (still s member)) given run

end Stmt

end WhileExec
