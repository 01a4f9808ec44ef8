import Mathlib
import WhileExec.Proofs.Symbolic.EagerSteps
import WhileExec.Proofs.Symbolic.Histories

/-!
# What the results of eager exploration have gone through

Every interpretation that a result admits makes its history, and so does every interpretation that the entered state
still admits afterwards. The solver has to be sound here: a body is not explored from a state that it refuses, but
the state is kept.

For loops the history of all states in a round is followed from the state that the loop was entered with. A state
that a body gives twice is taken up twice, and goes through the body as an entered state the second time.
-/

namespace WhileExec.Symbolic

namespace Eager

variable {solver : Solver} {cond : Expr} {explore body : Handle → Explore (List Handle)}
  {C G R S : Store → Store → Prop} {p q : Pool} {h : Handle} {results left entered hs : List Handle}

/-- Each result follows from the entered state. -/
def Justifies (explore : Handle → Explore (List Handle)) (R : Store → Store → Prop) : Prop :=
  ∀ h p results q, h < p.states.size → explore h p = .ok results q →
    ∀ o ∈ results, (p.state h).Follows R (q.state o)

/-- What becomes of the entered state. -/
def Turns (explore : Handle → Explore (List Handle)) (R : Store → Store → Prop) : Prop :=
  ∀ h p results q, h < p.states.size → explore h p = .ok results q → (p.state h).Follows R (q.state h)

/-- The entered state is given back unless it has become impossible. -/
def Returns (explore : Handle → Explore (List Handle)) : Prop :=
  ∀ h p results q, h < p.states.size → explore h p = .ok results q → h ∉ results →
    ∀ i, (q.state h).path.holds i = false

/-- No state is given twice. -/
def Distinct (explore : Handle → Explore (List Handle)) : Prop :=
  ∀ h p results q, h < p.states.size → explore h p = .ok results q → results.Nodup

theorem Justifies.attempt (justifies : Justifies explore R) : Justifies (attempt solver explore) R := by
  intro h p results q valid ok
  rw [attempt_apply] at ok
  split at ok
  · cases ok; simp
  · exact justifies h p results q valid ok

theorem Turns.attempt (sound : solver.Sound) (turns : Turns explore R) : Turns (attempt solver explore) R := by
  intro h p results q valid ok
  rw [attempt_apply] at ok
  split at ok
  next refused =>
    cases ok
    exact .of_impossible fun i => sound _ i refused
  next => exact turns h p results q valid ok

theorem Returns.attempt (sound : solver.Sound) (returns : Returns explore) : Returns (attempt solver explore) := by
  intro h p results q valid ok absent
  rw [attempt_apply] at ok
  split at ok
  next refused =>
    cases ok
    exact fun i => sound _ i refused
  next => exact returns h p results q valid ok absent

theorem Distinct.attempt (distinct : Distinct explore) : Distinct (attempt solver explore) := by
  intro h p results q valid ok
  rw [attempt_apply] at ok
  split at ok
  · cases ok; exact .nil
  · exact distinct h p results q valid ok

theorem advance_left (typed : cond.isCondition = true) (keeping : Keeping body) (valid : h < p.states.size)
    (ok : advance solver cond body h p = .ok (left,entered) q) :
    ∀ o ∈ left, (p.state h).Follows (fun a b => cond.Decides a false ∧ b = a) (q.state o) := by
  intro o member
  obtain ⟨f,known,attempted,rfl⟩ := advance_ok ok
  cases mem_possible member
  have older := p.lt_split f valid
  rw [(keeping.attempt older attempted).grows.others _ (by simp) valid.ne']
  exact Pool.follows_split_false known typed valid

theorem advance_entered (typed : cond.isCondition = true) (justifies : Justifies body G) (valid : h < p.states.size)
    (ok : advance solver cond body h p = .ok (left,entered) q) :
    ∀ o ∈ entered, (p.state h).Follows (fun a b => cond.Decides a true ∧ G a b) (q.state o) := by
  intro o member
  obtain ⟨f,known,attempted,rfl⟩ := advance_ok ok
  have older := p.lt_split f valid
  exact (Pool.follows_split_true known typed valid).under (justifies.attempt h _ _ q older attempted o member)

theorem advance_turns (sound : solver.Sound) (typed : cond.isCondition = true) (turns : Turns body C)
    (valid : h < p.states.size) (ok : advance solver cond body h p = .ok (left,entered) q) :
    (p.state h).Follows (fun a b => cond.Decides a true ∧ C a b) (q.state h) := by
  obtain ⟨f,known,attempted,rfl⟩ := advance_ok ok
  have older := p.lt_split f valid
  exact (Pool.follows_split_true known typed valid).under (turns.attempt sound h _ _ q older attempted)

/-- Each time a state is taken up it goes through the body once more. -/
theorem round_turns (sound : solver.Sound) (typed : cond.isCondition = true) (keeping : Keeping body)
    (turns : Turns body C) (valid : ∀ k ∈ hs, k < p.states.size)
    (ok : round solver cond body hs p = .ok (left,entered) q) {k : Handle} (old : k < p.states.size) :
    (p.state k).Follows (fun a b => ∃ n, (k ∈ hs → 0 < n) ∧
      Repeats (fun a b => cond.Decides a true ∧ C a b) n a b) (q.state k) := by
  induction hs generalizing p left entered with
  | nil =>
    cases ok
    exact (State.Follows.refl _).mono fun _ _ same => ⟨0,by simp,same⟩
  | cons h hs ih =>
    obtain ⟨left₁,entered₁,mid,left₂,entered₂,advanced,rounded,one,inside,rfl,rfl⟩ := round_cons keeping valid ok
    have grows := one.tame.grows
    have later := ih inside rounded (old.trans_le grows.size)
    by_cases same : k = h
    · subst same
      refine ((advance_turns sound typed turns old advanced).trans later).mono ?_
      rintro store final ⟨mid,step,n,-,repeated⟩
      exact ⟨n + 1,fun _ => Nat.succ_pos n,mid,step,repeated⟩
    · rw [grows.others k old same] at later
      refine later.mono fun store final ⟨n,positive,repeated⟩ => ⟨n,fun member => positive ?_,repeated⟩
      exact (List.mem_cons.mp member).resolve_left same

theorem round_returns (sound : solver.Sound) (keeping : Keeping body) (returns : Returns body)
    (valid : ∀ k ∈ hs, k < p.states.size) (ok : round solver cond body hs p = .ok (left,entered) q)
    {k : Handle} (member : k ∈ hs) (absent : k ∉ entered) (i : Interpretation) :
    (q.state k).path.holds i = false := by
  induction hs generalizing p left entered with
  | nil => cases member
  | cons h hs ih =>
    obtain ⟨left₁,entered₁,mid,left₂,entered₂,advanced,rounded,one,later,rfl,rfl⟩ := round_cons keeping valid ok
    have older := valid h (by simp)
    simp only [List.mem_append,not_or] at absent
    by_cases again : k ∈ hs
    · exact ih later rounded again absent.2
    · cases (List.mem_cons.mp member).resolve_right again
      obtain ⟨f,-,attempted,-⟩ := advance_ok advanced
      have inside := p.lt_split f older
      have two := round_round keeping later rounded
      rw [two.tame.grows.others k (older.trans_le one.tame.grows.size) again]
      exact returns.attempt sound k _ _ mid inside attempted absent.1 i

theorem round_nodup (keeping : Keeping body) (distinct : Distinct body) (valid : ∀ k ∈ hs, k < p.states.size)
    (once : hs.Nodup) (ok : round solver cond body hs p = .ok (left,entered) q) : entered.Nodup := by
  induction hs generalizing p left entered with
  | nil => cases ok; exact .nil
  | cons h hs ih =>
    obtain ⟨left₁,entered₁,mid,left₂,entered₂,advanced,rounded,one,later,rfl,rfl⟩ := round_cons keeping valid ok
    have older := valid h (by simp)
    obtain ⟨f,-,attempted,-⟩ := advance_ok advanced
    have inside := p.lt_split f older
    have first := distinct.attempt h _ _ mid inside attempted
    refine List.nodup_append'.mpr ⟨first,ih later (List.nodup_cons.mp once).2 rounded,fun o here there => ?_⟩
    have two := round_round keeping later rounded
    have again := two.tame.own o there (one.tame.valid o here)
    have same := one.tame.own o here (valid o (List.mem_cons_of_mem h again))
    cases Set.mem_singleton_iff.mp same
    exact (List.nodup_cons.mp once).1 again

theorem follows_iterations {a b c : State} (before : a.Follows (Iterations cond R) b)
    (after : b.Follows (Iterations cond R) c) : a.Follows (Iterations cond R) c :=
  (before.trans after).mono fun _ _ ⟨_,first,second⟩ => first.trans second

theorem follows_iteration {a b c : State} (before : a.Follows (Iterations cond R) b)
    (after : b.Follows (fun store final => cond.Decides store true ∧ R store final) c) :
    a.Follows (Iterations cond R) c :=
  follows_iterations before (after.mono fun _ _ ⟨holds,step⟩ => .one holds step)

/-- The histories of all states in a round, told from one state. A state that is taken up twice goes through the
body as an entered state. -/
theorem round_justifies (sound : solver.Sound) (typed : cond.isCondition = true) (keeping : Keeping body)
    (turns : Turns body C) (justifies : Justifies body R) (again : (∀ a b, C a b → R a b) ∨ hs.Nodup)
    (valid : ∀ k ∈ hs, k < p.states.size) (ok : round solver cond body hs p = .ok (left,entered) q) {s : State}
    (before : ∀ k ∈ hs, s.Follows (Iterations cond R) (p.state k)) :
    (∀ o ∈ left, s.Follows (fun a b => Iterations cond R a b ∧ cond.Decides b false) (q.state o)) ∧
      ∀ o ∈ entered, s.Follows (Iterations cond R) (q.state o) := by
  induction hs generalizing p left entered with
  | nil => cases ok; simp
  | cons h hs ih =>
    obtain ⟨left₁,entered₁,mid,left₂,entered₂,advanced,rounded,one,later,rfl,rfl⟩ := round_cons keeping valid ok
    have older := valid h (by simp)
    have two := round_round keeping later rounded
    have start := before h (by simp)
    have twice : h ∈ hs → ∀ a b, C a b → R a b :=
      fun member => again.resolve_right fun once => (List.nodup_cons.mp once).1 member
    obtain ⟨leaving,entering⟩ := ih (again.imp_right fun once => (List.nodup_cons.mp once).2) later rounded
      fun k member => by
        by_cases same : k = h
        · subst same
          have turned := advance_turns sound typed turns older advanced
          exact follows_iteration start (turned.mono fun a b ⟨holds,step⟩ => ⟨holds,twice member a b step⟩)
        · rw [one.tame.grows.others k (valid k (by simp [member])) same]
          exact before k (by simp [member])
    refine ⟨fun o member => ?_,fun o member => ?_⟩ <;> rcases List.mem_append.mp member with member | member
    · have outside : o ∉ {k | k ∈ hs} := fun inside =>
        absurd (valid o (List.mem_cons_of_mem h inside)) (Nat.not_lt.mpr (one.new o member))
      rw [two.tame.grows.others o (one.valid o member) outside]
      refine (start.trans (advance_left typed keeping older advanced o member)).mono ?_
      rintro store final ⟨_,reached,fails,rfl⟩
      exact ⟨reached,fails⟩
    · exact leaving o member
    · have given := follows_iteration start (advance_entered typed justifies older advanced o member)
      by_cases inside : o ∈ hs
      · -- Only the state just advanced can be both given and waiting, and the rest of the round takes it further.
        obtain rfl : o = h := one.tame.own o member (valid o (List.mem_cons_of_mem h inside))
        have turned := round_turns sound typed keeping turns later rounded (one.tame.valid o member)
        refine follows_iterations given (turned.mono fun a b ⟨n,_,repeated⟩ => ⟨n,?_⟩)
        exact repeated.mono fun a b ⟨holds,step⟩ => ⟨holds,twice inside a b step⟩
      · rw [two.tame.grows.others o (one.tame.valid o member) inside]
        exact given
    · exact entering o member

theorem unroll_justifies (sound : solver.Sound) (typed : cond.isCondition = true) (keeping : Keeping body)
    (turns : Turns body C) (justifies : Justifies body R)
    (again : (∀ a b, C a b → R a b) ∨ (Distinct body ∧ hs.Nodup)) (valid : ∀ k ∈ hs, k < p.states.size) {rounds : Nat}
    (ok : unroll solver cond body rounds hs p = .ok results q) {s : State}
    (before : ∀ k ∈ hs, s.Follows (Iterations cond R) (p.state k)) :
    ∀ o ∈ results, s.Follows (fun a b => Iterations cond R a b ∧ cond.Decides b false) (q.state o) := by
  induction rounds generalizing p hs results with
  | zero => cases ok; simp
  | succ rounds ih =>
    obtain ⟨left,entered,mid,rest,rounded,unrolled,rfl⟩ := unroll_ok ok
    have round := round_round keeping valid rounded
    obtain ⟨leaving,entering⟩ := round_justifies sound typed keeping turns justifies (again.imp_right And.right) valid
      rounded before
    intro o member
    rcases List.mem_append.mp member with member | member
    · obtain ⟨tame,-⟩ := unroll_tame keeping round.tame.valid unrolled
      rw [tame.grows.others o (round.valid o member) (round.apart o member)]
      exact leaving o member
    · have once : (∀ a b, C a b → R a b) ∨ (Distinct body ∧ entered.Nodup) :=
        again.imp_right fun ⟨distinct,once⟩ => ⟨distinct,round_nodup keeping distinct valid once rounded⟩
      exact ih once round.tame.valid unrolled entering o member

/-- A state that is taken up has gone through the body; in all rounds if the body gives it back each time. -/
theorem unroll_turns (sound : solver.Sound) (typed : cond.isCondition = true) (keeping : Keeping body)
    (turns : Turns body C) (valid : ∀ k ∈ hs, k < p.states.size) {rounds : Nat}
    (ok : unroll solver cond body rounds hs p = .ok results q) {k : Handle} (member : k ∈ hs) :
    (p.state k).Follows (fun a b => ∃ n, (0 < rounds → 0 < n) ∧ (Returns body → rounds ≤ n) ∧
      Repeats (fun a b => cond.Decides a true ∧ C a b) n a b) (q.state k) := by
  induction rounds generalizing p hs results with
  | zero =>
    cases ok
    exact (State.Follows.refl _).mono fun _ _ same => ⟨0,id,fun _ => le_rfl,same⟩
  | succ rounds ih =>
    obtain ⟨left,entered,mid,rest,rounded,unrolled,rfl⟩ := unroll_ok ok
    have round := round_round keeping valid rounded
    have first := round_turns sound typed keeping turns valid rounded (valid k member)
    by_cases inside : k ∈ entered
    · refine (first.trans (ih round.tame.valid unrolled inside)).mono ?_
      rintro store final ⟨mid,⟨m,positive,before⟩,n,-,enough,after⟩
      have one := positive member
      exact ⟨m + n,fun _ => by omega,fun returns => by have := enough returns; omega,before.append after⟩
    · obtain ⟨tame,-⟩ := unroll_tame keeping round.tame.valid unrolled
      rw [tame.grows.others k ((valid k member).trans_le round.tame.grows.size) inside]
      by_cases returns : Returns body
      · exact .of_impossible (round_returns sound keeping returns valid rounded member inside)
      · exact first.mono fun store final ⟨n,positive,repeated⟩ =>
          ⟨n,fun _ => positive member,fun back => absurd back returns,repeated⟩

end Eager

open Eager

section Statements

variable {solver : Solver} {p q : Pool} {h : Handle} {results : List Handle}

theorem eager_simple_results {s : Stmt} (simple : s.simple = true) (ok : eager solver s h p = .ok results q) :
    results = [h] ∨ results = possible solver q h := by
  cases s with
  | skip => cases ok; exact .inl rfl
  | printState => cases ok; exact .inl rfl
  | assign name rhs => obtain ⟨t,-,-,rfl⟩ := eager_assign_ok ok; exact .inl rfl
  | havoc names => obtain ⟨-,rfl⟩ := eager_havoc_ok ok; exact .inl rfl
  | assert cond => obtain ⟨f,-,-,rfl⟩ := eager_assert_ok ok; exact .inr rfl
  | assume cond => obtain ⟨f,-,rfl,rfl⟩ := eager_assume_ok ok; exact .inr rfl
  | hollow => cases ok
  | ifElse | ifOnly | loop | block => cases simple

theorem eager_simple_turns {s : Stmt} (simple : s.simple = true) (typed : s.wellTyped = true) :
    Turns (eager solver s) (s.Runs 0) := by
  intro h p results q valid ok
  cases s with
  | skip => cases ok; exact .refl _
  | printState => cases ok; exact .refl _
  | assign name rhs =>
    obtain ⟨t,known,rfl,-⟩ := eager_assign_ok ok
    exact Pool.follows_assigned known typed valid
  | havoc names =>
    obtain ⟨rfl,-⟩ := eager_havoc_ok ok
    exact Pool.follows_havocked names valid
  | assert cond =>
    obtain ⟨f,known,grows,-⟩ := eager_assert_ok ok
    rw [grows.others h (by simpa using Nat.lt_succ_of_lt valid) valid.ne]
    exact Pool.follows_split_true known typed valid
  | assume cond =>
    obtain ⟨f,known,rfl,-⟩ := eager_assume_ok ok
    rw [p.required_state f valid]
    exact Pool.follows_required known typed
  | hollow => cases ok
  | ifElse | ifOnly | loop | block => cases simple

theorem eagerAll_returns {ss : List Stmt} (each : ∀ s ∈ ss, s.returns = true → Returns (eager solver s))
    (keeping : ∀ s ∈ ss, Keeping (eager solver s)) (last : Stmt.lastReturns ss = true) {previous : List Handle}
    (valid : h < p.states.size) (ok : eagerAll solver ss h previous p = .ok results q) (absent : h ∉ results) :
    ∀ i, (q.state h).path.holds i = false := by
  induction ss generalizing p previous with
  | nil => cases last
  | cons s ss ih =>
    obtain ⟨first,mid,explored,rest⟩ := eagerAll_ok ok
    cases ss with
    | nil =>
      cases rest
      exact each s (by simp) last h p _ _ valid explored absent
    | cons t ss =>
      have grows := (keeping s (by simp) h p first mid valid explored).grows
      exact ih (fun s member => each s (List.mem_cons_of_mem _ member))
        (fun s member => keeping s (List.mem_cons_of_mem _ member)) last (valid.trans_le grows.size) rest

theorem eager_returns (sound : solver.Sound) (s : Stmt) (free : s.invariantFree = true) (returns : s.returns = true) :
    Returns (eager solver s) := by
  induction s using Stmt.structural with
  | skip | printState | assign | assert | assume | havoc | hollow =>
    intro h p results q valid ok absent i
    rcases eager_simple_results rfl ok with rfl | rfl
    · simp at absent
    · unfold possible at absent
      split at absent
      next refused => exact sound _ i refused
      next => simp at absent
  | ifElse cond yes no left right =>
    simp only [Stmt.invariantFree,Stmt.every,Bool.true_and,Bool.and_eq_true] at free
    intro h p results q valid ok absent i
    obtain ⟨f,first,mid,second,-,entered,refused,rfl⟩ := eager_ifElse_ok ok
    have older := p.lt_split f valid
    have branched := (eager_keeping solver yes free.1).branched (eager_keeping solver no free.2) valid entered refused
    rw [branched.entered_state valid]
    exact (left free.1 returns).attempt sound h _ first mid older entered (fun member => absent (by simp [member])) i
  | ifOnly cond yes ih =>
    simp only [Stmt.invariantFree,Stmt.every,Bool.true_and] at free
    intro h p results q valid ok absent i
    obtain ⟨f,first,second,-,entered,-,rfl⟩ := eager_ifOnly_ok ok
    have older := p.lt_split f valid
    exact (ih free returns).attempt sound h _ first q older entered (fun member => absent (by simp [member])) i
  | loop cond body inv ih => cases returns
  | block items ih =>
    simp only [Stmt.invariantFree,Stmt.every,Bool.and_eq_true] at free
    have still := Stmt.everyOf_iff.mp free.2
    intro h p results q valid ok absent
    exact eagerAll_returns (fun s member => ih s member (still s member))
      (fun s member => eager_keeping solver s (still s member)) returns valid ok absent

theorem eagerAll_distinct {ss : List Stmt} (each : ∀ s ∈ ss, s.repeats = false → Distinct (eager solver s))
    (keeping : ∀ s ∈ ss, Keeping (eager solver s)) (last : Stmt.lastRepeats ss = false)
    (valid : h < p.states.size) {previous : List Handle} (before : ss = [] → previous.Nodup)
    (ok : eagerAll solver ss h previous p = .ok results q) : results.Nodup := by
  induction ss generalizing p previous with
  | nil => cases ok; exact before rfl
  | cons s ss ih =>
    obtain ⟨first,mid,explored,rest⟩ := eagerAll_ok ok
    cases ss with
    | nil =>
      cases rest
      exact each s (by simp) last h p _ _ valid explored
    | cons t ss =>
      have grows := (keeping s (by simp) h p first mid valid explored).grows
      exact ih (fun s member => each s (List.mem_cons_of_mem _ member))
        (fun s member => keeping s (List.mem_cons_of_mem _ member)) last (valid.trans_le grows.size) (by simp) rest

theorem eager_distinct (s : Stmt) (free : s.invariantFree = true) (distinct : s.repeats = false) :
    Distinct (eager solver s) := by
  induction s using Stmt.structural with
  | skip | printState | assign | assert | assume | havoc | hollow =>
    intro h p results q valid ok
    rcases eager_simple_results rfl ok with rfl | rfl
    · exact List.nodup_singleton h
    · exact nodup_possible
  | ifElse cond yes no left right =>
    simp only [Stmt.invariantFree,Stmt.every,Bool.true_and,Bool.and_eq_true] at free
    simp only [Stmt.repeats,Bool.or_eq_false_iff] at distinct
    intro h p results q valid ok
    obtain ⟨f,first,mid,second,-,entered,refused,rfl⟩ := eager_ifElse_ok ok
    have branched := (eager_keeping solver yes free.1).branched (eager_keeping solver no free.2) valid entered refused
    have one := (left free.1 distinct.1).attempt h _ first mid (p.lt_split f valid) entered
    have two := (right free.2 distinct.2).attempt _ mid second q branched.fork_lt refused
    -- A result of the second way that was there after the first is the fork, and the first does not give this.
    refine List.nodup_append'.mpr ⟨one,two,fun o here there => branched.apart o here ?_⟩
    exact branched.refused.own o there (branched.entered.valid o here)
  | ifOnly cond yes ih => cases distinct
  | loop cond body inv ih =>
    simp only [Stmt.invariantFree,Stmt.every,Bool.and_eq_true,Option.isNone_iff_eq_none] at free
    obtain ⟨rfl,free⟩ := free
    intro h p results q valid ok
    exact (unroll_tame (eager_keeping solver body free) (by simpa using valid) ok).2.2
  | block items ih =>
    simp only [Stmt.invariantFree,Stmt.every,Bool.and_eq_true] at free
    have still := Stmt.everyOf_iff.mp free.2
    intro h p results q valid ok
    exact eagerAll_distinct (fun s member => ih s member (still s member))
      (fun s member => eager_keeping solver s (still s member)) distinct valid (fun _ => .nil) ok

theorem eagerAll_turns {ss : List Stmt} (each : ∀ s ∈ ss, Turns (eager solver s) (s.Carried .anyhow))
    (keeping : ∀ s ∈ ss, Keeping (eager solver s)) {previous : List Handle} (valid : h < p.states.size)
    (ok : eagerAll solver ss h previous p = .ok results q) :
    (p.state h).Follows (Stmt.CarriedAll .anyhow ss) (q.state h) := by
  induction ss generalizing p previous with
  | nil =>
    cases ok
    exact .refl _
  | cons s ss ih =>
    obtain ⟨first,mid,explored,rest⟩ := eagerAll_ok ok
    have grows := (keeping s (by simp) h p first mid valid explored).grows
    have later := ih (fun s member => each s (by simp [member])) (fun s member => keeping s (by simp [member]))
      (valid.trans_le grows.size) rest
    exact (each s (by simp) h p first mid valid explored).trans later

/-- The entered state has gone through its own history. -/
theorem eager_turns (sound : solver.Sound) (s : Stmt) (typed : s.wellTyped = true) (free : s.invariantFree = true) :
    Turns (eager solver s) (s.Carried .anyhow) := by
  induction s using Stmt.structural with
  | skip | printState | assign | assert | assume | havoc | hollow => exact eager_simple_turns rfl typed
  | ifElse cond yes no left right =>
    simp only [Stmt.wellTyped,Stmt.invariantFree,Stmt.every,Stmt.sorted,Bool.true_and,Bool.and_eq_true] at typed free
    intro h p results q valid ok
    obtain ⟨f,first,mid,second,known,entered,refused,rfl⟩ := eager_ifElse_ok ok
    have older := p.lt_split f valid
    have branched := (eager_keeping solver yes free.1).branched (eager_keeping solver no free.2) valid entered refused
    rw [branched.entered_state valid]
    exact (Pool.follows_split_true known typed.1.1 valid).under
      ((left typed.1.2 free.1).attempt sound h _ first mid older entered)
  | ifOnly cond yes ih =>
    simp only [Stmt.wellTyped,Stmt.invariantFree,Stmt.every,Stmt.sorted,Bool.true_and,Bool.and_eq_true] at typed free
    intro h p results q valid ok
    obtain ⟨f,first,second,known,entered,-,rfl⟩ := eager_ifOnly_ok ok
    have older := p.lt_split f valid
    exact (Pool.follows_split_true known typed.1 valid).under
      ((ih typed.2 free).attempt sound h _ first q older entered)
  | loop cond body inv ih =>
    simp only [Stmt.wellTyped,Stmt.invariantFree,Stmt.every,Stmt.sorted,Bool.and_eq_true,
      Option.isNone_iff_eq_none] at typed free
    obtain ⟨rfl,free⟩ := free
    intro h p results q valid ok
    have turned := unroll_turns sound typed.1 (eager_keeping solver body free) (ih typed.2 free)
      (by simpa using valid) ok (List.mem_singleton_self h)
    refine turned.mono ?_
    rintro store final ⟨n,positive,enough,repeated⟩
    exact ⟨trivial,n,positive (by decide),fun returns => enough (eager_returns sound body free returns),repeated⟩
  | block items ih =>
    simp only [Stmt.wellTyped,Stmt.invariantFree,Stmt.every,Stmt.sorted,Bool.and_eq_true] at typed free
    have sorted := Stmt.everyOf_iff.mp typed.2
    have still := Stmt.everyOf_iff.mp free.2
    intro h p results q valid ok
    exact eagerAll_turns (fun s member => ih s member (sorted s member) (still s member))
      (fun s member => eager_keeping solver s (still s member)) valid ok

theorem eagerAll_justifies {ss : List Stmt} (each : ∀ s ∈ ss, Justifies (eager solver s) (s.Given .anyhow))
    (turns : ∀ s ∈ ss, Turns (eager solver s) (s.Carried .anyhow)) (keeping : ∀ s ∈ ss, Keeping (eager solver s))
    {previous : List Handle} (before : ss = [] → previous = []) (valid : h < p.states.size)
    (ok : eagerAll solver ss h previous p = .ok results q) :
    ∀ o ∈ results, (p.state h).Follows (Stmt.GivenLast .anyhow ss) (q.state o) := by
  induction ss generalizing p previous with
  | nil =>
    cases ok
    simp [before]
  | cons s ss ih =>
    obtain ⟨first,mid,explored,rest⟩ := eagerAll_ok ok
    cases ss with
    | nil =>
      cases rest
      exact each s (by simp) h p _ _ valid explored
    | cons t ss =>
      have grows := (keeping s (by simp) h p first mid valid explored).grows
      have later := ih (fun s member => each s (List.mem_cons_of_mem _ member))
        (fun s member => turns s (List.mem_cons_of_mem _ member))
        (fun s member => keeping s (List.mem_cons_of_mem _ member)) (by simp) (valid.trans_le grows.size) rest
      exact fun o member => (turns s (by simp) h p first mid valid explored).trans (later o member)

/-- Each result has gone through the history of a result. -/
theorem eager_justifies (sound : solver.Sound) (s : Stmt) (typed : s.wellTyped = true)
    (free : s.invariantFree = true) : Justifies (eager solver s) (s.Given .anyhow) := by
  induction s using Stmt.structural with
  | skip | printState | assign | assert | assume | havoc | hollow =>
    intro h p results q valid ok o member
    obtain rfl : o = h := by
      rcases eager_simple_results rfl ok with rfl | rfl
      · exact List.mem_singleton.mp member
      · exact mem_possible member
    exact eager_simple_turns rfl typed o p results q valid ok
  | ifElse cond yes no left right =>
    simp only [Stmt.wellTyped,Stmt.invariantFree,Stmt.every,Stmt.sorted,Bool.true_and,Bool.and_eq_true] at typed free
    intro h p results q valid ok o member
    obtain ⟨f,first,mid,second,known,entered,refused,rfl⟩ := eager_ifElse_ok ok
    have older := p.lt_split f valid
    have branched := (eager_keeping solver yes free.1).branched (eager_keeping solver no free.2) valid entered refused
    rcases List.mem_append.mp member with member | member
    · rw [branched.result_state member]
      refine State.Follows.mono ?_ fun _ _ => Or.inl
      exact (Pool.follows_split_true known typed.1.1 valid).under
        ((left typed.1.2 free.1).attempt h _ first mid older entered o member)
    · have given := (right typed.2 free.2).attempt _ mid second q branched.fork_lt refused o member
      rw [branched.fork_state valid] at given
      exact ((Pool.follows_split_false known typed.1.1 valid).under given).mono fun _ _ => Or.inr
  | ifOnly cond yes ih =>
    simp only [Stmt.wellTyped,Stmt.invariantFree,Stmt.every,Stmt.sorted,Bool.true_and,Bool.and_eq_true] at typed free
    intro h p results q valid ok o member
    obtain ⟨f,first,second,known,entered,only,rfl⟩ := eager_ifOnly_ok ok
    have older := p.lt_split f valid
    refine (Pool.follows_split_true known typed.1 valid).under ?_
    rcases List.mem_append.mp member with member | member
    · exact ((ih typed.2 free).attempt h _ first q older entered o member).mono fun _ _ => Or.inl
    · rw [only o member]
      have turned := (eager_turns sound yes typed.2 free).attempt sound h _ first q older entered
      exact turned.mono fun _ _ carried => .inr ⟨rfl,carried⟩
  | loop cond body inv ih =>
    simp only [Stmt.wellTyped,Stmt.invariantFree,Stmt.every,Stmt.sorted,Bool.and_eq_true,
      Option.isNone_iff_eq_none] at typed free
    obtain ⟨rfl,free⟩ := free
    intro h p results q valid ok
    have given : Justifies (eager solver body)
        (fun a b => body.Given .anyhow a b ∨ (body.repeats = true ∧ body.Carried .anyhow a b)) :=
      fun h p results q valid ok o member => (ih typed.2 free h p results q valid ok o member).mono fun _ _ => Or.inl
    refine unroll_justifies sound typed.1 (eager_keeping solver body free) (eager_turns sound body typed.2 free) given
      ?_ (by simpa using valid) ok fun k member => ?_
    · cases twice : body.repeats with
      | true => exact .inl fun a b carried => .inr ⟨rfl,carried⟩
      | false => exact .inr ⟨eager_distinct body free twice,List.nodup_singleton h⟩
    · cases List.mem_singleton.mp member
      exact (State.Follows.refl _).mono fun _ _ same => ⟨0,same⟩
  | block items ih =>
    simp only [Stmt.wellTyped,Stmt.invariantFree,Stmt.every,Stmt.sorted,Bool.and_eq_true] at typed free
    have sorted := Stmt.everyOf_iff.mp typed.2
    have still := Stmt.everyOf_iff.mp free.2
    intro h p results q valid ok
    exact eagerAll_justifies (fun s member => ih s member (sorted s member) (still s member))
      (fun s member => eager_turns sound s (sorted s member) (still s member))
      (fun s member => eager_keeping solver s (still s member)) (fun _ => rfl) valid ok

end Statements

end WhileExec.Symbolic
