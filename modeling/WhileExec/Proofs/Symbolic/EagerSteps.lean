import Mathlib
import WhileExec.Symbolic.Eager
import WhileExec.Proofs.Symbolic.Representation

/-!
# Steps of eager exploration

What each statement has done once it has given its results: one inversion lemma a statement, for loops without
invariants. From these follows what every statement leaves alone. Of the states that were there only the entered
one is changed, and each result is the entered state or a new one.
-/

namespace WhileExec.Symbolic

open Explore (bind_ok formula_ok)

namespace Eager

variable {solver : Solver} {cond : Expr} {p q : Pool} {h : Handle}

/-- Goes on only if the state is possible. -/
def attempt (solver : Solver) (explore : Handle → Explore (List Handle)) (h : Handle) : Explore (List Handle) := do
  if ← Explore.isEmpty solver h then pure [] else explore h

theorem attempt_apply (explore : Handle → Explore (List Handle)) :
    attempt solver explore h p = if solver.unsat (p.state h).path then .ok [] p else explore h p := by
  change (if solver.unsat (p.state h).path then pure [] else explore h : Explore (List Handle)) p = _
  split <;> rfl

theorem split_ok {α : Type} {next : Formula → Handle → Explore α} {a : α}
    (ok : (do
      let f ← Explore.formula .flat h cond
      let other ← Explore.fork h
      Explore.require h f
      Explore.require other (.not f)
      next f other) p = .ok a q) :
    ∃ f, p.formula .flat h cond = .ok f ∧ next f p.states.size (p.split h f) = .ok a q := by
  obtain ⟨f,r,evaluated,rest⟩ := bind_ok ok
  obtain ⟨known,rfl⟩ := formula_ok evaluated
  obtain ⟨other,r,forked,last⟩ := bind_ok rest
  cases forked
  exact ⟨f,known,last⟩

theorem attempt_ok {α : Type} {explore : Handle → Explore (List Handle)} {next : List Handle → Explore α} {a : α}
    (ok : (do
      let results ← if ← Explore.isEmpty solver h then pure [] else explore h
      next results) p = .ok a q) :
    ∃ results mid, attempt solver explore h p = .ok results mid ∧ next results mid = .ok a q := by
  obtain ⟨empty,r,asked,rest⟩ := bind_ok ok
  cases asked
  rw [attempt_apply]
  cases refused : solver.unsat (p.state h).path with
  | true =>
    rw [refused] at rest
    exact ⟨[],p,rfl,rest⟩
  | false =>
    rw [refused] at rest
    exact bind_ok rest

/-- The states that are possible of those given. -/
def possible (solver : Solver) (p : Pool) (h : Handle) : List Handle :=
  if solver.unsat (p.state h).path then [] else [h]

theorem nodup_possible : (possible solver p h).Nodup := by
  unfold possible
  split <;> simp

theorem mem_possible {o : Handle} (member : o ∈ possible solver p h) : o = h := by
  unfold possible at member
  split at member
  · cases member
  · exact List.mem_singleton.mp member

theorem advance_ok {body : Handle → Explore (List Handle)} {left entered : List Handle}
    (ok : advance solver cond body h p = .ok (left,entered) q) :
    ∃ f, p.formula .flat h cond = .ok f ∧ attempt solver body h (p.split h f) = .ok entered q ∧
      left = possible solver (p.split h f) p.states.size := by
  obtain ⟨f,known,rest⟩ := split_ok ok
  obtain ⟨refused,r,asked,rest⟩ := bind_ok rest
  cases asked
  obtain ⟨results,mid,attempted,rest⟩ := attempt_ok rest
  cases rest
  exact ⟨f,known,attempted,rfl⟩

theorem round_ok {body : Handle → Explore (List Handle)} {hs left entered : List Handle}
    (ok : round solver cond body (h :: hs) p = .ok (left,entered) q) :
    ∃ first mid rest, advance solver cond body h p = .ok first mid ∧ round solver cond body hs mid = .ok rest q ∧
      left = first.1 ++ rest.1 ∧ entered = first.2 ++ rest.2 := by
  obtain ⟨first,mid,advanced,rest⟩ := bind_ok ok
  obtain ⟨others,r,later,rest⟩ := bind_ok rest
  cases rest
  exact ⟨first,mid,others,advanced,later,rfl,rfl⟩

theorem unroll_ok {body : Handle → Explore (List Handle)} {rounds : Nat} {hs results : List Handle}
    (ok : unroll solver cond body (rounds + 1) hs p = .ok results q) :
    ∃ left entered mid rest, round solver cond body hs p = .ok (left,entered) mid ∧
      unroll solver cond body rounds entered mid = .ok rest q ∧ results = left ++ rest := by
  obtain ⟨⟨left,entered⟩,mid,advanced,rest⟩ := bind_ok ok
  obtain ⟨others,r,later,rest⟩ := bind_ok rest
  cases rest
  exact ⟨left,entered,mid,others,advanced,later,rfl⟩

end Eager

open Eager

section Inversion

variable {solver : Solver} {p q : Pool} {h : Handle} {results : List Handle}

theorem eager_assign_ok {name : String} {rhs : Expr} (ok : eager solver (.assign name rhs) h p = .ok results q) :
    ∃ t, p.term .flat h rhs = .ok t ∧ q = p.assigned h name t ∧ results = [h] := by
  obtain ⟨_,r,assigned,rest⟩ := bind_ok ok
  cases rest
  rw [Explore.assign_apply] at assigned
  cases known : p.term .flat h rhs with
  | error fault => rw [known] at assigned; cases assigned
  | ok t => rw [known] at assigned; cases assigned; exact ⟨t,rfl,rfl,rfl⟩

theorem eager_havoc_ok {names : List String} (ok : eager solver (.havoc names) h p = .ok results q) :
    q = p.havocked h names ∧ results = [h] := by
  obtain ⟨_,r,havocked,rest⟩ := bind_ok ok
  cases rest
  rw [Explore.havoc_apply] at havocked
  cases havocked
  exact ⟨rfl,rfl⟩

theorem eager_ifElse_ok {cond : Expr} {yes no : Stmt} (ok : eager solver (.ifElse cond yes no) h p = .ok results q) :
    ∃ f first mid second, p.formula .flat h cond = .ok f ∧
      attempt solver (eager solver yes) h (p.split h f) = .ok first mid ∧
      attempt solver (eager solver no) p.states.size mid = .ok second q ∧ results = first ++ second := by
  obtain ⟨f,known,rest⟩ := split_ok ok
  obtain ⟨first,mid,entered,rest⟩ := attempt_ok rest
  obtain ⟨second,r,left,rest⟩ := attempt_ok rest
  cases rest
  exact ⟨f,first,mid,second,known,entered,left,rfl⟩

/-- For the other case, if it is possible, the entered state is given, as it is by then. -/
theorem eager_ifOnly_given {cond : Expr} {yes : Stmt} (ok : eager solver (.ifOnly cond yes) h p = .ok results q) :
    ∃ f first, p.formula .flat h cond = .ok f ∧ attempt solver (eager solver yes) h (p.split h f) = .ok first q ∧
      results = first ++ if solver.unsat (q.state p.states.size).path then [] else [h] := by
  obtain ⟨f,known,rest⟩ := split_ok ok
  obtain ⟨first,mid,entered,rest⟩ := attempt_ok rest
  obtain ⟨refused,r,asked,rest⟩ := bind_ok rest
  cases asked
  cases rest
  exact ⟨f,first,known,entered,rfl⟩

theorem eager_ifOnly_ok {cond : Expr} {yes : Stmt} (ok : eager solver (.ifOnly cond yes) h p = .ok results q) :
    ∃ f first second, p.formula .flat h cond = .ok f ∧
      attempt solver (eager solver yes) h (p.split h f) = .ok first q ∧ (∀ o ∈ second, o = h) ∧
      results = first ++ second := by
  obtain ⟨f,first,known,entered,rfl⟩ := eager_ifOnly_given ok
  refine ⟨f,first,_,known,entered,fun o member => ?_,rfl⟩
  split at member
  · cases member
  · exact List.mem_singleton.mp member

theorem eager_assert_ok {cond : Expr} (ok : eager solver (.assert cond) h p = .ok results q) :
    ∃ f, p.formula .flat h cond = .ok f ∧ (p.split h f).Grows {p.states.size} q ∧ results = possible solver q h := by
  obtain ⟨f,known,rest⟩ := split_ok ok
  refine ⟨f,known,?_⟩
  obtain ⟨empty,r,asked,rest⟩ := bind_ok rest
  cases asked
  cases refused : solver.unsat ((p.split h f).state p.states.size).path with
  | true =>
    rw [refused] at rest
    obtain ⟨_,r,asked,rest⟩ := bind_ok rest
    cases asked
    cases rest
    exact ⟨.refl _ _,rfl⟩
  | false =>
    rw [refused] at rest
    obtain ⟨_,r,printed,rest⟩ := bind_ok rest
    cases printed
    obtain ⟨_,r,marked,rest⟩ := bind_ok rest
    cases marked
    obtain ⟨_,r,asked,rest⟩ := bind_ok rest
    cases asked
    cases rest
    exact ⟨((Pool.Grows.printed _ _).widen (Set.empty_subset _)).trans_same (.marked _ _),rfl⟩

theorem eager_assume_ok {cond : Expr} (ok : eager solver (.assume cond) h p = .ok results q) :
    ∃ f, p.formula .flat h cond = .ok f ∧ q = p.required h f ∧ results = possible solver (p.required h f) h := by
  obtain ⟨f,r,evaluated,rest⟩ := bind_ok ok
  obtain ⟨known,rfl⟩ := formula_ok evaluated
  obtain ⟨_,r,required,last⟩ := bind_ok rest
  cases required
  cases last
  exact ⟨f,known,rfl,rfl⟩

theorem eagerAll_ok {s : Stmt} {ss : List Stmt} {previous : List Handle}
    (ok : eagerAll solver (s :: ss) h previous p = .ok results q) :
    ∃ first mid, eager solver s h p = .ok first mid ∧ eagerAll solver ss h first mid = .ok results q :=
  bind_ok ok

end Inversion

namespace Eager

/-- While results were found, of the states there were only those owned have changed, and the other results are
new. -/
structure Tame (owned : Set Handle) (p : Pool) (results : List Handle) (q : Pool) : Prop where
  grows : p.Grows owned q
  valid : ∀ o ∈ results, o < q.states.size
  own : ∀ o ∈ results, o < p.states.size → o ∈ owned

def Keeping (explore : Handle → Explore (List Handle)) : Prop :=
  ∀ h p results q, h < p.states.size → explore h p = .ok results q → Tame {h} p results q

variable {solver : Solver} {cond : Expr} {explore body : Handle → Explore (List Handle)} {p q r : Pool} {h : Handle}
  {results : List Handle}

theorem Tame.after {owned later : Set Handle} (tame : Tame later q results r) (grows : p.Grows owned q)
    (within : ∀ k ∈ later, k < p.states.size → k ∈ owned) : Tame owned p results r :=
  ⟨grows.trans tame.grows within,tame.valid,fun o member old =>
    within o (tame.own o member (old.trans_le grows.size)) old⟩

theorem Tame.append {owned : Set Handle} {others : List Handle} (first : Tame owned p results q)
    (second : Tame owned p others q) : Tame owned p (results ++ others) q := by
  refine ⟨first.grows,fun o member => ?_,fun o member => ?_⟩ <;> rcases List.mem_append.mp member with member | member
  · exact first.valid o member
  · exact second.valid o member
  · exact first.own o member
  · exact second.own o member

theorem Tame.single (grows : p.Grows {h} q) (valid : h < p.states.size) (only : ∀ o ∈ results, o = h) :
    Tame {h} p results q :=
  ⟨grows,fun o member => only o member ▸ valid.trans_le grows.size,fun o member _ => only o member⟩

theorem Keeping.attempt (keeping : Keeping explore) (valid : h < p.states.size)
    (ok : attempt solver explore h p = .ok results q) : Tame {h} p results q := by
  rw [attempt_apply] at ok
  split at ok
  · cases ok
    exact ⟨.refl _ _,by simp,by simp⟩
  · exact keeping h p results q valid ok

/-- The two ways of a branch, one after the other. The second leaves alone what the first has given. -/
structure Branched (h : Handle) (f : Formula) (p : Pool) (first : List Handle) (mid : Pool) (second : List Handle)
    (q : Pool) : Prop where
  entered : Tame {h} (p.split h f) first mid
  refused : Tame {p.states.size} mid second q
  apart : ∀ o ∈ first, o ≠ p.states.size

theorem Keeping.branched {yes no : Handle → Explore (List Handle)} (one : Keeping yes) (two : Keeping no)
    (valid : h < p.states.size) {f : Formula} {first second : List Handle} {mid : Pool}
    (entered : Eager.attempt solver yes h (p.split h f) = .ok first mid)
    (refused : Eager.attempt solver no p.states.size mid = .ok second q) : Branched h f p first mid second q := by
  have tame := one.attempt (p.lt_split f valid) entered
  have size : p.states.size < mid.states.size := lt_of_lt_of_le (by simp) tame.grows.size
  refine ⟨tame,two.attempt size refused,?_⟩
  rintro o member rfl
  exact valid.ne' (tame.own _ member (by simp))

namespace Branched

variable {f : Formula} {first second : List Handle} {mid : Pool}

theorem fork_lt (branched : Branched h f p first mid second q) : p.states.size < mid.states.size :=
  lt_of_lt_of_le (by simp) branched.entered.grows.size

theorem fork_state (branched : Branched h f p first mid second q) (valid : h < p.states.size) :
    mid.state p.states.size = (p.split h f).state p.states.size :=
  branched.entered.grows.others _ (by simp) valid.ne'

theorem result_state (branched : Branched h f p first mid second q) {o : Handle} (member : o ∈ first) :
    q.state o = mid.state o :=
  branched.refused.grows.others o (branched.entered.valid o member) (branched.apart o member)

theorem entered_state (branched : Branched h f p first mid second q) (valid : h < p.states.size) :
    q.state h = mid.state h :=
  branched.refused.grows.others h (valid.trans branched.fork_lt) valid.ne

end Branched

/-- The states that leave a loop are new and distinct, and none of them is among those that go on in it. -/
structure Round (owned : Set Handle) (p : Pool) (left entered : List Handle) (q : Pool) : Prop where
  tame : Tame owned p entered q
  new : ∀ o ∈ left, p.states.size ≤ o
  valid : ∀ o ∈ left, o < q.states.size
  apart : ∀ o ∈ left, o ∉ entered
  nodup : left.Nodup

theorem advance_round (keeping : Keeping body) (valid : h < p.states.size) {left entered : List Handle}
    (ok : advance solver cond body h p = .ok (left,entered) q) : Round {h} p left entered q := by
  obtain ⟨f,-,attempted,rfl⟩ := advance_ok ok
  have older := p.lt_split f valid
  have tame := keeping.attempt older attempted
  have size : p.states.size < q.states.size := lt_of_lt_of_le (by simp) tame.grows.size
  refine ⟨tame.after (.split p h f) fun k same _ => same,fun o member => ?_,fun o member => ?_,
    fun o member inside => ?_,nodup_possible⟩
  · exact (mem_possible member).ge
  · exact mem_possible member ▸ size
  · cases mem_possible member
    exact valid.ne' (tame.own _ inside (by simp))

/-- The first state is advanced, and the rest of the round is still valid after that. -/
theorem round_cons (keeping : Keeping body) {hs left entered : List Handle} (valid : ∀ k ∈ h :: hs, k < p.states.size)
    (ok : round solver cond body (h :: hs) p = .ok (left,entered) q) :
    ∃ left₁ entered₁ mid left₂ entered₂, advance solver cond body h p = .ok (left₁,entered₁) mid ∧
      round solver cond body hs mid = .ok (left₂,entered₂) q ∧ Round {h} p left₁ entered₁ mid ∧
      (∀ k ∈ hs, k < mid.states.size) ∧ left = left₁ ++ left₂ ∧ entered = entered₁ ++ entered₂ := by
  obtain ⟨⟨left₁,entered₁⟩,mid,⟨left₂,entered₂⟩,advanced,rounded,split⟩ := round_ok ok
  have first := advance_round keeping (valid h (by simp)) advanced
  refine ⟨left₁,entered₁,mid,left₂,entered₂,advanced,rounded,first,fun k member => ?_,split⟩
  exact (valid k (by simp [member])).trans_le first.tame.grows.size

theorem round_round (keeping : Keeping body) {hs left entered : List Handle} (valid : ∀ k ∈ hs, k < p.states.size)
    (ok : round solver cond body hs p = .ok (left,entered) q) : Round {k | k ∈ hs} p left entered q := by
  induction hs generalizing p left entered with
  | nil =>
    cases ok
    exact ⟨⟨.refl _ _,by simp,by simp⟩,by simp,by simp,by simp,.nil⟩
  | cons h hs ih =>
    obtain ⟨left₁,entered₁,mid,left₂,entered₂,-,rounded,first,inside,rfl,rfl⟩ := round_cons keeping valid ok
    have grows := first.tame.grows
    have second := ih inside rounded
    have more : p.Grows {k | k ∈ h :: hs} mid := grows.widen fun k same => by simp [Set.mem_singleton_iff.mp same]
    have later := second.tame.after more fun k member _ => List.mem_cons_of_mem h member
    have early : Tame {k | k ∈ h :: hs} p entered₁ q :=
      ⟨later.grows,fun o member => (first.tame.valid o member).trans_le second.tame.grows.size,
        fun o member old => by simp [Set.mem_singleton_iff.mp (first.tame.own o member old)]⟩
    have disjoint : left₁.Disjoint left₂ := fun o here there =>
      absurd (first.valid o here) (Nat.not_lt.mpr (second.new o there))
    refine ⟨early.append later,?_,?_,?_,List.nodup_append'.mpr ⟨first.nodup,second.nodup,disjoint⟩⟩ <;>
      intro o member <;> rcases List.mem_append.mp member with member | member
    · exact first.new o member
    · exact grows.size.trans (second.new o member)
    · exact (first.valid o member).trans_le second.tame.grows.size
    · exact second.valid o member
    · intro inside
      rcases List.mem_append.mp inside with inside | inside
      · exact first.apart o member inside
      · have old := second.tame.own o inside (first.valid o member)
        exact absurd (valid o (List.mem_cons_of_mem h old)) (Nat.not_lt.mpr (first.new o member))
    · intro inside
      rcases List.mem_append.mp inside with inside | inside
      · exact absurd (first.tame.valid o inside) (Nat.not_lt.mpr (second.new o member))
      · exact second.apart o member inside

theorem unroll_tame (keeping : Keeping body) {rounds : Nat} {hs : List Handle} (valid : ∀ k ∈ hs, k < p.states.size)
    (ok : unroll solver cond body rounds hs p = .ok results q) :
    Tame {k | k ∈ hs} p results q ∧ (∀ o ∈ results, p.states.size ≤ o) ∧ results.Nodup := by
  induction rounds generalizing p hs results with
  | zero =>
    cases ok
    exact ⟨⟨.refl _ _,by simp,by simp⟩,by simp,.nil⟩
  | succ rounds ih =>
    obtain ⟨left,entered,mid,rest,rounded,unrolled,rfl⟩ := unroll_ok ok
    have round := round_round keeping valid rounded
    obtain ⟨tame,new,nodup⟩ := ih round.tame.valid unrolled
    have later := tame.after round.tame.grows fun k member old => round.tame.own k member old
    have early : Tame {k | k ∈ hs} p left q :=
      ⟨later.grows,fun o member => (round.valid o member).trans_le tame.grows.size,
        fun o member old => absurd old (Nat.not_lt.mpr (round.new o member))⟩
    have disjoint : left.Disjoint rest := fun o here there =>
      absurd (round.valid o here) (Nat.not_lt.mpr (new o there))
    refine ⟨early.append later,fun o member => ?_,List.nodup_append'.mpr ⟨round.nodup,nodup,disjoint⟩⟩
    rcases List.mem_append.mp member with member | member
    · exact round.new o member
    · exact round.tame.grows.size.trans (new o member)

end Eager

theorem eagerAll_tame {solver : Solver} {ss : List Stmt} (each : ∀ s ∈ ss, Keeping (eager solver s)) {h : Handle}
    {p r q : Pool} {previous results : List Handle} (valid : h < p.states.size) (before : Tame {h} p previous r)
    (ok : eagerAll solver ss h previous r = .ok results q) : Tame {h} p results q := by
  induction ss generalizing r previous with
  | nil =>
    cases ok
    exact before
  | cons s ss ih =>
    obtain ⟨first,mid,explored,rest⟩ := eagerAll_ok ok
    have step := each s (by simp) h r first mid (valid.trans_le before.grows.size) explored
    exact ih (fun s member => each s (by simp [member])) (step.after before.grows fun k same _ => same) rest

theorem eager_keeping (solver : Solver) (s : Stmt) (free : s.invariantFree = true) : Keeping (eager solver s) := by
  induction s using Stmt.structural with
  | skip =>
    intro h p results q valid ok
    cases ok
    exact .single (.refl _ _) valid (by simp)
  | printState =>
    intro h p results q valid ok
    cases ok
    exact .single ((Pool.Grows.printed _ _).widen (Set.empty_subset _)) valid (by simp)
  | assign name rhs =>
    intro h p results q valid ok
    obtain ⟨t,-,rfl,rfl⟩ := eager_assign_ok ok
    exact .single (.assigned p h name t) valid (by simp)
  | ifElse cond yes no left right =>
    simp only [Stmt.invariantFree,Stmt.every,Bool.true_and,Bool.and_eq_true] at free
    intro h p results q valid ok
    obtain ⟨f,first,mid,second,-,entered,refused,rfl⟩ := eager_ifElse_ok ok
    have branched := (left free.1).branched (right free.2) valid entered refused
    have one := branched.entered.after (.split p h f) fun k same _ => same
    have later := branched.refused.after one.grows fun k new old => absurd (new ▸ old) (lt_irrefl _)
    have early : Tame {h} p first q :=
      ⟨later.grows,fun o member => (one.valid o member).trans_le branched.refused.grows.size,one.own⟩
    exact early.append later
  | ifOnly cond yes ih =>
    simp only [Stmt.invariantFree,Stmt.every,Bool.true_and] at free
    intro h p results q valid ok
    obtain ⟨f,first,second,-,entered,only,rfl⟩ := eager_ifOnly_ok ok
    have older := p.lt_split f valid
    have one := ((ih free).attempt older entered).after (.split p h f) fun k same _ => same
    exact one.append (.single one.grows valid only)
  | loop cond body inv ih =>
    simp only [Stmt.invariantFree,Stmt.every,Bool.and_eq_true,Option.isNone_iff_eq_none] at free
    obtain ⟨rfl,free⟩ := free
    intro h p results q valid ok
    obtain ⟨tame,-⟩ := unroll_tame (ih free) (by simpa using valid) ok
    exact ⟨tame.grows.widen fun k member => by simpa using member,tame.valid,fun o member old => by
      simpa using tame.own o member old⟩
  | assert cond =>
    intro h p results q valid ok
    obtain ⟨f,-,grows,rfl⟩ := eager_assert_ok ok
    refine .single ((Pool.Grows.split p h f).trans grows fun k new old => ?_) valid fun o => mem_possible
    exact absurd (new ▸ old) (lt_irrefl _)
  | assume cond =>
    intro h p results q valid ok
    obtain ⟨f,-,rfl,rfl⟩ := eager_assume_ok ok
    exact .single (.required p h f) valid fun o => mem_possible
  | havoc names =>
    intro h p results q valid ok
    obtain ⟨rfl,rfl⟩ := eager_havoc_ok ok
    exact .single (.havocked p h names) valid (by simp)
  | block items ih =>
    simp only [Stmt.invariantFree,Stmt.every,Bool.and_eq_true] at free
    intro h p results q valid ok
    exact eagerAll_tame (fun s member => ih s member (Stmt.everyOf_iff.mp free.2 s member)) valid
      (.single (.refl _ p) valid (by simp)) ok
  | hollow => intro h p results q valid ok; cases ok

end WhileExec.Symbolic
