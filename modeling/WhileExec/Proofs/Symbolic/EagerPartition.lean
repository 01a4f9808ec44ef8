import Mathlib
import WhileExec.Proofs.Symbolic.CourseSeparation
import WhileExec.Proofs.Symbolic.EngineAgreement

/-!
# How eager exploration divides a state

A statement without lists divides the state that it is entered with: what it gives is possible and distinct, and no
interpretation satisfies the paths of two results, since their courses have parted.

A branch without an alternative spoils this. Where its condition may fail it gives the entered state, which has taken
the other way; if there was no loop on that way, the state was given already or it is impossible. So the question is
whether a course can go past such a branch. If none can, the alternative might as well be there, and the statement
divides its state. A statement without loops divides it in no other case.
-/

namespace WhileExec

/-- No block occurs, and no loop with an invariant. -/
def Stmt.single (s : Stmt) : Bool :=
  s.every fun
    | .block _ | .hollow | .loop _ _ (some _) => false
    | _ => true

def Stmt.loopFree (s : Stmt) : Bool :=
  s.every fun
    | .loop _ _ _ => false
    | _ => true

theorem Stmt.single_invariantFree {s : Stmt} (single : s.single = true) : s.invariantFree = true := by
  apply Stmt.every_mono _ single
  intro s
  cases s with
  | loop cond body inv => cases inv <;> simp
  | _ => simp

namespace Symbolic

namespace Going

/-- Courses of either kind. -/
def either (G H : Going) : Going := fun joining c a b => G joining c a b ∨ H joining c a b

/-- What courses come to in one of a number of iterations of a loop. -/
def inside (cond : Expr) (body inner : Going) : Nat → Going
  | 0 => never
  | turns + 1 => fork cond (either inner (body.andThen (inside cond body inner turns))) never

/-- No course from the state ends in a possible state. -/
def Barred (G : Going) (a : State) : Prop :=
  ∀ c b, G .flat c a b → ∀ i, b.path.holds i = false

namespace Barred

variable {G H : Going} {cond : Expr} {a b : State} {f : Formula}

theorem never : never.Barred a := fun _ _ none => none.elim

theorem fork (known : a.formula .flat cond = .ok f) (yes : G.Barred (a.require f))
    (no : H.Barred (a.forked.require (.not f))) : (fork cond G H).Barred a := by
  rintro c b ⟨g,known',⟨d,-,taken⟩ | ⟨d,-,refused⟩⟩ <;> cases known.symm.trans known'
  · exact yes d b taken
  · exact no d b refused

theorem taken (barred : (Going.fork cond G H).Barred a) (known : a.formula .flat cond = .ok f) :
    G.Barred (a.require f) :=
  fun c b going => barred (.took true :: c) b ⟨f,known,.inl ⟨c,rfl,going⟩⟩

theorem refused (barred : (Going.fork cond G H).Barred a) (known : a.formula .flat cond = .ok f) :
    H.Barred (a.forked.require (.not f)) :=
  fun c b going => barred (.took false :: c) b ⟨f,known,.inr ⟨c,rfl,going⟩⟩

theorem later {body inner : Going} {turns : Nat} (barred : (inside cond body inner (turns + 1)).Barred a) {c : Course}
    (going : Going.fork cond body .never .flat c a b) : (inside cond body inner turns).Barred b := by
  intro d last rest
  obtain ⟨f,known,⟨c,rfl,taken⟩ | ⟨c,-,none⟩⟩ := going
  · exact barred.taken known (c ++ d) last (.inr ⟨c,d,b,rfl,taken,rest⟩)
  · exact none.elim

theorem first {body inner : Going} {turns : Nat} (barred : (inside cond body inner (turns + 1)).Barred a)
    (known : a.formula .flat cond = .ok f) : inner.Barred (a.require f) :=
  fun c b going => barred.taken known c b (.inl going)

/-- Nothing that starts inside the loop ends in a possible state. -/
theorem inside {body inner : Going} (all : ∀ a, inner.Barred a) (turns : Nat) :
    (Going.inside cond body inner turns).Barred a := by
  induction turns generalizing a with
  | zero => exact never
  | succ turns ih =>
    rintro c b ⟨f,known,⟨d,-,here | ⟨d₁,d₂,mid,-,-,there⟩⟩ | ⟨d,-,none⟩⟩
    · exact all _ d b here
    · exact ih d₂ b there
    · exact none.elim

end Barred

end Going

/-- Courses that come to a branch without an alternative and go past it. What they do behind it is left open. -/
def straying (bound : Nat) : Stmt → Going
  | .ifElse cond yes no => .fork cond (straying bound yes) (straying bound no)
  | .ifOnly cond yes => .fork cond (straying bound yes) .stay
  | .loop cond body _ => .inside cond (going bound body) (straying bound body) (bound + 1)
  | _ => .never

end Symbolic

/-- The statement with an empty alternative for each branch that has none. -/
def Stmt.closed : Stmt → Stmt
  | .ifElse cond yes no => .ifElse cond yes.closed no.closed
  | .ifOnly cond yes => .ifElse cond yes.closed .skip
  | .loop cond body inv => .loop cond body.closed inv
  | s => s

theorem Stmt.closed_listFree {s : Stmt} (single : s.single = true) : s.closed.listFree = true := by
  induction s using Stmt.structural with
  | ifElse cond yes no left right =>
    simp only [Stmt.single,every,Bool.true_and,Bool.and_eq_true] at single
    simp only [closed,listFree,every,Bool.true_and,Bool.and_eq_true]
    exact ⟨left single.1,right single.2⟩
  | ifOnly cond yes ih =>
    simp only [Stmt.single,every,Bool.true_and] at single
    simp only [closed,listFree,every,Bool.true_and,Bool.and_true]
    exact ih single
  | loop cond body inv ih =>
    cases inv with
    | none =>
      simp only [Stmt.single,every,Bool.true_and] at single
      simp only [closed,listFree,every,Bool.true_and]
      exact ih single
    | some inv => simp [Stmt.single,every] at single
  | block | hollow => simp [Stmt.single,every] at single
  | _ => rfl

namespace Symbolic

theorem going_closed (bound : Nat) (s : Stmt) : going bound s.closed = going bound s := by
  induction s using Stmt.structural with
  | ifElse cond yes no left right => rw [Stmt.closed,going,going,left,right]
  | ifOnly cond yes ih => rw [Stmt.closed,going,going,going,ih]
  | loop cond body inv ih => rw [Stmt.closed,going,going,ih]
  | _ => rfl

namespace Explore

variable {α β : Type} {p : Pool}

theorem bind_congr {action action' : Explore α} {next next' : α → Explore β} (same : action p = action' p)
    (later : ∀ a q, action' p = .ok a q → next a q = next' a q) : (action >>= next) p = (action' >>= next') p := by
  change action.bind next p = action'.bind next' p
  unfold EStateM.bind
  rw [same]
  cases known : action' p with
  | ok a q => exact later a q known
  | error fault q => rfl

end Explore

namespace Eager

variable {α : Type} {solver : Solver} {cond : Expr} {p q : Pool} {h : Handle}
  {explore explore' body body' : Handle → Explore (List Handle)}

theorem split_congr {next next' : Formula → Handle → Explore α}
    (same : ∀ f, p.formula .flat h cond = .ok f →
      next f p.states.size (p.split h f) = next' f p.states.size (p.split h f)) :
    (do
      let f ← Explore.formula .flat h cond
      let other ← Explore.fork h
      Explore.require h f
      Explore.require other (.not f)
      next f other) p =
    (do
      let f ← Explore.formula .flat h cond
      let other ← Explore.fork h
      Explore.require h f
      Explore.require other (.not f)
      next' f other) p := by
  apply Explore.bind_congr rfl
  intro f q evaluated
  obtain ⟨known,rfl⟩ := Explore.formula_ok evaluated
  exact same f known

theorem attempt_congr {next next' : List Handle → Explore α}
    (same : solver.unsat (p.state h).path = false → explore h p = explore' h p)
    (later : ∀ results mid, attempt solver explore' h p = .ok results mid → next results mid = next' results mid) :
    (do
      let results ← if ← Explore.isEmpty solver h then pure [] else explore h
      next results) p =
    (do
      let results ← if ← Explore.isEmpty solver h then pure [] else explore' h
      next' results) p := by
  apply Explore.bind_congr rfl
  intro empty q asked
  cases asked
  rw [attempt_apply] at later
  cases refused : solver.unsat (p.state h).path with
  | true =>
    rw [refused] at later
    exact later [] p rfl
  | false =>
    rw [refused] at later
    exact Explore.bind_congr (same refused) later

/-- The fork that refuses a condition is as it was made, while the other state goes on. -/
theorem refused_state {f : Formula} (valid : h < p.states.size) (grows : (p.split h f).Grows {h} q) :
    q.state p.states.size = (p.state h).forked.require (.not f) := by
  rw [grows.others _ (by simp) valid.ne',p.split_new f valid,p.forked_new]
  rfl

/-- One state of a round, with a body that is as good as the other from the state that enters it. -/
theorem advance_congr (same : ∀ f, p.formula .flat h cond = .ok f → body h (p.split h f) = body' h (p.split h f)) :
    advance solver cond body h p = advance solver cond body' h p := by
  apply split_congr
  intro f known
  apply Explore.bind_congr rfl
  intro empty q asked
  cases asked
  apply attempt_congr
  · intro _
    exact same f known
  · intro results mid _
    rfl

/-- Where no course strays, the body with the alternatives does the same. -/
def Closes (inner : Going) (body body' : Handle → Explore (List Handle)) : Prop :=
  ∀ h p, h < p.states.size → inner.Barred (p.state h) → body h p = body' h p

variable {G inner : Going} {turns : Nat} {hs : List Handle}

theorem Closes.round (closes : Closes inner body body') (keeping : Keeping body') (distinct : hs.Nodup)
    (valid : ∀ k ∈ hs, k < p.states.size)
    (barred : ∀ k ∈ hs, (Going.inside cond G inner (turns + 1)).Barred (p.state k)) :
    round solver cond body hs p = round solver cond body' hs p := by
  induction hs generalizing p with
  | nil => rfl
  | cons h hs ih =>
    have old := valid h (by simp)
    apply Explore.bind_congr
    · apply advance_congr
      intro f known
      apply closes h _ (p.lt_split f old)
      rw [p.split_state f old]
      exact (barred h (by simp)).first known
    · rintro ⟨left,entered⟩ mid advanced
      have grows := (advance_round keeping old advanced).tame.grows
      obtain ⟨new,distinct⟩ := List.nodup_cons.mp distinct
      refine Explore.bind_congr (ih distinct (fun k member => ?_) fun k member => ?_) fun _ _ _ => rfl
      · exact (valid k (by simp [member])).trans_le grows.size
      · rw [grows.others k (valid k (by simp [member])) fun same => new (Set.mem_singleton_iff.mp same ▸ member)]
        exact barred k (by simp [member])

/-- The states that are in the loop after a round come of courses on which nothing strays later. -/
theorem Closes.unroll (exact : solver.Exact) (guided : G.Guided) (traces : Traces G body') (keeping : Keeping body')
    (closes : Closes inner body body') {xs : Family} (known : Known p xs)
    (barred : ∀ x ∈ xs, (Going.inside cond G inner turns).Barred (p.state x.1)) :
    unroll solver cond body turns (xs.map (·.1)) p = unroll solver cond body' turns (xs.map (·.1)) p := by
  induction turns generalizing p xs with
  | zero => rfl
  | succ turns ih =>
    apply Explore.bind_congr
    · have each : ∀ k ∈ xs.map (·.1), (Going.inside cond G inner (turns + 1)).Barred (p.state k) := by
        simpa using barred
      have distinct : (xs.map (·.1)).Nodup := List.pairwise_map.mpr (known.apart.imp fun apart => apart.1)
      exact closes.round keeping distinct (by simpa using known.valid) each
    · rintro ⟨left,entered⟩ mid rounded
      have alone : Known p (xs ++ []) := by simpa using known
      obtain ⟨ls,es,rfl,rfl,-,entering,found⟩ := round_traces exact guided traces keeping alone rounded
      refine Explore.bind_congr (ih (found.sublist (by simp)) fun y member => ?_) fun _ _ _ => rfl
      obtain ⟨x,origin,e,-,going,-⟩ := entering.follows y member
      exact (barred x origin).later going

end Eager

open Eager

/-- If no course goes past a branch without an alternative, an empty alternative makes no difference. -/
theorem eager_closes {solver : Solver} (exact : solver.Exact) (s : Stmt) (single : s.single = true) :
    Closes (straying 9 s) (eager solver s) (eager solver s.closed) := by
  induction s using Stmt.structural with
  | ifElse cond yes no left right =>
    simp only [Stmt.single,Stmt.every,Bool.true_and,Bool.and_eq_true] at single
    have keeping := eager_keeping solver yes.closed (Stmt.listFree_invariantFree (Stmt.closed_listFree single.1))
    intro h p valid barred
    apply split_congr
    intro f known
    apply attempt_congr
    · intro _
      apply left single.1 h _ (p.lt_split f valid)
      rw [p.split_state f valid]
      exact barred.taken known
    · intro first mid entered
      have tame := keeping.attempt (p.lt_split f valid) entered
      apply attempt_congr
      · intro _
        apply right single.2 p.states.size mid (lt_of_lt_of_le (by simp) tame.grows.size)
        rw [refused_state valid tame.grows]
        exact barred.refused known
      · intro second q _
        rfl
  | ifOnly cond yes ih =>
    simp only [Stmt.single,Stmt.every,Bool.true_and] at single
    have keeping := eager_keeping solver yes.closed (Stmt.listFree_invariantFree (Stmt.closed_listFree single))
    intro h p valid barred
    apply split_congr
    intro f known
    apply attempt_congr
    · intro _
      apply ih single h _ (p.lt_split f valid)
      rw [p.split_state f valid]
      exact barred.taken known
    · intro first mid entered
      have tame := keeping.attempt (p.lt_split f valid) entered
      have refused : solver.unsat (mid.state p.states.size).path = true := by
        rw [refused_state valid tame.grows]
        exact (exact _).mpr (barred.refused known [] _ ⟨rfl,rfl⟩)
      refine Explore.bind_congr rfl fun empty q asked => ?_
      cases asked
      rw [refused]
      rfl
  | loop cond body inv ih =>
    cases inv with
    | some inv => simp [Stmt.single,Stmt.every] at single
    | none =>
      simp only [Stmt.single,Stmt.every,Bool.true_and] at single
      have bare := Stmt.closed_listFree single
      intro h p valid barred
      have alone : Known p [(h,[])] := ⟨by simpa using valid,by simp,by simp⟩
      have traces := eager_traces exact body.closed bare
      rw [going_closed] at traces
      have keeping := eager_keeping solver body.closed (Stmt.listFree_invariantFree bare)
      exact (ih single).unroll exact (going_guided 9 body) traces keeping alone (List.forall_mem_singleton.mpr barred)
  | block | hollow => simp [Stmt.single,Stmt.every] at single
  | _ => exact fun _ _ _ _ => rfl

namespace Eager

/-- The results are possible and distinct, and no interpretation satisfies the paths of two of them. -/
structure Divides (results : List Handle) (q : Pool) : Prop where
  possible : ∀ o ∈ results, ∃ i, (q.state o).path.holds i = true
  distinct : results.Nodup
  exclusive : results.Pairwise fun o o' => ∀ i, (q.state o).path.holds i = true → (q.state o').path.holds i = false

end Eager

theorem divides_of_barred {solver : Solver} (exact : solver.Exact) {s : Stmt} (single : s.single = true) {p q : Pool}
    {h : Handle} (possible : p.Possible h) (barred : (straying 9 s).Barred (p.state h)) {results : List Handle}
    (ok : eager solver s h p = .ok results q) : Divides results q := by
  obtain ⟨i,store,represents⟩ := id possible
  rw [eager_closes exact s single h p represents.valid barred] at ok
  obtain ⟨ys,rfl,distinct,charted⟩ := eager_charted exact (Stmt.closed_listFree single) possible ok
  have like : (p.state h).Like Eq (p.state h) := .refl represents.inScope fun _ _ => rfl
  refine ⟨by simpa using charted.possible,distinct,List.pairwise_map.mpr ?_⟩
  refine charted.apart.imp_of_mem fun {x y} one two diverges => ?_
  obtain ⟨common,way,left,right,first,second,-⟩ := diverges
  have going := charted.follows x one
  have going' := charted.follows y two
  rw [first] at going
  rw [second] at going'
  exact going_separates 9 s.closed going going' like

namespace Eager

variable {solver : Solver} {explore : Handle → Explore (List Handle)} {p q : Pool} {h : Handle} {results : List Handle}

/-- The entered state is among the results, or it has become impossible. -/
def Settles (explore : Handle → Explore (List Handle)) : Prop :=
  ∀ h p results q, h < p.states.size → explore h p = .ok results q →
    h ∈ results ∨ ∀ i, (q.state h).path.holds i = false

theorem possible_settles (sound : solver.Sound) :
    h ∈ possible solver p h ∨ ∀ i, (p.state h).path.holds i = false := by
  unfold possible
  split
  next refused => exact .inr fun i => sound _ i refused
  next => exact .inl (List.mem_singleton.mpr rfl)

theorem Settles.attempt (sound : solver.Sound) (settles : Settles explore) (valid : h < p.states.size)
    (ok : attempt solver explore h p = .ok results q) : h ∈ results ∨ ∀ i, (q.state h).path.holds i = false := by
  rw [attempt_apply] at ok
  split at ok
  next refused =>
    cases ok
    exact .inr fun i => sound _ i refused
  next => exact settles h p results q valid ok

end Eager

theorem eager_settles {solver : Solver} (sound : solver.Sound) (s : Stmt) (single : s.single = true)
    (straight : s.loopFree = true) : Settles (eager solver s) := by
  induction s using Stmt.structural with
  | skip | printState =>
    intro h p results q valid ok
    cases ok
    exact .inl (List.mem_singleton.mpr rfl)
  | assign name rhs =>
    intro h p results q valid ok
    obtain ⟨t,-,rfl,rfl⟩ := eager_assign_ok ok
    exact .inl (List.mem_singleton.mpr rfl)
  | ifElse cond yes no left right =>
    simp only [Stmt.single,Stmt.loopFree,Stmt.every,Bool.true_and,Bool.and_eq_true] at single straight
    intro h p results q valid ok
    obtain ⟨f,first,mid,second,-,entered,refused,rfl⟩ := eager_ifElse_ok ok
    have branched := (eager_keeping solver yes (Stmt.single_invariantFree single.1)).branched
      (eager_keeping solver no (Stmt.single_invariantFree single.2)) valid entered refused
    rw [branched.entered_state valid]
    rcases (left single.1 straight.1).attempt sound (p.lt_split f valid) entered with given | impossible
    · exact .inl (List.mem_append_left second given)
    · exact .inr impossible
  | ifOnly cond yes ih =>
    simp only [Stmt.single,Stmt.loopFree,Stmt.every,Bool.true_and] at single straight
    intro h p results q valid ok
    obtain ⟨f,first,-,entered,rfl⟩ := eager_ifOnly_given ok
    rcases (ih single straight).attempt sound (p.lt_split f valid) entered with given | impossible
    · exact .inl (List.mem_append_left _ given)
    · exact .inr impossible
  | loop cond body inv ih => simp [Stmt.loopFree,Stmt.every] at straight
  | assert cond =>
    intro h p results q valid ok
    obtain ⟨f,-,-,rfl⟩ := eager_assert_ok ok
    exact possible_settles sound
  | assume cond =>
    intro h p results q valid ok
    obtain ⟨f,-,rfl,rfl⟩ := eager_assume_ok ok
    exact possible_settles sound
  | havoc names =>
    intro h p results q valid ok
    obtain ⟨rfl,rfl⟩ := eager_havoc_ok ok
    exact .inl (List.mem_singleton.mpr rfl)
  | block | hollow => simp [Stmt.single,Stmt.every] at single

theorem straying_narrows (bound : Nat) (s : Stmt) {c : Course} {a b : State} (strays : straying bound s .flat c a b) :
    b.Narrows a := by
  induction s using Stmt.structural generalizing c a b with
  | ifElse cond yes no left right =>
    obtain ⟨f,-,⟨d,-,taken⟩ | ⟨d,-,refused⟩⟩ := strays
    · exact (left taken).trans (.require a f)
    · exact (right refused).trans (.require a.forked _)
  | ifOnly cond yes ih =>
    obtain ⟨f,-,⟨d,-,taken⟩ | ⟨d,-,-,rfl⟩⟩ := strays
    · exact (ih taken).trans (.require a f)
    · exact .require a.forked _
  | loop cond body inv ih =>
    rw [straying] at strays
    generalize bound + 1 = turns at strays
    induction turns generalizing c a with
    | zero => exact strays.elim
    | succ turns later =>
      obtain ⟨f,-,⟨d,-,here | ⟨d₁,d₂,mid,-,around,there⟩⟩ | ⟨d,-,none⟩⟩ := strays
      · exact (ih here).trans (.require a f)
      · exact ((later there).trans ((going_guided bound body).narrows around)).trans (.require a f)
      · exact none.elim
  | _ => exact strays.elim

namespace Eager

variable {solver : Solver} {explore : Handle → Explore (List Handle)} {p q : Pool} {h : Handle} {results : List Handle}

/-- Possible and distinct results show that no course has strayed. -/
def Reveals (strays : Going) (explore : Handle → Explore (List Handle)) : Prop :=
  ∀ h p results q, h < p.states.size → explore h p = .ok results q → results.Nodup →
    (∀ o ∈ results, ∃ i, (q.state o).path.holds i = true) → strays.Barred (p.state h)

theorem Reveals.attempt {strays : Going} (sound : solver.Sound) (reveals : Reveals strays explore)
    (narrows : ∀ c a b, strays .flat c a b → b.Narrows a) (valid : h < p.states.size)
    (ok : attempt solver explore h p = .ok results q) (distinct : results.Nodup)
    (possible : ∀ o ∈ results, ∃ i, (q.state o).path.holds i = true) : strays.Barred (p.state h) := by
  rw [attempt_apply] at ok
  split at ok
  next refused =>
    intro c b going i
    have impossible := sound _ i refused
    rw [Bool.eq_false_iff] at impossible ⊢
    exact fun holds => impossible (narrows c _ b going i holds)
  next => exact reveals h p results q valid ok distinct possible

end Eager

theorem eager_reveals {solver : Solver} (sound : solver.Sound) (s : Stmt) (single : s.single = true)
    (straight : s.loopFree = true) : Reveals (straying 9 s) (eager solver s) := by
  induction s using Stmt.structural with
  | ifElse cond yes no left right =>
    simp only [Stmt.single,Stmt.loopFree,Stmt.every,Bool.true_and,Bool.and_eq_true] at single straight
    intro h p results q valid ok distinct possible
    obtain ⟨f,first,mid,second,known,entered,refused,rfl⟩ := eager_ifElse_ok ok
    have branched := (eager_keeping solver yes (Stmt.single_invariantFree single.1)).branched
      (eager_keeping solver no (Stmt.single_invariantFree single.2)) valid entered refused
    obtain ⟨one,two,-⟩ := List.nodup_append'.mp distinct
    apply Going.Barred.fork known
    · have possible : ∀ o ∈ first, ∃ i, (mid.state o).path.holds i = true := by
        intro o member
        rw [← branched.result_state member]
        exact possible o (List.mem_append_left second member)
      rw [← p.split_state f valid]
      exact (left single.1 straight.1).attempt sound (fun _ _ _ => straying_narrows 9 yes) (p.lt_split f valid) entered
        one possible
    · rw [← refused_state valid branched.entered.grows]
      exact (right single.2 straight.2).attempt sound (fun _ _ _ => straying_narrows 9 no) branched.fork_lt refused two
        fun o member => possible o (List.mem_append_right first member)
  | ifOnly cond yes ih =>
    simp only [Stmt.single,Stmt.loopFree,Stmt.every,Bool.true_and] at single straight
    intro h p results q valid ok distinct possible
    obtain ⟨f,first,known,entered,rfl⟩ := eager_ifOnly_given ok
    have keeping := eager_keeping solver yes (Stmt.single_invariantFree single)
    have grows := (keeping.attempt (p.lt_split f valid) entered).grows
    obtain ⟨one,-,apart⟩ := List.nodup_append'.mp distinct
    apply Going.Barred.fork known
    · rw [← p.split_state f valid]
      exact (ih single straight).attempt sound (fun _ _ _ => straying_narrows 9 yes) (p.lt_split f valid) entered one
        fun o member => possible o (List.mem_append_left _ member)
    · rintro c b ⟨-,rfl⟩ i
      rw [← refused_state valid grows]
      cases refused : solver.unsat (q.state p.states.size).path with
      | true => exact sound _ i refused
      | false =>
        -- The entered state is given once more, but it was there already or it is impossible.
        rw [refused] at possible apart
        rcases (eager_settles sound yes single straight).attempt sound (p.lt_split f valid) entered with given | none
        · exact absurd (List.mem_singleton.mpr rfl) (apart given)
        · obtain ⟨j,holds⟩ := possible h (List.mem_append_right first (List.mem_singleton.mpr rfl))
          rw [none j] at holds
          contradiction
  | loop cond body inv ih => simp [Stmt.loopFree,Stmt.every] at straight
  | block | hollow => simp [Stmt.single,Stmt.every] at single
  | _ => exact fun _ _ _ _ _ _ _ _ => .never

theorem straying_listFree (bound : Nat) {s : Stmt} (bare : s.listFree = true) (a : State) :
    (straying bound s).Barred a := by
  induction s using Stmt.structural generalizing a with
  | ifElse cond yes no left right =>
    simp only [Stmt.listFree,Stmt.every,Bool.true_and,Bool.and_eq_true] at bare
    rintro c b ⟨f,-,⟨d,-,taken⟩ | ⟨d,-,refused⟩⟩
    · exact left bare.1 _ d b taken
    · exact right bare.2 _ d b refused
  | loop cond body inv ih =>
    simp only [Stmt.listFree,Stmt.every,Bool.and_eq_true] at bare
    exact .inside (ih bare.2) (bound + 1)
  | ifOnly | block | hollow => simp [Stmt.listFree,Stmt.every] at bare
  | _ => exact .never

/-- Eager exploration of a statement without lists divides a possible state if every branch has an alternative, and
also if no course can go past a branch that has none, with at most nine iterations of a loop before it gets there.
Where there are no loops it divides the state in no other case. -/
theorem eager_divides {solver : Solver} (exact : solver.Exact) {pool : Pool} {live : List (Search Handle)}
    (reachable : Reachable pool live) {h : Handle} (valid : h < pool.states.size)
    (possible : ∃ i, (pool.state h).path.holds i = true) {s : Stmt} (single : s.single = true) {results : List Handle}
    {q : Pool} (returned : eager solver s h pool = .ok results q) :
    (s.listFree = true → Divides results q) ∧ ((straying 9 s).Barred (pool.state h) → Divides results q) ∧
      (s.loopFree = true → Divides results q → (straying 9 s).Barred (pool.state h)) := by
  obtain ⟨i,holds⟩ := possible
  have admitted : pool.Possible h := .of_holds valid (reachable.settled.inScope h) holds
  refine ⟨fun bare => ?_,fun barred => ?_,fun straight divides => ?_⟩
  · exact divides_of_barred exact single admitted (straying_listFree 9 bare _) returned
  · exact divides_of_barred exact single admitted barred returned
  · exact eager_reveals exact.sound s single straight h pool results q valid returned divides.distinct divides.possible

/-- The branch in the body has no alternative, and it needs none. -/
def redrawing : Stmt :=
  .loop (.app .compare ">" [.var "x",.int 5]) (.ifOnly (.app .compare ">" [.var "x",.int 0]) (.havoc ["x"])) none

theorem formula_above {a : State} {n : Int} {f : Formula}
    (known : a.formula .flat (.app .compare ">" [.var "x",.int n]) = .ok f) :
    ∃ symbol, a.env["x"]? = some symbol ∧ f = .rel .lt (.lit n) (.sym symbol) := by
  cases bound : a.env["x"]? with
  | none =>
    simp only [State.formula,Meaning.of,Meaning.ofAll,bound] at known
    cases known
  | some symbol =>
    simp only [State.formula,Meaning.of,Meaning.ofAll,bound] at known
    cases known
    exact ⟨symbol,rfl,rfl⟩

theorem redrawing_barred (a : State) : (straying 9 redrawing).Barred a := by
  rw [redrawing,straying]
  generalize 9 + 1 = turns
  induction turns generalizing a with
  | zero => exact .never
  | succ turns ih =>
    rintro c b ⟨f,known,⟨d,-,⟨g,known',⟨_,-,none⟩ | ⟨_,-,-,rfl⟩⟩ | ⟨d₁,d₂,mid,-,-,there⟩⟩ | ⟨_,-,none⟩⟩ i
    · exact none.elim
    · -- The number is above five, so that it is above zero.
      obtain ⟨symbol,bound,rfl⟩ := formula_above known
      obtain ⟨other,bound',rfl⟩ := formula_above known'
      obtain rfl : symbol = other := Option.some.inj (bound.symm.trans bound')
      rw [Bool.eq_false_iff]
      intro holds
      obtain ⟨rest,small⟩ := State.require_holds.mp holds
      have above : 5 < i.symbol symbol := of_decide_eq_true ((State.require_holds (s := a)).mp rest).2
      have below : ¬ 0 < i.symbol symbol := of_decide_eq_false ((Bool.not_eq_true' _).mp small)
      omega
    · exact ih mid d₂ b there i
    · exact none.elim

/-- In each of ten rounds one state leaves the loop. -/
theorem eager_redrawing_divides :
    ∃ solver : Solver, solver.Exact ∧ ∃ results q, eager solver redrawing 0 positive = .ok results q ∧
      results = [1,3,5,7,9,11,13,15,17,19] ∧ redrawing.listFree = false ∧
      (straying 9 redrawing).Barred (positive.state 0) ∧ Divides results q := by
  have exact := Solver.precise_exact
  have passed : (eager .precise redrawing 0).passes positive (fun results _ =>
      results = [1,3,5,7,9,11,13,15,17,19]) = true := by decide +kernel
  obtain ⟨results,q,ok,known⟩ := Explore.ok_of_passes passed
  have barred := redrawing_barred (positive.state 0)
  obtain ⟨-,divides,-⟩ := eager_divides exact positive_reachable (by decide +kernel)
    ⟨⟨fun _ => 1,fun _ => 0⟩,by decide +kernel⟩ (by decide) ok
  exact ⟨_,exact,results,q,ok,by simpa using known,by decide,barred,divides barred⟩

/-- Whether the condition holds is not known, and the state where it holds is given for both cases. -/
theorem eager_gives_state_twice :
    ∃ solver : Solver, solver.Exact ∧ ∃ results q,
      eager solver (.ifOnly (.app .compare ">" [.var "x",.int 3]) .skip) 0 positive = .ok results q ∧
      results = [0,0] ∧ (positive.state 0).path.holds (sized 1) = true ∧ (q.state 0).path.holds (sized 1) = false ∧
      ¬ Divides results q := by
  have exact := Solver.precise_exact
  have passed : (eager .precise (.ifOnly (.app .compare ">" [.var "x",.int 3]) .skip) 0).passes
      positive (fun results q => results = [0,0] && !(q.state 0).path.holds (sized 1)) = true := by decide +kernel
  obtain ⟨results,q,ok,known⟩ := Explore.ok_of_passes passed
  simp only [Bool.and_eq_true,decide_eq_true_eq,Bool.not_eq_true'] at known
  obtain ⟨rfl,refused⟩ := known
  refine ⟨_,exact,_,q,ok,rfl,by decide +kernel,refused,fun divides => ?_⟩
  exact absurd divides.distinct (by decide)

end Symbolic

end WhileExec
