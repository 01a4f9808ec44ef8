import Mathlib
import WhileExec.Proofs.Symbolic.Changes

/-!
# States and the stores they stand for

Two views of a symbolic state. `Pool.Represents` fixes an interpretation by which a state of the pool stands for a
store; an action that follows the store gives a state that represents the next store, by an interpretation that
agrees with the first on all symbols there were. `State.Follows` starts from the other end: every interpretation
that the later state admits is admitted by the earlier one, and the two stores it makes are related.
-/

namespace WhileExec.Symbolic

open Interpretation (Agrees)

/-- A path that the solver refuses has no interpretation. -/
def Solver.Sound (solver : Solver) : Prop :=
  ∀ path i, solver.unsat path = true → Path.holds i path = false

/-- A simplified formula means the same. -/
def Solver.KeepsMeaning (solver : Solver) : Prop :=
  ∀ f i, (solver.simplify f).eval i = f.eval i

/-- A simplified formula has no new symbols. -/
def Solver.KeepsSymbols (solver : Solver) : Prop :=
  ∀ f s, (solver.simplify f).Mentions s → f.Mentions s

theorem Solver.KeepsSymbols.bound_le {solver : Solver} (keeps : solver.KeepsSymbols) {n : Nat} {f : Formula}
    (bound : f.bound ≤ n) : (solver.simplify f).bound ≤ n :=
  (Formula.bound_le _).mpr fun s inside => f.bound_le.mp bound s (keeps f s inside)

/-- A solver that refuses nothing. -/
def Solver.undecided : Solver where
  unsat _ := false
  forced _ _ := none

theorem Solver.undecided_sound : undecided.Sound := by
  intro path i refused
  contradiction

theorem Solver.undecided_keepsSymbols : undecided.KeepsSymbols := fun _ _ inside => inside

/-- The solver refuses just those paths that have no interpretation. -/
def Solver.Exact (solver : Solver) : Prop :=
  ∀ path, solver.unsat path = true ↔ ∀ i, Path.holds i path = false

namespace Solver.Exact

variable {solver : Solver} {path : Path}

theorem sound (exact : solver.Exact) : solver.Sound := fun path i refused => (exact path).mp refused i

theorem satisfiable (exact : solver.Exact) (passed : solver.unsat path = false) :
    ∃ i, path.holds i = true := by
  by_contra none
  have refused := (exact path).mpr fun i => Bool.eq_false_iff.mpr fun holds => none ⟨i,holds⟩
  rw [passed] at refused
  contradiction

theorem passes (exact : solver.Exact) {i : Interpretation} (holds : path.holds i = true) :
    solver.unsat path = false := by
  refine Bool.eq_false_iff.mpr fun refused => ?_
  rw [(exact path).mp refused i] at holds
  contradiction

end Solver.Exact

namespace Pool

theorem formula_meaning {p : Pool} {joining : Joining} {h : Handle} {cond : Expr} {f : Formula}
    (known : p.formula joining h cond = .ok f) : Meaning.of joining (p.state h).env cond = .ok (.formula f) := by
  obtain ⟨m,meaning,known⟩ := Meaning.bind_ok known
  cases m <;> cases known
  exact meaning

theorem term_meaning {p : Pool} {joining : Joining} {h : Handle} {rhs : Expr} {t : Term}
    (known : p.term joining h rhs = .ok t) : Meaning.of joining (p.state h).env rhs = .ok (.term t) := by
  obtain ⟨m,meaning,known⟩ := Meaning.bind_ok known
  cases m <;> cases known
  exact meaning

theorem formula_decides {p : Pool} {joining : Joining} {h : Handle} {cond : Expr} {f : Formula} {i : Interpretation}
    {store : Store} (known : p.formula joining h cond = .ok f) (typed : cond.isCondition = true)
    (same : store.Equiv (i.store (p.state h).env)) : cond.Decides store (f.eval i) := by
  obtain ⟨g,meaning,decided⟩ := Meaning.of_condition typed same (formula_meaning known)
  cases meaning
  exact decided

theorem term_evaluates {p : Pool} {joining : Joining} {h : Handle} {rhs : Expr} {t : Term} {i : Interpretation}
    {store : Store} (known : p.term joining h rhs = .ok t) (typed : rhs.isTerm = true)
    (same : store.Equiv (i.store (p.state h).env)) : rhs.eval store = .ok (.int (t.eval i)) := by
  obtain ⟨u,meaning,value⟩ := Meaning.of_term typed same (term_meaning known)
  cases meaning
  exact value

theorem formula_bound {p : Pool} {joining : Joining} {h : Handle} {cond : Expr} {f : Formula} {n : Nat}
    (known : p.formula joining h cond = .ok f) (inScope : (p.state h).Scoped n) : f.bound ≤ n :=
  Meaning.of_bound inScope.env (formula_meaning known)

theorem term_bound {p : Pool} {joining : Joining} {h : Handle} {rhs : Expr} {t : Term} {n : Nat}
    (known : p.term joining h rhs = .ok t) (inScope : (p.state h).Scoped n) : t.bound ≤ n :=
  Meaning.of_bound inScope.env (term_meaning known)

/-- The state is in the pool and in scope, and stands for the store. -/
structure Represents (p : Pool) (h : Handle) (i : Interpretation) (store : Store) : Prop where
  valid : h < p.states.size
  inScope : (p.state h).Scoped p.symbols
  allows : (p.state h).Allows i store

namespace Represents

variable {p q : Pool} {h : Handle} {i j : Interpretation} {store final : Store}

theorem possible {solver : Solver} (sound : solver.Sound) (represents : p.Represents h i store) :
    solver.unsat (p.state h).path = false := by
  by_contra refused
  have none := sound _ i (Bool.eq_true_of_not_eq_false refused)
  rw [represents.allows.path] at none
  contradiction

theorem grows {owned : Set Handle} (represents : p.Represents h i store) (grows : p.Grows owned q)
    (free : h ∉ owned) : q.Represents h i store := by
  have same := grows.others h represents.valid free
  refine ⟨represents.valid.trans_le grows.size,?_,?_⟩ <;> rw [same]
  · exact represents.inScope.mono grows.symbols
  · exact represents.allows

theorem forked (represents : p.Represents h i store) : (p.forked h).Represents p.states.size i store := by
  refine ⟨by simp,?_,?_⟩ <;> rw [p.forked_new h]
  · exact ⟨represents.inScope.env,represents.inScope.path⟩
  · exact ⟨represents.allows.path,represents.allows.store⟩

theorem required (represents : p.Represents h i store) {f : Formula} (inScope : f.bound ≤ p.symbols)
    (holds : f.eval i = true) : (p.required h f).Represents h i store := by
  refine ⟨by simpa using represents.valid,?_,?_⟩ <;> rw [p.required_state f represents.valid]
  · exact represents.inScope.require inScope
  · exact represents.allows.require holds

/-- After a split the state or its fork stands for the store, as the formula tells. -/
theorem split_true (represents : p.Represents h i store) {f : Formula} (inScope : f.bound ≤ p.symbols)
    (holds : f.eval i = true) : (p.split h f).Represents h i store :=
  ((represents.grows (.forked p h) (Set.notMem_empty h)).required inScope holds).grows (.required _ _ _)
    represents.valid.ne

theorem split_false (represents : p.Represents h i store) {f : Formula} (inScope : f.bound ≤ p.symbols)
    (fails : f.eval i = false) : (p.split h f).Represents p.states.size i store :=
  (represents.forked.grows (.required _ h f) represents.valid.ne').required (f := .not f) inScope
    (by simp [Formula.eval,fails])

theorem renewed (represents : p.Represents h i store) (name : String) (n : Int) :
    (p.renewed h name).Represents h (i.assign ⟨name,p.symbols⟩ n) (store.insert name (.int n)) := by
  have agree : Agrees p.symbols i (i.assign ⟨name,p.symbols⟩ n) := i.agrees_assign ⟨name,p.symbols⟩ n
  refine ⟨by simpa using represents.valid,?_,?_⟩ <;> rw [p.renewed_state name represents.valid]
  · exact (represents.inScope.mono (Nat.le_succ _)).bind name (Nat.lt_succ_self _)
  · have bound := (represents.allows.congr represents.inScope agree).bind name ⟨name,p.symbols⟩
    rwa [Interpretation.assign_symbol] at bound

theorem assigned (represents : p.Represents h i store) (name : String) {t : Term} (inScope : t.bound ≤ p.symbols) :
    (p.assigned h name t).Represents h (i.assign ⟨name,p.symbols⟩ (t.eval i))
      (store.insert name (.int (t.eval i))) := by
  have agree : Agrees p.symbols i (i.assign ⟨name,p.symbols⟩ (t.eval i)) := i.agrees_assign ⟨name,p.symbols⟩ _
  refine (represents.renewed name (t.eval i)).required ?_ ?_
  · rw [Formula.compare_bound]
    exact max_le le_rfl (inScope.trans (Nat.le_succ _))
  · rw [Formula.compare_eval,t.eval_congr agree inScope]
    simp [Term.eval,Relation.holds]

theorem havocked (represents : p.Represents h i store) {names : List String} (chosen : Chooses names store final) :
    ∃ j, Agrees p.symbols i j ∧ (p.havocked h names).Represents h j final := by
  induction names generalizing p i store with
  | nil => cases chosen; exact ⟨i,.refl _ i,represents⟩
  | cons name names ih =>
    obtain ⟨n,chosen⟩ := chosen
    obtain ⟨j,agree,after⟩ := ih (represents.renewed name n) chosen
    exact ⟨j,(i.agrees_assign ⟨name,p.symbols⟩ n).trans agree (Nat.le_succ _),after⟩

end Represents

end Pool

/-- Whatever the later state admits was admitted before, and `relation` leads from the store there to the store
here. -/
def State.Follows (relation : Store → Store → Prop) (earlier later : State) : Prop :=
  ∀ i, later.path.holds i = true → earlier.path.holds i = true ∧
    ∀ store, earlier.Allows i store → ∃ final, relation store final ∧ later.Allows i final

namespace State.Follows

variable {R S : Store → Store → Prop} {a b c : State}

theorem mono (follows : a.Follows R b) (weaker : ∀ store final, R store final → S store final) : a.Follows S b := by
  intro i holds
  refine ⟨(follows i holds).1,fun store allows => ?_⟩
  obtain ⟨final,related,after⟩ := (follows i holds).2 store allows
  exact ⟨final,weaker store final related,after⟩

theorem congr (follows : a.Follows R b) (env : c.env = b.env) (path : c.path = b.path) : a.Follows R c := by
  intro i holds
  rw [path] at holds
  refine ⟨(follows i holds).1,fun store allows => ?_⟩
  obtain ⟨final,related,after⟩ := (follows i holds).2 store allows
  exact ⟨final,related,by rw [path]; exact after.path,by rw [env]; exact after.store⟩

theorem refl (a : State) : a.Follows (fun store final => final = store) a :=
  fun _ holds => ⟨holds,fun store allows => ⟨store,rfl,allows⟩⟩

theorem trans (first : a.Follows R b) (second : b.Follows S c) :
    a.Follows (fun store final => ∃ mid, R store mid ∧ S mid final) c := by
  intro i holds
  have between := (second i holds).1
  refine ⟨(first i between).1,fun store allows => ?_⟩
  obtain ⟨mid,before,reached⟩ := (first i between).2 store allows
  obtain ⟨final,after,allowed⟩ := (second i holds).2 mid reached
  exact ⟨final,⟨mid,before,after⟩,allowed⟩

/-- A condition is met first. -/
theorem under {cond : Expr} {truth : Bool}
    (first : a.Follows (fun store final => cond.Decides store truth ∧ final = store) b) (second : b.Follows R c) :
    a.Follows (fun store final => cond.Decides store truth ∧ R store final) c := by
  refine (first.trans second).mono ?_
  rintro store final ⟨mid,⟨decided,rfl⟩,related⟩
  exact ⟨decided,related⟩

/-- Nothing is said of a state that no interpretation admits. -/
theorem of_impossible (impossible : ∀ i, b.path.holds i = false) : a.Follows R b := by
  intro i holds
  rw [impossible i] at holds
  contradiction

theorem require {f : Formula} {cond : Expr} {truth : Bool}
    (decided : ∀ i store, a.Allows i store → f.eval i = true → cond.Decides store truth) :
    a.Follows (fun store final => cond.Decides store truth ∧ final = store) (a.require f) := by
  intro i holds
  obtain ⟨before,holds⟩ := State.require_holds.mp holds
  exact ⟨before,fun store allows => ⟨store,⟨decided i store allows holds,rfl⟩,allows.require holds⟩⟩

end State.Follows

namespace Pool

variable {p : Pool} {joining : Joining} {h : Handle}

theorem follows_required {cond : Expr} {f : Formula} (known : p.formula joining h cond = .ok f)
    (typed : cond.isCondition = true) :
    (p.state h).Follows (fun store final => cond.Decides store true ∧ final = store) ((p.state h).require f) :=
  .require fun _ _ allows holds => holds ▸ formula_decides known typed allows.store

/-- The fork stands for the stores in which the condition fails. -/
theorem follows_refused {cond : Expr} {f : Formula} (known : p.formula joining h cond = .ok f)
    (typed : cond.isCondition = true) :
    (p.state h).Follows (fun store final => cond.Decides store false ∧ final = store)
      (((p.forked h).state p.states.size).require (.not f)) := by
  rw [p.forked_new h]
  refine (State.Follows.require (f := .not f) fun i store allows holds => ?_).congr rfl rfl
  have refused : f.eval i = false := by simpa [Formula.eval] using holds
  exact refused ▸ formula_decides known typed allows.store

theorem follows_split_true {cond : Expr} {f : Formula} (known : p.formula joining h cond = .ok f)
    (typed : cond.isCondition = true) (valid : h < p.states.size) :
    (p.state h).Follows (fun store final => cond.Decides store true ∧ final = store) ((p.split h f).state h) := by
  rw [p.split_state f valid]
  exact follows_required known typed

theorem follows_split_false {cond : Expr} {f : Formula} (known : p.formula joining h cond = .ok f)
    (typed : cond.isCondition = true) (valid : h < p.states.size) :
    (p.state h).Follows (fun store final => cond.Decides store false ∧ final = store)
      ((p.split h f).state p.states.size) := by
  rw [p.split_new f valid]
  exact follows_refused known typed

theorem follows_assigned {name : String} {rhs : Expr} {t : Term} (known : p.term joining h rhs = .ok t)
    (typed : rhs.isTerm = true) (valid : h < p.states.size) :
    (p.state h).Follows (fun store final => ∃ v, rhs.eval store = .ok v ∧ final = store.insert name v)
      ((p.assigned h name t).state h) := by
  rw [p.assigned_state name t valid]
  intro i holds
  obtain ⟨before,equal⟩ := State.require_holds.mp holds
  refine ⟨before,fun store allows => ?_⟩
  have value : i.symbol ⟨name,p.symbols⟩ = t.eval i := by
    simpa [Formula.compare_eval,Term.eval,Relation.holds] using equal
  have bound := allows.bind name ⟨name,p.symbols⟩
  rw [value] at bound
  exact ⟨_,⟨_,term_evaluates known typed allows.store,rfl⟩,bound.require equal⟩

theorem follows_havocked (names : List String) (valid : h < p.states.size) :
    (p.state h).Follows (Chooses names) ((p.havocked h names).state h) := by
  induction names generalizing p with
  | nil => exact .refl _
  | cons name names ih =>
    have rest := ih (p := p.renewed h name) (by simpa using valid)
    rw [p.renewed_state name valid] at rest
    intro i holds
    obtain ⟨before,after⟩ := rest i holds
    refine ⟨before,fun store allows => ?_⟩
    obtain ⟨final,chosen,allowed⟩ := after _ (allows.bind name ⟨name,p.symbols⟩)
    exact ⟨final,⟨_,chosen⟩,allowed⟩

end Pool

end WhileExec.Symbolic
