import Mathlib
import WhileExec.Proofs.Symbolic.Linearization
import WhileExec.Proofs.Symbolic.Representation

/-!
# The solver is sound

The search for a model goes through literals, atoms and alternatives. What an interpretation satisfies is not said to
have no model, and a model that is found satisfies all. So a path that is refused has no interpretation: `solver_sound`.
The solver leaves some paths undecided; `Solver.precise` gives the right answers there too.
-/

namespace WhileExec.Symbolic

open WhileExec.Arithmetic

variable {n : Nat} {i : Interpretation} {μ : Nat → Int}

theorem Formula.evalAll_iff {fs : List Formula} : evalAll i fs = true ↔ ∀ f ∈ fs, f.eval i = true := by
  induction fs with
  | nil => simp [evalAll]
  | cons f fs ih => simp [evalAll,ih]

theorem Formula.evalAny_iff {fs : List Formula} : evalAny i fs = true ↔ ∃ f ∈ fs, f.eval i = true := by
  induction fs with
  | nil => simp [evalAny]
  | cons f fs ih => simp [evalAny,ih]

namespace Literal

def InScope (n : Nat) (l : Literal) : Prop := l.formula.bound ≤ n

def Reduced.Holds (i : Interpretation) : Reduced → Prop
  | truth b => b = true
  | all parts => ∀ l ∈ parts, l.holds i = true
  | any parts => ∃ l ∈ parts, l.holds i = true
  | atoms a => a.holds i = true

def Reduced.InScope (n : Nat) : Reduced → Prop
  | truth _ => True
  | all parts => ∀ l ∈ parts, l.InScope n
  | any parts => ∀ l ∈ parts, l.InScope n
  | atoms a => a.InScope n

theorem reduceRel_holds (positive : Bool) (r : Relation) (a b : Term) :
    (reduceRel positive r a b).Holds i ↔ (Formula.rel r a b).eval i = positive := by
  cases r <;> cases positive <;>
    simp [reduceRel,Reduced.Holds,Atoms.holds,holds,Formula.eval,Relation.holds,Term.eval,sub_eq_zero] <;> omega

theorem reduce_holds (l : Literal) : l.reduce.Holds i ↔ l.holds i = true := by
  obtain ⟨positive,f⟩ := l
  cases f with
  | bool b => simp [reduce,Reduced.Holds,holds,Formula.eval]
  | rel r a b => simp [reduce,reduceRel_holds,holds]
  | not f => cases positive <;> simp [reduce,Reduced.Holds,holds,Formula.eval]
  | and fs =>
    cases positive with
    | true => simp [reduce,Reduced.Holds,holds,Formula.eval,Formula.evalAll_iff]
    | false => simp [reduce,Reduced.Holds,holds,Formula.eval,← Bool.not_eq_true,Formula.evalAll_iff]
  | or fs =>
    cases positive with
    | true => simp [reduce,Reduced.Holds,holds,Formula.eval,Formula.evalAny_iff]
    | false => simp [reduce,Reduced.Holds,holds,Formula.eval,← Bool.not_eq_true,Formula.evalAny_iff]

theorem reduceRel_inScope {positive : Bool} {r : Relation} {a b : Term} (left : a.bound ≤ n) (right : b.bound ≤ n) :
    (reduceRel positive r a b).InScope n := by
  cases r <;> cases positive <;>
    simp [reduceRel,Reduced.InScope,Atoms.inScope_iff,InScope,Formula.bound,Term.bound,left,right]

theorem reduce_inScope {l : Literal} (inScope : l.InScope n) : l.reduce.InScope n := by
  obtain ⟨positive,f⟩ := l
  cases f with
  | bool b => trivial
  | rel r a b =>
    obtain ⟨left,right⟩ := max_le_iff.mp inScope
    exact reduceRel_inScope left right
  | not f => simpa [reduce,Reduced.InScope,InScope,Formula.bound] using inScope
  | and fs | or fs =>
    have each := Formula.boundAll_le.mp inScope
    cases positive <;> simpa [reduce,Reduced.InScope,InScope] using each

end Literal

theorem Atoms.append_holds {a b : Atoms} : (a.append b).holds i = true ↔ a.holds i = true ∧ b.holds i = true := by
  simp only [holds_iff,append,List.forall_mem_append]
  tauto

theorem Atoms.InScope.append {a b : Atoms} (left : a.InScope n) (right : b.InScope n) : (a.append b).InScope n :=
  ⟨List.forall_mem_append.mpr ⟨left.zero,right.zero⟩,List.forall_mem_append.mpr ⟨left.nonneg,right.nonneg⟩⟩

theorem Atoms.solve_holds {a : Atoms} {m : Model} (found : a.solve n = .sat m) : a.holds m.interpretation = true := by
  unfold solve at found
  dsimp only at found
  split at found
  · cases found
  · cases found
  · split at found
    · rename_i holds
      cases found
      exact holds
    · cases found

section Alternatives

variable {choices : List (List Literal)} {isOpen : List Literal → Bool} {otherwise : Verdict Model}
  {attempt : Literal → List (List Literal) → Verdict Model} {k : Nat} {parts : List Literal}

/-- Of every choice there is an alternative that can be tried without failing. -/
theorem tryOpen_ne_unsat (plain : otherwise ≠ .unsat)
    (each : ∀ k parts, choices[k]? = some parts → ∃ l ∈ parts, attempt l (choices.eraseIdx k) ≠ .unsat) :
    tryOpen choices isOpen otherwise attempt ≠ .unsat := by
  unfold tryOpen
  split
  · exact plain
  · rename_i k found
    have below := (List.findIdx?_eq_some_iff_findIdx_eq.mp found).1
    obtain ⟨l,member,possible⟩ := each k _ (List.getElem?_eq_getElem below)
    intro unsat
    refine possible (Verdict.firstOf_eq_unsat.mp unsat _ (List.mem_map_of_mem ?_))
    simpa [List.getElem?_eq_getElem below] using member

/-- What is found comes from an alternative, or there is no open choice. -/
theorem tryOpen_sat {m : Model} (found : tryOpen choices isOpen otherwise attempt = .sat m) :
    (otherwise = .sat m ∧ ∀ parts ∈ choices, isOpen parts = false) ∨
      ∃ k parts, choices[k]? = some parts ∧ ∃ l ∈ parts, attempt l (choices.eraseIdx k) = .sat m := by
  unfold tryOpen at found
  split at found
  · rename_i none
    exact .inl ⟨found,by simpa using none⟩
  · rename_i k first
    have below := (List.findIdx?_eq_some_iff_findIdx_eq.mp first).1
    obtain ⟨one,member,found⟩ := Verdict.firstOf_eq_sat found
    obtain ⟨l,inside,rfl⟩ := List.mem_map.mp member
    rw [List.getElem?_eq_getElem below] at inside
    exact .inr ⟨k,_,List.getElem?_eq_getElem below,l,inside,found⟩

end Alternatives

namespace Agenda

/-- The symbols of all that is to be satisfied have numbers below `n`. -/
structure InScope (n : Nat) (literals : List Literal) (atoms : Atoms) (choices : List (List Literal)) : Prop where
  literals : ∀ l ∈ literals, l.InScope n
  atoms : atoms.InScope n
  choices : ∀ parts ∈ choices, ∀ l ∈ parts, l.InScope n

/-- The interpretation satisfies the literals, the atoms, and one literal of each choice. -/
@[mk_iff]
structure Holds (i : Interpretation) (literals : List Literal) (atoms : Atoms) (choices : List (List Literal)) :
    Prop where
  literals : ∀ l ∈ literals, l.holds i = true
  atoms : atoms.holds i = true
  choices : ∀ parts ∈ choices, ∃ l ∈ parts, l.holds i = true

variable {l : Literal} {rest parts : List Literal} {a b : Atoms} {choices : List (List Literal)} {k : Nat}

theorem InScope.first (inScope : InScope n (l :: rest) a choices) : l.reduce.InScope n :=
  Literal.reduce_inScope (inScope.literals l (by simp))

theorem InScope.others (inScope : InScope n (l :: rest) a choices) : InScope n rest a choices :=
  ⟨fun other member => inScope.literals other (by simp [member]),inScope.atoms,inScope.choices⟩

theorem holds_truth {value : Bool} (reduced : l.reduce = .truth value) :
    Holds i (l :: rest) a choices ↔ value = true ∧ Holds i rest a choices := by
  have first := l.reduce_holds (i := i)
  rw [reduced] at first
  simp only [holds_iff,List.forall_mem_cons,← first,Literal.Reduced.Holds,and_assoc]

theorem holds_all (reduced : l.reduce = .all parts) :
    Holds i (l :: rest) a choices ↔ Holds i (parts ++ rest) a choices := by
  have first := l.reduce_holds (i := i)
  rw [reduced] at first
  simp only [holds_iff,List.forall_mem_cons,List.forall_mem_append,← first,Literal.Reduced.Holds]

theorem holds_any (reduced : l.reduce = .any parts) :
    Holds i (l :: rest) a choices ↔ Holds i rest a (choices ++ [parts]) := by
  have first := l.reduce_holds (i := i)
  rw [reduced] at first
  simp only [holds_iff,List.forall_mem_cons,List.forall_mem_append,← first,Literal.Reduced.Holds]
  tauto

theorem holds_atoms (reduced : l.reduce = .atoms b) :
    Holds i (l :: rest) a choices ↔ Holds i rest (a.append b) choices := by
  have first := l.reduce_holds (i := i)
  rw [reduced] at first
  simp only [holds_iff,List.forall_mem_cons,Atoms.append_holds,← first,Literal.Reduced.Holds]
  tauto

/-- One alternative of a choice takes the place of the choice. -/
theorem Holds.choose (holds : Holds i [] a choices) (known : choices[k]? = some parts) :
    ∃ l ∈ parts, Holds i [l] a (choices.eraseIdx k) := by
  obtain ⟨l,member,satisfied⟩ := holds.choices parts (List.mem_of_getElem? known)
  refine ⟨l,member,by simpa using satisfied,holds.atoms,fun others inside => ?_⟩
  exact holds.choices others (List.mem_of_mem_eraseIdx inside)

theorem Holds.chosen (holds : Holds i [l] a (choices.eraseIdx k)) (known : choices[k]? = some parts)
    (member : l ∈ parts) : Holds i [] a choices := by
  refine ⟨by simp,holds.atoms,fun others listed => ?_⟩
  obtain ⟨place,found⟩ := List.getElem?_of_mem listed
  by_cases same : place = k
  · obtain rfl : parts = others := Option.some.inj (known.symm.trans (same ▸ found))
    exact ⟨l,member,holds.literals l (by simp)⟩
  · exact holds.choices others (List.mem_eraseIdx_iff_getElem?.mpr ⟨place,same,found⟩)

end Agenda

/-- What an interpretation satisfies is not said to have no model. -/
theorem findModel_ne_unsat (start : Fits n i { next := n } μ) (fuel : Nat) {literals : List Literal} {atoms : Atoms}
    {choices : List (List Literal)} (inScope : Agenda.InScope n literals atoms choices)
    (holds : Agenda.Holds i literals atoms choices) : findModel n fuel literals atoms choices ≠ .unsat := by
  induction fuel generalizing literals atoms choices with
  | zero => simp [findModel]
  | succ fuel ih =>
    cases literals with
    | nil =>
      have plain := Atoms.solve_ne_unsat start inScope.atoms holds.atoms
      have each : ∀ k parts, choices[k]? = some parts →
          ∃ l ∈ parts, findModel n fuel [l] atoms (choices.eraseIdx k) ≠ .unsat := by
        intro k parts known
        obtain ⟨l,member,satisfied⟩ := holds.choose known
        have first := inScope.choices parts (List.mem_of_getElem? known) l member
        exact ⟨l,member,ih ⟨by simpa using first,inScope.atoms,fun others inside =>
          inScope.choices others (List.mem_of_mem_eraseIdx inside)⟩ satisfied⟩
      unfold findModel
      dsimp only
      split
      · contradiction
      · exact tryOpen_ne_unsat (by simp) each
      · exact tryOpen_ne_unsat (by simp) each
    | cons l rest =>
      have part := inScope.first
      have others := inScope.others
      unfold findModel
      split
      · rename_i reduced
        exact ih others ((Agenda.holds_truth reduced).mp holds).2
      · rename_i reduced
        cases ((Agenda.holds_truth reduced).mp holds).1
      · rename_i parts reduced
        rw [reduced] at part
        refine ih ⟨List.forall_mem_append.mpr ⟨part,others.literals⟩,others.atoms,others.choices⟩ ?_
        exact (Agenda.holds_all reduced).mp holds
      · rename_i parts reduced
        rw [reduced] at part
        refine ih ⟨others.literals,others.atoms,List.forall_mem_append.mpr ⟨others.choices,?_⟩⟩ ?_
        · exact List.forall_mem_singleton.mpr part
        · exact (Agenda.holds_any reduced).mp holds
      · rename_i a reduced
        rw [reduced] at part
        refine ih ⟨others.literals,others.atoms.append part,others.choices⟩ ?_
        exact (Agenda.holds_atoms reduced).mp holds

/-- A model that is found satisfies all that was to be satisfied. -/
theorem findModel_holds {fuel : Nat} {literals : List Literal} {atoms : Atoms} {choices : List (List Literal)}
    {m : Model} (found : findModel n fuel literals atoms choices = .sat m) :
    Agenda.Holds m.interpretation literals atoms choices := by
  induction fuel generalizing literals atoms choices with
  | zero => simp [findModel] at found
  | succ fuel ih =>
    cases literals with
    | nil =>
      unfold findModel at found
      dsimp only at found
      split at found
      · cases found
      · rename_i other solved
        rcases tryOpen_sat found with ⟨same,closed⟩ | ⟨k,parts,known,l,member,found⟩
        · cases same
          exact ⟨by simp,Atoms.solve_holds solved,by simpa using closed⟩
        · exact (ih found).chosen known member
      · rcases tryOpen_sat found with ⟨same,-⟩ | ⟨k,parts,known,l,member,found⟩
        · cases same
        · exact (ih found).chosen known member
    | cons l rest =>
      unfold findModel at found
      split at found
      · rename_i reduced
        exact (Agenda.holds_truth reduced).mpr ⟨rfl,ih found⟩
      · cases found
      · rename_i reduced
        exact (Agenda.holds_all reduced).mpr (ih found)
      · rename_i reduced
        exact (Agenda.holds_any reduced).mpr (ih found)
      · rename_i reduced
        exact (Agenda.holds_atoms reduced).mpr (ih found)

/-- Symbols that are told apart by their numbers have values by their numbers. -/
theorem Path.numbered_values {path : Path} (numbered : path.numbered = true) (i : Interpretation) :
    ∃ μ : Nat → Int, ∀ s ∈ Formula.symbolsAll path, i.symbol s = μ s.index := by
  refine ⟨fun k => (path.names[k]?.map fun name => i.symbol ⟨name,k⟩).getD 0,fun s member => ?_⟩
  have named : path.names[s.index]? = some s.name := by
    simpa using List.all_eq_true.mp numbered s member
  simp [named]

theorem Path.holds_iff {path : Path} : path.holds i = true ↔ Formula.evalAll i path = true := by
  rw [Formula.evalAll_iff]
  simp [holds]

theorem Path.model_ne_unsat {path : Path} (holds : path.holds i = true) : path.model ≠ .unsat := by
  unfold model
  split
  · rename_i numbered
    obtain ⟨μ,known⟩ := path.numbered_values numbered i
    let j : Interpretation := ⟨fun s => μ s.index,i.byZero⟩
    have start : Fits (Formula.boundAll path) j { next := Formula.boundAll path } μ :=
      ⟨fun _ _ => rfl,le_rfl,by simp,by simp⟩
    have same : Formula.evalAll j path = true := by
      rw [Formula.evalAll_same (i := i) (j := j) rfl path fun s member => (known s member).symm]
      exact holds_iff.mp holds
    refine findModel_ne_unsat start _ ⟨?_,⟨by simp,by simp⟩,by simp⟩ ⟨?_,by simp [Atoms.holds],by simp⟩
    · simpa [Literal.InScope] using Formula.boundAll_le.mp (le_refl (Formula.boundAll path))
    · simpa [Literal.holds] using Formula.evalAll_iff.mp same
  · simp

theorem Path.model_holds {path : Path} {m : Model} (found : path.model = .sat m) :
    path.holds m.interpretation = true := by
  unfold model at found
  split at found
  · rw [holds_iff,Formula.evalAll_iff]
    simpa [Literal.holds] using (findModel_holds found).literals
  · cases found

theorem Path.unsat_iff {path : Path} : path.unsat = true ↔ path.model = .unsat := by
  unfold unsat
  split <;> simp_all

/-- The solver refuses only paths without interpretations. -/
theorem solver_sound : solver.Sound := by
  intro path i refused
  rw [Bool.eq_false_iff]
  exact fun holds => Path.model_ne_unsat holds (Path.unsat_iff.mp refused)

theorem Path.forced_eq {path : Path} {s : Symbol} {k : Int} (forced : path.forced s = some k)
    (holds : path.holds i = true) : i.symbol s = k := by
  unfold Path.forced at forced
  split at forced
  · dsimp only at forced
    split at forced
    · rename_i refused
      cases forced
      have none := solver_sound _ i refused
      rw [Path.holds,List.all_append,show path.all _ = true from holds] at none
      symm
      simpa [Formula.eval,Term.eval,Relation.holds] using none
    · cases forced
  · cases forced

theorem solver_keepsMeaning : solver.KeepsMeaning := fun _ _ => rfl

theorem solver_keepsSymbols : solver.KeepsSymbols := fun _ _ inside => inside

/-- What is shown for a variable is its value by every interpretation of the path, or an asterisk. -/
theorem State.concrete_shows {state : State} {values : Env String} (shown : state.concrete solver = some values)
    (holds : state.path.holds i = true) {name : String} {s : Symbol} (bound : state.env[name]? = some s) :
    values[name]? = some (toString (i.symbol s)) ∨ values[name]? = some "*" := by
  unfold concrete at shown
  split at shown
  · cases shown
  · cases shown
    rw [Std.TreeMap.getElem?_map,bound]
    cases forced : solver.forced state.path s with
    | none => exact .inr (by simp [forced])
    | some k =>
      refine .inl ?_
      rw [Path.forced_eq forced holds]
      simp [forced]

/-- A model of the path is found. -/
def Path.hasModel (path : Path) : Bool :=
  match path.model with
  | .sat _ => true
  | _ => false

open Classical in
/-- The right answers, computed where the solver finds them. -/
noncomputable def Solver.precise : Solver where
  unsat path := path.unsat || !path.hasModel && decide (∀ i, path.holds i = false)
  forced := Path.forced

theorem Solver.precise_exact : precise.Exact := by
  intro path
  simp only [precise,Bool.or_eq_true,Bool.and_eq_true,decide_eq_true_eq]
  refine ⟨?_,fun none => .inr ⟨?_,none⟩⟩
  · rintro (refused | ⟨-,none⟩) i
    · exact solver_sound path i refused
    · exact none i
  · unfold Path.hasModel
    split
    · rename_i m found
      have holds := Path.model_holds found
      rw [none m.interpretation] at holds
      cases holds
    · rfl

end WhileExec.Symbolic
