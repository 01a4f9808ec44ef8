import Mathlib
import WhileExec.Symbolic.Decision
import WhileExec.Proofs.Arithmetic.Systems
import WhileExec.Proofs.Symbolic.Scope

/-!
# Terms as linear forms

Symbols are variables by their numbers, and each quotient is a variable of its own. `Fits` says that a valuation of
the variables comes from an interpretation: symbols have the integers that it gives them, and quotients are what they
are by it. Reading a term makes new variables at most, and under a valuation of these too the form has the value of
the term. Constraints that an interpretation satisfies therefore make up a system with a solution.
-/

namespace WhileExec.Symbolic

open WhileExec.Arithmetic

/-- What dividing yields. -/
def Interpretation.quotient (i : Interpretation) (a b : Int) : Int :=
  if b = 0 then i.byZero a else a / b

/-- The valuation of symbols, with numbers below `n`, and quotients comes from the interpretation. -/
structure Fits (n : Nat) (i : Interpretation) (q : Quotients) (μ : Nat → Int) : Prop where
  symbols : ∀ s : Symbol, s.index < n → μ s.index = i.symbol s
  scope : n ≤ q.next
  made : ∀ entry ∈ q.entries, entry.name < q.next ∧ entry.dividend.Over q.next
  quotients : ∀ entry ∈ q.entries, μ entry.name = i.quotient (entry.dividend.value μ) entry.divisor

/-- There are more variables, and the values of those there were are the same. -/
structure Later (q : Quotients) (μ : Nat → Int) (q' : Quotients) (μ' : Nat → Int) : Prop where
  next : q.next ≤ q'.next
  same : ∀ x < q.next, μ' x = μ x

theorem Later.refl (q : Quotients) (μ : Nat → Int) : Later q μ q μ := ⟨le_rfl,fun _ _ => rfl⟩

theorem Later.trans {q r t : Quotients} {μ ν ξ : Nat → Int} (first : Later q μ r ν) (second : Later r ν t ξ) :
    Later q μ t ξ :=
  ⟨first.next.trans second.next,fun x below => (second.same x (below.trans_le first.next)).trans (first.same x below)⟩

theorem Later.value {q r : Quotients} {μ ν : Nat → Int} {e : Linear} (later : Later q μ r ν) (bounded : e.Over q.next) :
    e.value ν = e.value μ := bounded.value_congr later.same

/-- Fixed symbols have the integers that the interpretation gives them. -/
def Interpretation.Meets (i : Interpretation) (n : Nat) (fixed : Assignment) : Prop :=
  ∀ s : Symbol, s.index < n → ∀ k, fixed.lookup s.index = some k → i.symbol s = k

section Reading

variable {n : Nat} {i : Interpretation} {fixed : Assignment} {v w u : Int}

/-- Under a valuation that fits later, the form has the value `v`. -/
def Read (n : Nat) (i : Interpretation) (q : Quotients) (μ : Nat → Int) (e : Linear) (r : Quotients) (v : Int) : Prop :=
  ∃ ν, Later q μ r ν ∧ Fits n i r ν ∧ e.Over r.next ∧ e.value ν = v

def Reads (n : Nat) (i : Interpretation) (read : StateT Quotients Option Linear) (v : Int) : Prop :=
  ∀ q μ e r, Fits n i q μ → read.run q = some (e,r) → Read n i q μ e r v

/-- One of two forms that are read is made, by what they are then. -/
theorem Reads.both {first second : StateT Quotients Option Linear}
    {join : Linear → Linear → StateT Quotients Option Linear} (left : Reads n i first v) (right : Reads n i second w)
    (joined : ∀ e f q μ g r, Fits n i q μ → e.Over q.next → f.Over q.next → e.value μ = v → f.value μ = w →
      (join e f).run q = some (g,r) → Read n i q μ g r u) :
    Reads n i (do let e ← first; let f ← second; join e f) u := by
  intro q μ g t fits known
  simp only [StateT.run_bind,Option.bind_eq_bind,Option.bind_eq_some_iff] at known
  obtain ⟨⟨e,r⟩,readLeft,⟨f,s⟩,readRight,known⟩ := known
  obtain ⟨ν,later,fits,boundedLeft,valueLeft⟩ := left q μ e r fits readLeft
  obtain ⟨ξ,again,fits,boundedRight,valueRight⟩ := right r ν f s fits readRight
  obtain ⟨ζ,last,fits,bounded,value⟩ := joined e f s ξ g t fits (boundedLeft.mono again.next) boundedRight
    ((again.value boundedLeft).trans valueLeft) valueRight known
  exact ⟨ζ,(later.trans again).trans last,fits,bounded,value⟩

theorem reads_pure {q q' : Quotients} {μ : Nat → Int} {e g : Linear} (fits : Fits n i q μ) (bounded : e.Over q.next)
    (value : e.value μ = v) (known : (pure e : StateT Quotients Option Linear).run q = some (g,q')) :
    Read n i q μ g q' v := by
  cases known
  exact ⟨μ,.refl q μ,fits,bounded,value⟩

/-- A quotient is a variable there is, or a new one that gets the quotient as its value. -/
theorem variableFor_reads {q q' : Quotients} {μ : Nat → Int} {e : Linear} {c : Int} {x : Nat} (fits : Fits n i q μ)
    (bounded : e.Over q.next) (known : Quotients.variableFor e c q = (x,q')) :
    Read n i q μ (.ofVar x) q' (i.quotient (e.value μ) c) := by
  unfold Quotients.variableFor at known
  split at known
  · rename_i entry found
    cases known
    have member := List.mem_of_find?_eq_some found
    have matched := List.find?_some found
    simp only [Bool.and_eq_true,beq_iff_eq] at matched
    obtain ⟨rfl,rfl⟩ := matched
    exact ⟨μ,.refl q μ,fits,.ofVar (fits.made entry member).1,by simp [fits.quotients entry member]⟩
  · cases known
    have later : Later q μ ⟨q.next + 1,⟨e,c,q.next⟩ :: q.entries⟩
        (Function.update μ q.next (i.quotient (e.value μ) c)) :=
      ⟨Nat.le_succ _,fun x below => Function.update_of_ne below.ne _ _⟩
    refine ⟨_,later,⟨fun s below => ?_,fits.scope.trans (Nat.le_succ _),?_,?_⟩,.ofVar (Nat.lt_succ_self _),by simp⟩
    · rw [later.same _ (below.trans_le fits.scope),fits.symbols s below]
    · refine List.forall_mem_cons.mpr ⟨⟨Nat.lt_succ_self _,bounded.mono (Nat.le_succ _)⟩,fun entry member => ?_⟩
      obtain ⟨below,dividend⟩ := fits.made entry member
      exact ⟨below.trans_le (Nat.le_succ _),dividend.mono (Nat.le_succ _)⟩
    · refine List.forall_mem_cons.mpr ⟨by simp [later.value bounded],fun entry member => ?_⟩
      obtain ⟨below,dividend⟩ := fits.made entry member
      rw [later.same _ below,later.value dividend]
      exact fits.quotients entry member

theorem Term.linear_reads (meets : i.Meets n fixed) (t : Term) (inScope : t.bound ≤ n) :
    Reads n i (t.linear fixed) (t.eval i) := by
  induction t with
  | lit k => exact fun q μ e q' fits known => reads_pure fits (.ofInt k) (by simp [eval]) known
  | sym s =>
    intro q μ e q' fits known
    unfold linear at known
    split at known
    · rename_i k found
      exact reads_pure fits (.ofInt k) (by simp [eval,meets s inScope k found]) known
    · exact reads_pure fits (.ofVar (lt_of_lt_of_le inScope fits.scope)) (by simp [eval,fits.symbols s inScope]) known
  | add a b left right =>
    simp only [bound,max_le_iff] at inScope
    refine (left inScope.1).both (right inScope.2) fun e f q μ g q' fits one two first second known => ?_
    exact reads_pure fits (one.add two) (by simp [eval,first,second]) known
  | sub a b left right =>
    simp only [bound,max_le_iff] at inScope
    refine (left inScope.1).both (right inScope.2) fun e f q μ g q' fits one two first second known => ?_
    exact reads_pure fits (one.sub two) (by simp [eval,first,second]) known
  | mul a b left right =>
    simp only [bound,max_le_iff] at inScope
    refine (left inScope.1).both (right inScope.2) fun e f q μ g q' fits one two first second known => ?_
    split at known
    · rename_i const
      rw [e.value_const μ const] at first
      exact reads_pure fits (two.scale _) (by simp [eval,first,second]) known
    · split at known
      · rename_i const
        rw [f.value_const μ const] at second
        exact reads_pure fits (one.scale _) (by simp [eval,first,second,mul_comm]) known
      · cases known
  | div a b left right =>
    simp only [bound,max_le_iff] at inScope
    refine (left inScope.1).both (right inScope.2) fun e f q μ g q' fits one two first second known => ?_
    split at known
    · cases known
    · rename_i const
      rw [f.value_const μ (by simpa using const)] at second
      split at known
      · rename_i both
        simp only [Bool.and_eq_true,bne_iff_ne,ne_eq] at both
        rw [e.value_const μ both.1] at first
        refine reads_pure fits (.ofInt _) ?_ known
        rw [Linear.value_ofInt,eval,← first,← second,if_neg both.2]
      · simp only [StateT.run_bind,Option.bind_eq_bind,Option.bind_eq_some_iff] at known
        obtain ⟨⟨x,r⟩,made,known⟩ := known
        cases known
        obtain ⟨μ',later,fits,bounded,value⟩ := variableFor_reads fits one (Option.some.inj made)
        refine ⟨μ',later,fits,bounded,value.trans ?_⟩
        rw [first,second]
        rfl

end Reading

namespace Atoms

variable {n : Nat} {i : Interpretation} {fixed : Assignment} {q : Quotients} {μ : Nat → Int} {t : Term}
  {terms : List Term}

theorem fixOne_meets (start : Fits n i { next := n } μ) (meets : i.Meets n fixed) (inScope : t.bound ≤ n)
    (holds : t.eval i = 0) : i.Meets n (fixOne n fixed t) := by
  unfold fixOne
  split
  · rename_i k x c next known
    split
    · rename_i divides
      obtain ⟨ν,-,fits,bounded,value⟩ := t.linear_reads meets inScope _ μ _ _ start known
      have nonzero : c ≠ 0 := bounded.proper.nonzero (x,c) (by simp)
      have equation : k + c * ν x = 0 := by simpa [Linear.value,holds] using value
      obtain ⟨m,rfl⟩ := Int.dvd_of_emod_eq_zero divides
      intro s below l found
      rw [List.lookup_cons] at found
      split at found
      · rename_i same
        cases found
        rw [← fits.symbols s below,beq_iff_eq.mp same,Int.mul_ediv_cancel_left m nonzero]
        have parts : c * (m + ν x) = 0 := by linarith
        linarith [(mul_eq_zero.mp parts).resolve_left nonzero]
      · exact meets s below l found
    · exact meets
  · exact meets

theorem fix_meets (start : Fits n i { next := n } μ) {zero : List Term} (inScope : ∀ t ∈ zero, t.bound ≤ n)
    (holds : ∀ t ∈ zero, t.eval i = 0) (fuel : Nat) (meets : i.Meets n fixed) : i.Meets n (fix n zero fuel fixed) := by
  induction fuel generalizing fixed with
  | zero => exact meets
  | succ fuel ih =>
    unfold fix
    dsimp only
    split
    · exact meets
    · exact ih (List.foldlRecOn zero _ meets fun _ meets t member =>
        fixOne_meets start meets (inScope t member) (holds t member))

/-- From a valuation that fits, forms with the values of some terms, under a valuation that fits later. -/
def Gathers (n : Nat) (i : Interpretation) (terms : List Term) (q : Quotients) (μ : Nat → Int) (forms : List Linear)
    (r : Quotients) : Prop :=
  ∃ ν, Later q μ r ν ∧ Fits n i r ν ∧ ∀ e ∈ forms, e.Over r.next ∧ ∃ t ∈ terms, e.value ν = t.eval i

theorem linearAll_gathers (meets : i.Meets n fixed) (inScope : ∀ t ∈ terms, t.bound ≤ n) (fits : Fits n i q μ) :
    Gathers n i terms q μ (linearAll fixed terms q).1 (linearAll fixed terms q).2 := by
  refine List.foldlRecOn (motive := fun acc : List Linear × Quotients => Gathers n i terms q μ acc.1 acc.2) terms _
    ⟨μ,.refl q μ,fits,by simp⟩ fun acc before t member => ?_
  obtain ⟨ν,later,fits,all⟩ := before
  dsimp only
  split
  · rename_i e r found
    obtain ⟨ξ,again,fits,bounded,value⟩ := t.linear_reads meets (inScope t member) _ ν e r fits found
    refine ⟨ξ,later.trans again,fits,List.forall_mem_append.mpr ⟨fun f old => ?_,?_⟩⟩
    · obtain ⟨small,u,inside,same⟩ := all f old
      exact ⟨small.mono again.next,u,inside,(again.value small).trans same⟩
    · simpa using ⟨bounded,t,member,value⟩
  · exact ⟨ν,later,fits,all⟩

/-- A quotient by something other than zero leaves a remainder in its bounds. -/
theorem constraints_hold (fits : Fits n i q μ) : ∀ e ∈ q.constraints, e.Proper ∧ 0 ≤ e.value μ := by
  intro e member
  obtain ⟨entry,inside,member⟩ := List.mem_flatMap.mp member
  split at member
  · contradiction
  · rename_i nonzero
    have proper := (fits.made entry inside).2.proper
    have quotient := fits.quotients entry inside
    rw [Interpretation.quotient,if_neg nonzero] at quotient
    have parts := Int.mul_ediv_add_emod (entry.dividend.value μ) entry.divisor
    have lower := Int.emod_nonneg (entry.dividend.value μ) nonzero
    have upper := Int.emod_lt (entry.dividend.value μ) nonzero
    rcases List.mem_cons.mp member with rfl | member
    · refine ⟨proper.sub _,?_⟩
      simp only [Linear.value_sub,Linear.value_scale,Linear.value_ofVar,quotient]
      linarith
    · obtain rfl := List.mem_singleton.mp member
      refine ⟨((proper.sub _).scale (-1)).shift _,?_⟩
      simp only [Linear.value_shift,Linear.value_sub,Linear.value_scale,Linear.value_ofVar,quotient]
      omega

theorem mem_of_clash {solution : Assignment} {entries : List Quotient} {a b : Quotient}
    (clash : clash? solution entries = some (a,b)) : a ∈ entries ∧ b ∈ entries := by
  induction entries with
  | nil => cases clash
  | cons entry rest ih =>
    unfold clash? at clash
    split at clash
    · rename_i other found
      cases clash
      exact ⟨by simp,List.mem_cons_of_mem _ (List.mem_of_find?_eq_some found)⟩
    · exact ⟨List.mem_cons_of_mem _ (ih clash).1,List.mem_cons_of_mem _ (ih clash).2⟩

/-- Where quotients by zero clash, either their dividends are different or they have to be the same. -/
theorem solveFunctional_ne_unsat {entries : List Quotient} (proper : ∀ entry ∈ entries, entry.dividend.Proper)
    (functional : ∀ a ∈ entries, ∀ b ∈ entries, a.dividend.value μ = b.dividend.value μ → μ a.name = μ b.name)
    (fuel : Nat) (s : System) (forms : s.Proper) (solved : s.Solved μ) :
    solveFunctional entries fuel s ≠ .unsat := by
  induction fuel generalizing s with
  | zero => simp [solveFunctional]
  | succ fuel ih =>
    unfold solveFunctional
    split
    · split
      · simp
      · rename_i a b clash
        obtain ⟨one,two⟩ := mem_of_clash clash
        rw [ne_eq,Verdict.firstOf_eq_unsat]
        simp only [List.forall_mem_cons]
        rintro ⟨above,below,same,-⟩
        rcases lt_trichotomy (a.dividend.value μ) (b.dividend.value μ) with less | equal | more
        · refine ih _ (forms.consNonneg (((proper b two).sub _).shift _)) (solved.consNonneg ?_) below
          simp only [Linear.value_shift,Linear.value_sub]
          omega
        · refine ih _ (forms.consZero ((Linear.Proper.ofVar a.name).sub _)) (solved.consZero ?_) same
          simp [functional a one b two equal]
        · refine ih _ (forms.consNonneg (((proper a one).sub _).shift _)) (solved.consNonneg ?_) above
          simp only [Linear.value_shift,Linear.value_sub]
          omega
    · exact System.solve_ne_unsat depth s μ forms solved

theorem byZero_proper (fits : Fits n i q μ) : ∀ entry ∈ q.byZero, entry.dividend.Proper :=
  fun entry member => (fits.made entry (List.mem_of_mem_filter member)).2.proper

theorem byZero_functional (fits : Fits n i q μ) : ∀ a ∈ q.byZero, ∀ b ∈ q.byZero,
    a.dividend.value μ = b.dividend.value μ → μ a.name = μ b.name := by
  have quotient : ∀ entry ∈ q.byZero, μ entry.name = i.byZero (entry.dividend.value μ) := by
    intro entry member
    obtain ⟨inside,zero⟩ := List.mem_filter.mp member
    rw [fits.quotients entry inside,Interpretation.quotient,if_pos (by simpa using zero)]
  intro a one b two equal
  rw [quotient a one,quotient b two,equal]

/-- The terms have only symbols with numbers below `n`. -/
@[mk_iff]
structure InScope (n : Nat) (a : Atoms) : Prop where
  zero : ∀ t ∈ a.zero, t.bound ≤ n
  nonneg : ∀ t ∈ a.nonneg, t.bound ≤ n

theorem holds_iff {a : Atoms} :
    a.holds i = true ↔ (∀ t ∈ a.zero, t.eval i = 0) ∧ ∀ t ∈ a.nonneg, 0 ≤ t.eval i := by
  simp [holds]

theorem solve_ne_unsat {a : Atoms} (start : Fits n i { next := n } μ) (inScope : a.InScope n)
    (holds : a.holds i = true) : a.solve n ≠ .unsat := by
  obtain ⟨zeros,nonnegs⟩ := holds_iff.mp holds
  have meets : i.Meets n (fix n a.zero (a.zero.length + 1) []) :=
    fix_meets start inScope.zero zeros _ fun _ _ _ found => by cases found
  obtain ⟨ν,-,fits,equations⟩ := linearAll_gathers meets inScope.zero start
  obtain ⟨ξ,later,fits,inequalities⟩ := linearAll_gathers meets inScope.nonneg fits
  have safe := solveFunctional_ne_unsat (byZero_proper fits) (byZero_functional fits)
  unfold solve
  dsimp only
  split
  · rename_i unsat
    refine absurd unsat (safe _ _ ⟨fun e member => (equations e member).1.proper,List.forall_mem_append.mpr ⟨?_,?_⟩⟩
      ⟨fun e member => ?_,List.forall_mem_append.mpr ⟨fun e member => ?_,?_⟩⟩)
    · exact fun e member => (inequalities e member).1.proper
    · exact fun e member => (constraints_hold fits e member).1
    · obtain ⟨bounded,t,inside,value⟩ := equations e member
      rw [later.value bounded,value]
      exact zeros t inside
    · obtain ⟨-,t,inside,value⟩ := inequalities e member
      rw [value]
      exact nonnegs t inside
    · exact fun e member => (constraints_hold fits e member).2
  · simp
  · split <;> simp

end Atoms

end WhileExec.Symbolic
