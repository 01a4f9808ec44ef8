import Mathlib
import WhileExec.Proofs.Symbolic.Deciding
import WhileExec.Proofs.Symbolic.LazySteps
import WhileExec.Proofs.Symbolic.Reachability

/-!
# Results of lazy exploration do not overlap

The results partition what the entered state admits: each of them admits something, and nothing is admitted by two.
A branch or loop requires a formula of one part of its results and the negation of the other part, and whatever
follows only narrows what a state admits. That no result is empty rests on new symbols: the states after an
assignment or a havoc are not checked, but a new symbol can be given any integer.

Nothing is asked of the program. Where a condition or a right-hand side has no meaning, the exploration fails, and
the results given until then are as said.
-/

namespace WhileExec.Symbolic

/-- Whatever the later state admits was admitted by the earlier one. -/
def State.Narrows (later earlier : State) : Prop :=
  ∀ i, later.path.holds i = true → earlier.path.holds i = true

namespace State.Narrows

variable {a b c : State} {f : Formula}

theorem refl (a : State) : a.Narrows a := fun _ holds => holds

theorem trans (second : c.Narrows b) (first : b.Narrows a) : c.Narrows a := fun i holds => first i (second i holds)

theorem require (a : State) (f : Formula) : (a.require f).Narrows a :=
  fun _ holds => (require_holds.mp holds).1

end State.Narrows

/-- The state is in the pool and in scope, and stands for some store. -/
def Pool.Possible (p : Pool) (h : Handle) : Prop := ∃ i store, p.Represents h i store

namespace Pool.Possible

variable {p : Pool} {h : Handle}

theorem of_holds {i : Interpretation} (valid : h < p.states.size) (inScope : (p.state h).Scoped p.symbols)
    (holds : (p.state h).path.holds i = true) : p.Possible h :=
  ⟨i,i.store (p.state h).env,valid,inScope,holds,.rfl⟩

/-- Binding variables to new symbols leaves a state possible: the symbols may all be zero. -/
theorem havocked (possible : p.Possible h) (names : List String) : (p.havocked h names).Possible h := by
  induction names generalizing p with
  | nil => exact possible
  | cons name names ih =>
    obtain ⟨i,store,represents⟩ := possible
    exact ih ⟨_,_,represents.renewed name 0⟩

theorem assigned (possible : p.Possible h) (name : String) {t : Term} (inScope : t.bound ≤ p.symbols) :
    (p.assigned h name t).Possible h := by
  obtain ⟨i,store,represents⟩ := possible
  exact ⟨_,_,represents.assigned name inScope⟩

end Pool.Possible

namespace Trace.Taking

/-- The result as it was when it was given. -/
def state (t : Taking) : State := t.given.state t.value

/-- No interpretation is admitted by both results. -/
def Apart (t u : Taking) : Prop := ∀ i, ¬ (t.state.path.holds i = true ∧ u.state.path.holds i = true)

end Trace.Taking

open Trace (Taking)

/-- Results that partition what a state admits; under the condition, none of them is empty. -/
structure Parts (condition : Prop) (s : State) (ts : List Taking) : Prop where
  narrows : ∀ t ∈ ts, t.state.Narrows s
  apart : ts.Pairwise Taking.Apart
  possible : condition → ∀ t ∈ ts, t.given.Possible t.value

namespace Parts

variable {condition other whole : Prop} {a b s : State} {ts us : List Taking}

theorem nil : Parts condition s [] := ⟨by simp,.nil,by simp⟩

theorem mono (parts : Parts condition a ts) (narrows : a.Narrows s) (weaker : other → condition) : Parts other s ts :=
  ⟨fun t member => (parts.narrows t member).trans narrows,parts.apart,fun holds => parts.possible (weaker holds)⟩

/-- The results of two searches, in one of which a formula was required and in the other its negation. -/
theorem append {f : Formula} (first : Parts condition a ts) (second : Parts other b us) (yes : a.Narrows (s.require f))
    (no : b.Narrows (s.require (.not f))) (left : whole → condition) (right : whole → other) :
    Parts whole s (ts ++ us) := by
  refine ⟨fun t member => ?_,List.pairwise_append.mpr ⟨first.apart,second.apart,fun t inFirst u inSecond => ?_⟩,
    fun holds t member => ?_⟩
  · rcases List.mem_append.mp member with member | member
    · exact (first.narrows t member).trans (yes.trans (.require s f))
    · exact (second.narrows t member).trans (no.trans (.require s _))
  · rintro i ⟨one,two⟩
    have true := (State.require_holds.mp (yes i (first.narrows t inFirst i one))).2
    have false := (State.require_holds.mp (no i (second.narrows u inSecond i two))).2
    simp [Formula.eval,true] at false
  · rcases List.mem_append.mp member with member | member
    · exact first.possible (left holds) t member
    · exact second.possible (right holds) t member

theorem flatMap {groups : List (Taking × List Taking)} (outer : Parts condition s (groups.map (·.1)))
    (inner : ∀ g ∈ groups, Parts (g.1.given.Possible g.1.value) g.1.state g.2) :
    Parts condition s (groups.flatMap (·.2)) := by
  refine ⟨fun t member => ?_,List.pairwise_flatMap.mpr ⟨fun g listed => (inner g listed).apart,?_⟩,
    fun holds t member => ?_⟩
  · obtain ⟨g,listed,member⟩ := List.mem_flatMap.mp member
    exact ((inner g listed).narrows t member).trans (outer.narrows g.1 (List.mem_map_of_mem listed))
  · refine (List.pairwise_map.mp outer.apart).imp_of_mem fun {g k} inFirst inSecond apart t one u two i both => ?_
    exact apart i ⟨(inner g inFirst).narrows t one i both.1,(inner k inSecond).narrows u two i both.2⟩
  · obtain ⟨g,listed,member⟩ := List.mem_flatMap.mp member
    exact (inner g listed).possible (outer.possible holds g.1 (List.mem_map_of_mem listed)) t member

end Parts

namespace Lazy

variable {solver : Solver} {cond : Expr} {search next : Handle → Search Handle}

/-- From a possible state the search gives possible states that do not overlap. -/
def Partitions (search : Handle → Search Handle) : Prop :=
  ∀ h p ts whole q, h < p.states.size → (search h p).Draws ts whole q → Parts (p.Possible h) (p.state h) ts

/-- As `Partitions`, where the search asks by itself whether the state is possible. -/
def Checks (search : Handle → Search Handle) : Prop :=
  ∀ h p ts whole q, h < p.states.size → (search h p).Draws ts whole q →
    Parts ((p.state h).Scoped p.symbols) (p.state h) ts

theorem Checks.partitions (checks : Checks search) : Partitions search := by
  intro h p ts whole q valid draws
  refine (checks h p ts whole q valid draws).mono (.refl _) ?_
  rintro ⟨i,store,represents⟩
  exact represents.inScope

theorem single_parts {condition : Prop} {s : State} {h : Handle} {p q : Pool} {ts : List Taking} {whole : Bool}
    (draws : (Trace.yield h p .done).Draws ts whole q) (narrows : (p.state h).Narrows s)
    (possible : condition → p.Possible h) : Parts condition s ts := by
  have single : ∃ r, ts = [⟨h,p,r⟩] := by
    cases draws with
    | last => exact ⟨_,rfl⟩
    | next careful rest => cases rest; exact ⟨_,rfl⟩
  obtain ⟨r,rfl⟩ := single
  refine ⟨fun t member => ?_,by simp,fun holds t member => ?_⟩ <;> rw [List.mem_singleton.mp member]
  · exact narrows
  · exact possible holds

/-- Results that are drawn without being touched are in the end as they were given. -/
theorem Local.draw {h : Handle} {p : Pool} (owns : Local search) (valid : h < p.states.size) (wanted : Option Nat) :
    ∃ ts, (ts = [] ∨ ∃ whole, (search h p).Draws ts whole ((search h).draw wanted p).pool) ∧
      ((search h).draw wanted p).values = ts.map (·.value) ∧
      (∀ t ∈ ts, ((search h).draw wanted p).pool.state t.value = t.state) ∧
      (wanted = none → ((search h).draw wanted p).fault = none →
        (search h p).Draws ts true ((search h).draw wanted p).pool) := by
  by_cases begun : wanted = some 0
  · subst begun
    exact ⟨[],.inl rfl,rfl,by simp,by simp⟩
  have started : (search h).draw wanted p = (search h p).draw wanted := by
    cases wanted with
    | none => rfl
    | some n => cases n with
      | zero => contradiction
      | succ n => rfl
  rw [started]
  obtain ⟨ts,whole,draws,values,untouched,ended⟩ := (search h p).draws_of_draw wanted begun
  refine ⟨ts,.inr ⟨whole,draws⟩,values,fun t member => ?_,fun all unfailing => ended all unfailing ▸ draws⟩
  have lasts := (((owns h p valid).drawn draws).2 t member).lasts
  rw [untouched t member] at lasts
  exact lasts

theorem Partitions.pure : Partitions pure :=
  fun _ _ _ _ _ _ draws => single_parts draws (.refl _) fun possible => possible

theorem Partitions.ifPossible (exact : solver.Exact) (partitions : Partitions search) :
    Checks fun h => ifPossible solver h (search h) := by
  intro h p ts whole q valid draws
  simp only [ifPossible_apply] at draws
  split at draws
  next refused => cases draws; exact .nil
  next passed =>
    obtain ⟨i,holds⟩ := exact.satisfiable (by simpa using passed)
    exact (partitions h p ts whole q valid draws).mono (.refl _) fun inScope => .of_holds valid inScope holds

theorem Partitions.bind (first : Partitions search) (second : Partitions next) (owns : Local search)
    (each : Local next) : Partitions fun h => search h >>= next := by
  intro h p ts whole q valid draws
  have mine := owns h p valid
  obtain ⟨groups,complete,last,outer,rfl,inner,-⟩ := Trace.Draws.of_bind mine each draws
  refine (first h p _ _ _ valid outer).flatMap fun g listed => ?_
  obtain ⟨ended,final,later⟩ := inner g listed
  have inside := ((mine.drawn outer).2 g.1 (List.mem_map_of_mem listed)).valid
  exact second _ _ _ _ _ inside later

theorem Partitions.branch (exact : solver.Exact) (yes : Partitions search) (no : Partitions next)
    (owns : Local search) : Partitions (branch solver cond search next) := by
  intro h p ts whole q valid draws
  rw [branch_apply] at draws
  cases known : p.formula .nested h cond with
  | error fault => simp only [known] at draws; cases draws; exact .nil
  | ok f =>
    simp only [known] at draws
    have older : h < (p.forked h).states.size := by simpa using Nat.lt_succ_of_lt valid
    have inside : h < ((p.forked h).required h f).states.size := by simpa using older
    have entered : ((p.forked h).required h f).state h = (p.state h).require f := by
      rw [Pool.required_state _ f older,p.forked_old h valid]
    have bounded : p.Possible h → (((p.forked h).required h f).state h).Scoped ((p.forked h).required h f).symbols := by
      rintro ⟨i,store,represents⟩
      rw [entered]
      exact represents.inScope.require (Pool.formula_bound known represents.inScope)
    have fromYes : ∀ {us ended r},
        (Lazy.ifPossible solver h (search h) ((p.forked h).required h f)).Draws us ended r →
          Parts (p.Possible h) ((p.state h).require f) us := fun drawn =>
      (yes.ifPossible exact h _ _ _ _ inside drawn).mono (by rw [entered]; exact .refl _) bounded
    obtain ⟨-,first⟩ | ⟨mid,ts,us,rfl,first,second⟩ := Trace.Draws.of_andThen draws
    · exact (fromYes first).mono (.require _ f) id
    have apart : p.states.size ∉ ({h} : Set Handle) := valid.ne'
    have grows := ((owns.ifPossible h _ inside).drawn first).1
    have size : p.states.size < mid.states.size := lt_of_lt_of_le (by simp) grows.size
    have left : (mid.required p.states.size f.not).state p.states.size =
        ((p.forked h).state p.states.size).require f.not := by
      rw [mid.required_state _ size,grows.others _ (by simp) apart,Pool.required_other _ _ apart]
    have others := no.ifPossible exact _ _ us whole q (by simpa using size) second
    rw [left,p.forked_new h] at others
    refine (fromYes first).append others (.refl _) (fun _ holds => holds) id ?_
    rintro ⟨i,store,represents⟩
    have bound := Pool.formula_bound known represents.inScope
    have whole := represents.inScope.require (f := f.not) bound
    exact State.Scoped.mono ⟨whole.env,whole.path⟩ grows.symbols

theorem Partitions.unwind_step (exact : solver.Exact) {bound : Nat}
    (inside : Checks fun h => again solver cond search h bound)
    (owns : Local fun h => again solver cond search h bound) : Partitions (unwind solver cond search bound) := by
  intro h p ts whole q valid draws
  rw [unwind_apply] at draws
  cases known : p.formula .nested h cond with
  | error fault => simp only [known] at draws; cases draws; exact .nil
  | ok f =>
    simp only [known] at draws
    have older := p.lt_split f valid
    have fromBody : ∀ {us ended r}, (again solver cond search h bound (p.split h f)).Draws us ended r →
        Parts (p.Possible h) ((p.state h).require f) us := by
      intro us ended r drawn
      have parts := inside h _ us ended r older drawn
      rw [p.split_state f valid] at parts
      refine parts.mono (.refl _) ?_
      rintro ⟨i,store,represents⟩
      exact represents.inScope.require (Pool.formula_bound known represents.inScope)
    obtain ⟨-,first⟩ | ⟨mid,ts,us,rfl,first,second⟩ := Trace.Draws.of_andThen draws
    · exact (fromBody first).mono (.require _ f) id
    have grows := ((owns h _ older).drawn first).1
    have size : p.states.size < mid.states.size := lt_of_lt_of_le (by simp) grows.size
    have others := Partitions.pure.ifPossible exact _ mid us whole q size second
    rw [grows.others _ (by simp) valid.ne',p.split_new f valid,p.forked_new h] at others
    refine (fromBody first).append others (.refl _) (fun _ holds => holds) id ?_
    rintro ⟨i,store,represents⟩
    have bound := Pool.formula_bound known represents.inScope
    have whole := represents.inScope.require (f := f.not) bound
    exact State.Scoped.mono ⟨whole.env,whole.path⟩ grows.symbols

theorem Partitions.unwind (exact : solver.Exact) (body : Partitions search) (owns : Local search) (bound : Nat) :
    Partitions (unwind solver cond search bound) := by
  induction bound with
  | zero =>
    have inside : Checks fun h => again solver cond search h 0 := by
      intro h p ts whole q valid draws
      cases draws
      exact .nil
    exact unwind_step exact inside (owns.again 0)
  | succ bound ih =>
    exact unwind_step exact ((body.bind ih owns (owns.unwind bound)).ifPossible exact) (owns.again (bound + 1))

end Lazy

open Lazy

theorem lazilyAll_partitions {solver : Solver} (exact : solver.Exact) {bound : Nat} {ss : List Stmt}
    (each : ∀ s ∈ ss, Partitions (lazily solver bound s)) : Partitions (lazilyAll solver bound ss) := by
  induction ss with
  | nil => exact .pure
  | cons s ss ih =>
    have first := ((each s (by simp)).ifPossible exact).partitions
    have rest := ih fun s member => each s (by simp [member])
    intro h
    rw [lazilyAll_cons]
    exact first.bind rest (lazily_local solver bound s).ifPossible
      (lazilyAll_local fun s _ => lazily_local solver bound s) h

theorem lazily_partitions {solver : Solver} (exact : solver.Exact) (bound : Nat) (s : Stmt) :
    Partitions (lazily solver bound s) := by
  induction s using Stmt.structural with
  | skip => exact .pure
  | printState =>
    intro h p ts whole q valid draws
    rw [lazily_printState] at draws
    refine single_parts draws (.refl _) ?_
    rintro ⟨i,store,represents⟩
    exact ⟨i,store,represents.grows (.printed p _) (Set.notMem_empty h)⟩
  | assign name rhs =>
    intro h p ts whole q valid draws
    rw [lazily_assign] at draws
    cases known : p.term .nested h rhs with
    | error fault => simp only [known] at draws; cases draws; exact .nil
    | ok t =>
      simp only [known] at draws
      refine single_parts draws ?_ fun possible => ?_
      · rw [p.assigned_state name t valid]
        exact .require ((p.state h).bind name ⟨name,p.symbols⟩) _
      · obtain ⟨i,store,represents⟩ := id possible
        exact possible.assigned name (Pool.term_bound known represents.inScope)
  | ifElse cond yes no left right =>
    intro h
    rw [lazily_ifElse]
    exact left.branch exact right (lazily_local solver bound yes) h
  | ifOnly cond yes ih =>
    intro h
    rw [lazily_ifOnly]
    exact ih.branch exact .pure (lazily_local solver bound yes) h
  | loop cond body inv ih =>
    intro h
    rw [lazily]
    exact ih.unwind exact (lazily_local solver bound body) bound h
  | assert cond =>
    intro h p ts whole q valid draws
    rw [lazily_assert] at draws
    cases known : p.formula .nested h cond with
    | error fault => simp only [known] at draws; cases draws; exact .nil
    | ok f =>
      simp only [known] at draws
      have grows := checked_grows solver cond h p f
      split at draws
      next r checked =>
        rw [Explore.after_ok checked] at grows
        have inside := valid.trans_le grows.size
        have parts := Partitions.pure.ifPossible exact h (r.required h f) ts whole q (by simpa using inside) draws
        rw [r.required_state f inside,grows.others h valid (Set.notMem_empty h)] at parts
        refine parts.mono (.require _ f) ?_
        rintro ⟨i,store,represents⟩
        exact (represents.inScope.require (Pool.formula_bound known represents.inScope)).mono grows.symbols
      next => cases draws; exact .nil
  | assume cond =>
    intro h p ts whole q valid draws
    rw [lazily_assume] at draws
    cases known : p.formula .nested h cond with
    | error fault => simp only [known] at draws; cases draws; exact .nil
    | ok f =>
      simp only [known] at draws
      have parts := Partitions.pure.ifPossible exact h (p.required h f) ts whole q (by simpa using valid) draws
      rw [p.required_state f valid] at parts
      refine parts.mono (.require _ f) ?_
      rintro ⟨i,store,represents⟩
      exact represents.inScope.require (Pool.formula_bound known represents.inScope)
  | havoc names =>
    intro h p ts whole q valid draws
    rw [lazily_havoc] at draws
    refine single_parts draws (fun i holds => ?_) fun possible => possible.havocked names
    exact (Pool.follows_havocked names valid i holds).1
  | block items ih =>
    intro h
    rw [lazily]
    exact lazilyAll_partitions exact ih h
  | hollow => intro h p ts whole q valid draws; cases draws; exact .nil

theorem explore_local (solver : Solver) (bound : Nat) (s : Stmt) : Local (explore solver bound s) :=
  (lazily_local solver bound s).ifPossible

/-- All results admit something, and no interpretation is admitted by two of them, whichever results are drawn and
whatever becomes of those that were taken. Where they are left alone they are still so in the end. -/
theorem explore_results_apart {solver : Solver} (exact : solver.Exact) {pool : Pool} {live : List (Search Handle)}
    (reachable : Reachable pool live) {h : Handle} (valid : h < pool.states.size) (s : Stmt) (bound : Int) :
    (∀ ts whole q, (explore solver bound.toNat s h pool).Draws ts whole q →
      (∀ t ∈ ts, ∃ i, t.state.path.holds i = true) ∧ ts.Pairwise Taking.Apart) ∧
    ∀ wanted drawn, (explore solver bound.toNat s h).draw wanted pool = drawn →
      (∀ o ∈ drawn.values, ∃ i, (drawn.pool.state o).path.holds i = true) ∧
      drawn.values.Pairwise fun o other => ∀ i,
        ¬ ((drawn.pool.state o).path.holds i = true ∧ (drawn.pool.state other).path.holds i = true) := by
  have each : ∀ ts whole q, (explore solver bound.toNat s h pool).Draws ts whole q →
      (∀ t ∈ ts, ∃ i, t.state.path.holds i = true) ∧ ts.Pairwise Taking.Apart := by
    intro ts whole q draws
    have parts := (lazily_partitions exact bound.toNat s).ifPossible exact h pool ts whole q valid draws
    refine ⟨fun t member => ?_,parts.apart⟩
    obtain ⟨i,store,represents⟩ := parts.possible (reachable.settled.inScope h) t member
    exact ⟨i,represents.allows.path⟩
  refine ⟨each,?_⟩
  rintro wanted drawn rfl
  obtain ⟨ts,drawing,values,same,-⟩ := (explore_local solver bound.toNat s).draw valid wanted
  have known : (∀ t ∈ ts, ∃ i, t.state.path.holds i = true) ∧ ts.Pairwise Taking.Apart := by
    rcases drawing with rfl | ⟨whole,draws⟩
    · simp
    · exact each ts whole _ draws
  rw [values]
  refine ⟨fun o member => ?_,List.pairwise_map.mpr (known.2.imp_of_mem fun {t u} one two apart i => ?_)⟩
  · obtain ⟨t,listed,rfl⟩ := List.mem_map.mp member
    rw [same t listed]
    exact known.1 t listed
  · rw [same t one,same u two]
    exact apart i

/-- Tells large values from small ones. -/
def sizes : Stmt :=
  .ifElse (.app .compare ">" [.var "x",.int 5]) (.assign "y" (.int 1)) (.assign "y" (.int 2))

/-- The variable is `n`, and what is assigned tells whether that is large. -/
def sized (n : Int) : Interpretation :=
  ⟨fun s => if s.index = 0 then n else if 5 < n then 1 else 2,fun _ => 0⟩

/-- Both ways of the branch are possible, so that two states are given. -/
theorem sizes_results : ((explore .precise 1 sizes 0).draw none positive).values = [0,1] := by decide +kernel

theorem explore_sizes_apart :
    ∃ drawn, (explore .precise 1 sizes 0).draw none positive = drawn ∧ drawn.values = [0,1] ∧
      (∃ i, (drawn.pool.state 0).path.holds i = true) ∧ (∃ i, (drawn.pool.state 1).path.holds i = true) ∧
      ∀ i, ¬ ((drawn.pool.state 0).path.holds i = true ∧ (drawn.pool.state 1).path.holds i = true) := by
  have valid : 0 < positive.states.size := by decide +kernel
  obtain ⟨possible,apart⟩ := (explore_results_apart Solver.precise_exact positive_reachable valid sizes 1).2 none _ rfl
  rw [Int.toNat_one,sizes_results] at possible apart
  refine ⟨_,rfl,sizes_results,possible 0 (by simp),possible 1 (by simp),?_⟩
  simpa using apart

end WhileExec.Symbolic
