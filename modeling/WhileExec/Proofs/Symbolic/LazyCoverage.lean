import Mathlib
import WhileExec.Proofs.Symbolic.LazySteps
import WhileExec.Proofs.Symbolic.Reachability

/-!
# Coverage of lazy exploration

Every execution within the bound is found by drawing all results: one of them represents the final store. The
interpretation is extended on the way, whenever the execution gives a value to a new symbol.

`Covers` is stated for whatever gives states from a state, so that branches, loops and blocks are composed from
contracts of their parts.
-/

namespace WhileExec.Symbolic

open Interpretation (Agrees)

namespace Lazy

variable {solver : Solver} {search next : Handle → Search Handle} {R S : Store → Store → Prop} {cond : Expr}

/-- Of all results drawn, one represents the store that `R` leads to. -/
def Covers (search : Handle → Search Handle) (R : Store → Store → Prop) : Prop :=
  ∀ h p ts q i store final, (search h p).Draws ts true q → p.Represents h i store → R store final →
    ∃ t ∈ ts, ∃ j, Agrees p.symbols i j ∧ t.given.Represents t.value j final

theorem covered_yield {h : Handle} {p q r : Pool} {ts : List Trace.Taking} {i j : Interpretation} {final : Store}
    (draws : (Trace.yield h q .done).Draws ts true r) (agree : Agrees p.symbols i j)
    (represents : q.Represents h j final) :
    ∃ t ∈ ts, ∃ j, Agrees p.symbols i j ∧ t.given.Represents t.value j final := by
  cases draws with
  | next careful rest => exact ⟨⟨h,q,_⟩,List.mem_cons_self,j,agree,represents⟩

theorem Covers.pure : Covers pure fun store final => final = store := by
  rintro h p ts q i store final draws represents rfl
  exact covered_yield draws (.refl _ i) represents

/-- A state that represents a store is possible, if the solver refuses only what has no interpretation. -/
theorem Covers.ifPossible (sound : solver.Sound) (covers : Covers search R) :
    Covers (fun h => ifPossible solver h (search h)) R := by
  intro h p ts q i store final draws represents run
  simp only [ifPossible_apply,represents.possible sound,Bool.false_eq_true,if_false] at draws
  exact covers h p ts q i store final draws represents run

theorem Covers.bind (first : Covers search R) (second : Covers next S) (owns : Local search) (each : Local next) :
    Covers (fun h => search h >>= next) fun store final => ∃ mid, R store mid ∧ S mid final := by
  rintro h p ts q i store final draws represents ⟨mid,before,after⟩
  have mine := owns h p represents.valid
  obtain ⟨groups,complete,last,outer,rfl,-,whole⟩ := Trace.Draws.of_bind mine each draws
  obtain ⟨rfl,-,inner⟩ := whole rfl
  obtain ⟨t,member,j,agree,reached⟩ := first h p _ last i store mid outer represents before
  obtain ⟨g,listed,rfl⟩ := List.mem_map.mp member
  obtain ⟨u,drawn,k,further,found⟩ := second _ _ _ _ j mid final (inner g listed) reached after
  have grows := ((mine.drawn outer).2 g.1 member).grows
  exact ⟨u,List.mem_flatMap.mpr ⟨g,listed,drawn⟩,k,agree.trans further grows.symbols,found⟩

theorem Covers.branch (sound : solver.Sound) (typed : cond.isCondition = true) (yes : Covers search R)
    (no : Covers next S) (owns : Local search) :
    Covers (branch solver cond search next) fun store final =>
      (cond.Decides store true ∧ R store final) ∨ (cond.Decides store false ∧ S store final) := by
  intro h p ts q i store final draws represents run
  rw [branch_apply] at draws
  cases known : p.formula .nested h cond with
  | error fault => rw [known] at draws; cases draws
  | ok f =>
    rw [known] at draws
    have decided := Pool.formula_decides known typed represents.allows.store
    have inScope := Pool.formula_bound known represents.inScope
    have entered := represents.grows (.forked p h) (Set.notMem_empty h)
    obtain ⟨stopped,-⟩ | ⟨mid,ts,us,rfl,first,second⟩ := Trace.Draws.of_andThen draws
    · cases stopped
    rcases run with ⟨holds,run⟩ | ⟨fails,run⟩
    · have yesHolds : f.eval i = true := decided.unique holds
      obtain ⟨t,member,found⟩ := yes.ifPossible sound h _ ts mid i store final first
        (entered.required inScope yesHolds) run
      exact ⟨t,List.mem_append_left us member,found⟩
    · have noHolds : f.not.eval i = true := by simp [Formula.eval,decided.unique fails]
      have apart : p.states.size ∉ ({h} : Set Handle) := represents.valid.ne'
      have valid : h < ((p.forked h).required h f).states.size := by simpa using Nat.lt_succ_of_lt represents.valid
      have grows := ((owns.ifPossible h _ valid).drawn first).1
      have other := ((represents.forked.grows (.required _ h f) apart).grows grows apart)
      obtain ⟨t,member,j,agree,found⟩ := no.ifPossible sound _ _ us q i store final second
        (other.required (inScope.trans grows.symbols) noHolds) run
      exact ⟨t,List.mem_append_right ts member,j,(Agrees.refl _ i).trans agree grows.symbols,found⟩

theorem Covers.unwind_step (sound : solver.Sound) (typed : cond.isCondition = true) {bound : Nat}
    (inside : Covers (fun h => again solver cond search h bound) R)
    (owns : Local fun h => again solver cond search h bound) :
    Covers (unwind solver cond search bound) fun store final =>
      (cond.Decides store true ∧ R store final) ∨ (cond.Decides store false ∧ final = store) := by
  intro h p ts q i store final draws represents run
  rw [unwind_apply] at draws
  cases known : p.formula .nested h cond with
  | error fault => rw [known] at draws; cases draws
  | ok f =>
    rw [known] at draws
    have decided := Pool.formula_decides known typed represents.allows.store
    have inScope := Pool.formula_bound known represents.inScope
    obtain ⟨stopped,-⟩ | ⟨mid,ts,us,rfl,first,second⟩ := Trace.Draws.of_andThen draws
    · cases stopped
    rcases run with ⟨holds,run⟩ | ⟨fails,rfl⟩
    · have entered := represents.split_true inScope (decided.unique holds)
      obtain ⟨t,member,found⟩ := inside h _ ts mid i store final first entered run
      exact ⟨t,List.mem_append_left us member,found⟩
    · -- The fork already carries its condition while the iterations are explored, and they leave it alone.
      have left := represents.split_false inScope (decided.unique fails)
      have older := p.lt_split f represents.valid
      have grows := ((owns h _ older).drawn first).1
      have exit := left.grows grows represents.valid.ne'
      obtain ⟨t,member,j,agree,found⟩ := Covers.pure.ifPossible sound _ _ us q i final final second exit rfl
      exact ⟨t,List.mem_append_right ts member,j,(Agrees.refl _ i).trans agree grows.symbols,found⟩

theorem Covers.unwind (sound : solver.Sound) (typed : cond.isCondition = true) (body : Covers search R)
    (owns : Local search) (bound : Nat) : Covers (unwind solver cond search bound) (Iterates cond R bound) := by
  induction bound with
  | zero =>
    have inside : Covers (fun h => again solver cond search h 0) fun _ _ => False :=
      fun _ _ _ _ _ _ _ _ _ run => run.elim
    have covers := unwind_step sound typed inside (owns.again 0)
    exact fun h p ts q i store final draws represents run => covers h p ts q i store final draws represents (.inr run)
  | succ bound ih =>
    have inside : Covers (fun h => again solver cond search h (bound + 1)) fun store final =>
        ∃ mid, R store mid ∧ Iterates cond R bound mid final :=
      (body.bind ih owns (owns.unwind bound)).ifPossible sound
    have covers := unwind_step sound typed inside (owns.again (bound + 1))
    exact fun h p ts q i store final draws represents run =>
      covers h p ts q i store final draws represents run.symm

end Lazy

open Lazy

theorem lazilyAll_covers {solver : Solver} (sound : solver.Sound) {bound : Nat} {ss : List Stmt}
    (each : ∀ s ∈ ss, Covers (lazily solver bound s) (s.Runs bound)) :
    Covers (lazilyAll solver bound ss) (Stmt.RunsAll bound ss) := by
  induction ss with
  | nil => exact .pure
  | cons s ss ih =>
    have first := (each s (by simp)).ifPossible sound
    have rest := ih fun s member => each s (by simp [member])
    intro h
    rw [lazilyAll_cons]
    exact first.bind rest (lazily_local solver bound s).ifPossible
      (lazilyAll_local fun s _ => lazily_local solver bound s) h

theorem lazily_covers {solver : Solver} (sound : solver.Sound) (bound : Nat) (s : Stmt) (typed : s.wellTyped = true) :
    Covers (lazily solver bound s) (s.Runs bound) := by
  induction s using Stmt.structural with
  | skip => exact .pure
  | printState =>
    rintro h p ts q i store final draws represents rfl
    rw [lazily_printState] at draws
    exact covered_yield draws (.refl _ i) (represents.grows (.printed p _) (Set.notMem_empty h))
  | assign name rhs =>
    rintro h p ts q i store final draws represents ⟨v,value,rfl⟩
    rw [lazily_assign] at draws
    cases known : p.term .nested h rhs with
    | error fault => rw [known] at draws; cases draws
    | ok t =>
      rw [known] at draws
      have evaluated := Pool.term_evaluates known typed represents.allows.store
      rw [evaluated] at value
      cases value
      exact covered_yield draws (i.agrees_assign ⟨name,p.symbols⟩ _)
        (represents.assigned name (Pool.term_bound known represents.inScope))
  | ifElse cond yes no left right =>
    simp only [Stmt.wellTyped,Stmt.every,Stmt.sorted,Bool.and_eq_true] at typed
    intro h
    rw [lazily_ifElse]
    exact Covers.branch sound typed.1.1 (left typed.1.2) (right typed.2) (lazily_local solver bound yes) h
  | ifOnly cond yes ih =>
    simp only [Stmt.wellTyped,Stmt.every,Stmt.sorted,Bool.and_eq_true] at typed
    intro h
    rw [lazily_ifOnly]
    exact Covers.branch sound typed.1 (ih typed.2) .pure (lazily_local solver bound yes) h
  | loop cond body inv ih =>
    simp only [Stmt.wellTyped,Stmt.every,Stmt.sorted,Bool.and_eq_true] at typed
    intro h
    rw [lazily]
    exact Covers.unwind sound typed.1 (ih typed.2) (lazily_local solver bound body) bound h
  | assert cond =>
    rintro h p ts q i store final draws represents ⟨holds,rfl⟩
    rw [lazily_assert] at draws
    cases known : p.formula .nested h cond with
    | error fault => rw [known] at draws; cases draws
    | ok f =>
      simp only [known] at draws
      have decided := Pool.formula_decides known typed represents.allows.store
      have inScope := Pool.formula_bound known represents.inScope
      have grows := checked_grows solver cond h p f
      split at draws
      next r checked =>
        rw [Explore.after_ok checked] at grows
        have after := (represents.grows grows (Set.notMem_empty h)).required (inScope.trans grows.symbols)
          (decided.unique holds)
        obtain ⟨t,member,j,agree,found⟩ := Covers.pure.ifPossible sound h _ ts q i final final draws after rfl
        exact ⟨t,member,j,(Agrees.refl _ i).trans agree grows.symbols,found⟩
      next => cases draws
  | assume cond =>
    rintro h p ts q i store final draws represents ⟨holds,rfl⟩
    rw [lazily_assume] at draws
    cases known : p.formula .nested h cond with
    | error fault => rw [known] at draws; cases draws
    | ok f =>
      simp only [known] at draws
      have decided := Pool.formula_decides known typed represents.allows.store
      exact Covers.pure.ifPossible sound h (p.required h f) ts q i final final draws
        (represents.required (Pool.formula_bound known represents.inScope) (decided.unique holds)) rfl
  | havoc names =>
    intro h p ts q i store final draws represents run
    rw [lazily_havoc] at draws
    obtain ⟨j,agree,after⟩ := represents.havocked run
    exact covered_yield draws agree after
  | block items ih =>
    simp only [Stmt.wellTyped,Stmt.every,Stmt.sorted,Bool.and_eq_true] at typed
    intro h
    rw [lazily]
    exact lazilyAll_covers sound (fun s member => ih s member (Stmt.everyOf_iff.mp typed.2 s member)) h
  | hollow => intro h p ts q i store final draws represents run; exact run.elim

/-- Drawing all results covers every execution that ends within the bound: some result has, by an interpretation
that agrees on all symbols there were, the store of the execution. -/
theorem explore_covers_execution {solver : Solver} (sound : solver.Sound) {pool : Pool} {live : List (Search Handle)}
    (reachable : Reachable pool live) {h : Handle} (valid : h < pool.states.size) {s : Stmt}
    (typed : s.wellTyped = true) {bound : Nat} {i : Interpretation} (holds : (pool.state h).path.holds i = true)
    {text : String} {final : Machine}
    (ends : s.exec bound ⟨i.store (pool.state h).env,text⟩ = .ok () final)
    (unfailing : ((explore solver bound s h).draw none pool).fault = none) :
    ∃ o ∈ ((explore solver bound s h).draw none pool).values, ∃ j, Agrees pool.symbols i j ∧
      (((explore solver bound s h).draw none pool).pool.state o).path.holds j = true ∧
      final.store.Equiv (j.store (((explore solver bound s h).draw none pool).pool.state o).env) := by
  obtain ⟨ts,whole,draws,values,untouched,ended⟩ :=
    (explore solver bound s h pool).draws_of_draw none (by simp)
  cases ended rfl unfailing
  have represents : pool.Represents h i (i.store (pool.state h).env) :=
    ⟨valid,reachable.settled.inScope h,holds,.rfl⟩
  obtain ⟨t,member,j,agree,reached⟩ := (lazily_covers sound bound s typed).ifPossible sound h pool ts _ i _ _ draws
    represents (Stmt.runs_of_exec bound s _ final ends)
  have known := (((lazily_local solver bound s).ifPossible h pool valid).drawn draws).2 t member
  have lasts := known.lasts
  rw [untouched t member] at lasts
  refine ⟨t.value,?_,j,agree,?_⟩
  · exact values ▸ List.mem_map_of_mem member
  · change (((explore solver bound s h pool).draw none).pool.state t.value).path.holds j = true ∧
      final.store.Equiv (j.store ((explore solver bound s h pool).draw none |>.pool.state t.value).env)
    rw [lasts]
    exact ⟨reached.allows.path,reached.allows.store⟩

/-- Halves the variable as long as it exceeds five, and then tells whether it is three. -/
def halving : Stmt :=
  .block [
    .loop (.app .compare ">" [.var "x",.int 5]) (.assign "x" (.app .arith "/" [.var "x",.int 2])) none,
    .ifElse (.app .compare "=" [.var "x",.int 3]) (.assign "y" (.int 1)) (.assign "y" (.int 2))]

/-- All symbols are six. -/
def six : Interpretation := ⟨fun _ => 6,fun _ => 0⟩

/-- No path that is asked about here is without interpretations, so a solver that refuses none is right. -/
theorem explore_covers_halving :
    ∃ final, halving.exec 1 ⟨six.store (positive.state 0).env,""⟩ = .ok () final ∧
      final.store["y"]? = some (.int 1) ∧
      ∃ o ∈ ((explore .undecided 1 halving 0).draw none positive).values, ∃ j, Agrees positive.symbols six j ∧
        (((explore .undecided 1 halving 0).draw none positive).pool.state o).path.holds j = true ∧
        final.store.Equiv (j.store (((explore .undecided 1 halving 0).draw none positive).pool.state o).env) :=
  ⟨_,rfl,rfl,explore_covers_execution Solver.undecided_sound positive_reachable (by decide +kernel) (by decide)
    (by decide +kernel) rfl (by decide +kernel)⟩

end WhileExec.Symbolic
