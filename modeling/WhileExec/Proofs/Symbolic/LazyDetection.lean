import Mathlib
import WhileExec.Proofs.Symbolic.LazyReports

/-!
# Detection of violated assertions

While all results of a lazy exploration are drawn, each execution that comes to a violated assertion is found: there
is a new state that has failed and represents the store of that execution. Together with the log of what is reported
this makes the reports exact.

The execution leaves from states that are never results. So the contracts follow it up to the result that the rest of
the search is about to leave from, by `Covers`, and from there into the search of the next statement.
-/

namespace WhileExec.Symbolic

open Interpretation (Agrees)
open Trace (Taking)

/-- A state was made that has failed, and it represents the store by an interpretation with the old symbols. -/
def Pool.Finds (p : Pool) (i : Interpretation) (final : Store) (q : Pool) : Prop :=
  ∃ k j, p.states.size ≤ k ∧ (q.state k).failed = true ∧ Agrees p.symbols i j ∧ q.Represents k j final

namespace Pool.Finds

variable {p mid q : Pool} {i j : Interpretation} {final : Store}

/-- No new state is changed later. -/
theorem later {owned : Set Handle} (found : p.Finds i final mid) (grows : mid.Grows owned q)
    (old : ∀ k ∈ owned, k < p.states.size) : p.Finds i final q := by
  obtain ⟨k,j,new,failed,agree,represents⟩ := found
  have free : k ∉ owned := fun member => absurd (old k member) (Nat.not_lt_of_le new)
  exact ⟨k,j,new,by rw [grows.others k represents.valid free]; exact failed,agree,represents.grows grows free⟩

theorem earlier {owned : Set Handle} (found : mid.Finds j final q) (grows : p.Grows owned mid)
    (agree : Agrees p.symbols i j) : p.Finds i final q := by
  obtain ⟨k,j,new,failed,further,represents⟩ := found
  exact ⟨k,j,grows.size.trans new,failed,agree.trans further grows.symbols,represents⟩

end Pool.Finds

namespace Lazy

variable {solver : Solver} {cond : Expr} {search next : Handle → Search Handle} {R V W : Store → Store → Prop}
  {U : Site → Store → Store → Prop} {h : Handle} {p q : Pool}

/-- While all results are drawn, whatever `V` leads to is found. Those who take the results report by the rules. -/
def Detects (solver : Solver) (search : Handle → Search Handle) (V : Store → Store → Prop) : Prop :=
  ∀ h p ts q i store final, (search h p).Draws ts true q → p.Represents h i store → V store final →
    (∀ t ∈ ts, ∃ log, Log solver (fun _ _ => True) t.given t.back log) → p.Finds i final q

theorem Detects.none : Detects solver search fun _ _ => False :=
  fun _ _ _ _ _ _ _ _ _ violated => violated.elim

theorem Detects.mono (detects : Detects solver search V) (stronger : ∀ store final, W store final → V store final) :
    Detects solver search W :=
  fun h p ts q i store final draws represents violated =>
    detects h p ts q i store final draws represents (stronger store final violated)

theorem Detects.ifPossible (sound : solver.Sound) (detects : Detects solver search V) :
    Detects solver (fun h => ifPossible solver h (search h)) V := by
  intro h p ts q i store final draws represents violated takers
  simp only [ifPossible_apply,represents.possible sound,Bool.false_eq_true,if_false] at draws
  exact detects h p ts q i store final draws represents violated takers

/-- What the next search finds was made while a result was taken, so that the first search leaves it alone. -/
theorem Detects.bind (first : Detects solver search V) (covers : Covers search R) (second : Detects solver next W)
    (reports : Reports solver next U) (owns : Local search) (each : Local next) :
    Detects solver (fun h => search h >>= next) fun store final =>
      V store final ∨ ∃ mid, R store mid ∧ W mid final := by
  intro h p ts q i store final draws represents violated takers
  have mine := owns h p represents.valid
  obtain ⟨groups,complete,last,outer,rfl,-,whole⟩ := Trace.Draws.of_bind mine each draws
  obtain ⟨rfl,rfl,inner⟩ := whole rfl
  have within : ∀ g ∈ groups, ∀ u ∈ g.2, ∃ log, Log solver (fun _ _ => True) u.given u.back log :=
    fun g listed u drawn => takers u (List.mem_flatMap.mpr ⟨g,listed,drawn⟩)
  rcases violated with violated | ⟨mid,before,violated⟩
  · refine first h p _ last i store final outer represents violated fun t member => ?_
    obtain ⟨g,listed,rfl⟩ := List.mem_map.mp member
    have inside := ((mine.drawn outer).2 g.1 member).valid
    exact reports _ _ _ _ _ inside (inner g listed) (fun _ _ _ _ => trivial) (within g listed)
  · obtain ⟨t,member,j,agree,reached⟩ := covers h p _ last i store mid outer represents before
    obtain ⟨g,listed,rfl⟩ := List.mem_map.mp member
    have found := second _ _ _ _ j mid final (inner g listed) reached violated (within g listed)
    have grows := ((mine.drawn outer).2 g.1 member).grows
    exact (found.later (mine.made outer g.1 member) fun _ old => old).earlier grows agree

theorem Detects.branch (sound : solver.Sound) (typed : cond.isCondition = true) (yes : Detects solver search V)
    (no : Detects solver next W) (owns : Local search) (each : Local next) :
    Detects solver (branch solver cond search next) fun store final =>
      (cond.Decides store true ∧ V store final) ∨ (cond.Decides store false ∧ W store final) := by
  intro h p ts q i store final draws represents violated takers
  rw [branch_apply] at draws
  cases known : p.formula .nested h cond with
  | error fault => rw [known] at draws; cases draws
  | ok f =>
    rw [known] at draws
    have decided := Pool.formula_decides known typed represents.allows.store
    have inScope := Pool.formula_bound known represents.inScope
    have entered := represents.grows (.forked p h) (Set.notMem_empty h)
    obtain ⟨stopped,-⟩ | ⟨mid,ts,us,rfl,first,second⟩ := Trace.Draws.of_andThen draws
    · cases stopped
    have apart : p.states.size ∉ ({h} : Set Handle) := represents.valid.ne'
    have valid : h < ((p.forked h).required h f).states.size := by simpa using Nat.lt_succ_of_lt represents.valid
    have begun := ((Pool.Grows.forked p h).widen (Set.empty_subset {h})).trans_same (.required _ h f)
    have grows := ((owns.ifPossible h _ valid).drawn first).1
    have size : p.states.size < (mid.required p.states.size f.not).states.size := by simpa using grows.size
    have later := (Pool.Grows.required mid _ _).trans_same ((each.ifPossible _ _ size).drawn second).1
    rcases violated with ⟨holds,violated⟩ | ⟨fails,violated⟩
    · have yesHolds : f.eval i = true := decided.unique holds
      have found := yes.ifPossible sound h _ ts mid i store final first (entered.required inScope yesHolds) violated
        fun t member => takers t (List.mem_append_left us member)
      exact (found.later later (by simp)).earlier begun (.refl _ i)
    · have noHolds : f.not.eval i = true := by simp [Formula.eval,decided.unique fails]
      have other := ((represents.forked.grows (.required _ h f) apart).grows grows apart)
      have found := no.ifPossible sound _ _ us q i store final second
        (other.required (inScope.trans grows.symbols) noHolds) violated
        fun t member => takers t (List.mem_append_right ts member)
      have new : p.Grows {h} mid := begun.trans_same grows
      obtain ⟨k,j,beyond,failed,agree,represents⟩ := found
      exact ⟨k,j,new.size.trans (by simpa using beyond),failed,(Agrees.refl _ i).trans agree new.symbols,represents⟩

theorem Detects.unwind_step (typed : cond.isCondition = true) {bound : Nat}
    (inside : Detects solver (fun h => again solver cond search h bound) V)
    (owns : Local fun h => again solver cond search h bound) :
    Detects solver (unwind solver cond search bound) fun store final => cond.Decides store true ∧ V store final := by
  rintro h p ts q i store final draws represents ⟨holds,violated⟩ takers
  rw [unwind_apply] at draws
  cases known : p.formula .nested h cond with
  | error fault => rw [known] at draws; cases draws
  | ok f =>
    rw [known] at draws
    have decided := Pool.formula_decides known typed represents.allows.store
    have inScope := Pool.formula_bound known represents.inScope
    obtain ⟨stopped,-⟩ | ⟨mid,ts,us,rfl,first,second⟩ := Trace.Draws.of_andThen draws
    · cases stopped
    have older := p.lt_split f represents.valid
    have grows := ((owns h _ older).drawn first).1
    have size : p.states.size < mid.states.size := lt_of_lt_of_le (by simp) grows.size
    have later := ((Local.pure.ifPossible _ mid size).drawn second).1
    have found := inside h _ ts mid i store final first (represents.split_true inScope (decided.unique holds)) violated
      fun t member => takers t (List.mem_append_left us member)
    exact (found.later later (by simp)).earlier (.split p h f) (.refl _ i)

theorem Detects.unwind (sound : solver.Sound) (typed : cond.isCondition = true) (body : Detects solver search V)
    (covers : Covers search R) (reports : Reports solver search U) (justifies : Justifies search R)
    (owns : Local search) (bound : Nat) :
    Detects solver (unwind solver cond search bound) (Breaks cond R V bound) := by
  induction bound with
  | zero => exact fun _ _ _ _ _ _ _ _ _ violated => violated.elim
  | succ bound ih =>
    have rest := Reports.unwind typed reports justifies owns bound
    exact unwind_step typed ((body.bind covers ih rest owns (owns.unwind bound)).ifPossible sound)
      (owns.again (bound + 1))

/-- The excluded case of an assertion is possible if the execution gets there. -/
theorem check_finds (sound : solver.Sound) {f : Formula} {u : Unit} {i : Interpretation} {store : Store}
    (represents : p.Represents h i store) (inScope : f.bound ≤ p.symbols) (fails : f.eval i = false)
    (ok : check solver cond p.states.size ((p.forked h).required p.states.size f.not) = .ok u q) :
    p.Finds i store q := by
  have refused := represents.forked.required (f := f.not) inScope (by simp [Formula.eval,fails])
  rcases check_ok ok with ⟨impossible,-⟩ | ⟨-,rfl⟩
  · rw [refused.possible sound] at impossible
    contradiction
  · generalize reportText solver _ _ = text
    have marked : ((((p.forked h).required p.states.size f.not).printed text).marked p.states.size).state
        p.states.size = { ((p.forked h).required p.states.size f.not).state p.states.size with failed := true } :=
      Pool.change_state _ _ refused.valid
    refine ⟨p.states.size,i,le_rfl,by rw [marked],.refl _ i,by simp [Pool.marked],?_,?_⟩ <;> rw [marked]
    · exact ⟨refused.inScope.env,refused.inScope.path⟩
    · exact ⟨refused.allows.path,refused.allows.store⟩

end Lazy

open Lazy

theorem lazilyAll_detects {solver : Solver} (sound : solver.Sound) {bound : Nat} {ss : List Stmt}
    (typed : ∀ s ∈ ss, s.wellTyped = true)
    (each : ∀ s ∈ ss, Detects solver (lazily solver bound s) fun store final =>
      ∃ site, s.Violates bound site store final) :
    Detects solver (lazilyAll solver bound ss) fun store final =>
      ∃ n site, Stmt.ViolatesAll bound ss n site store final := by
  induction ss with
  | nil =>
    rintro h p ts q i store final draws represents ⟨n,site,violated⟩
    exact violated.elim
  | cons s ss ih =>
    have later : ∀ s ∈ ss, s.wellTyped = true := fun s member => typed s (by simp [member])
    have first := (each s (by simp)).ifPossible sound
    have rest := ih later fun s member => each s (by simp [member])
    have reports := lazilyAll_reports [] 0 later fun s member => lazily_reports solver bound s (later s member)
    intro h
    rw [lazilyAll_cons]
    refine (first.bind ((lazily_covers sound bound s (typed s (by simp))).ifPossible sound) rest reports
      (lazily_local solver bound s).ifPossible (lazilyAll_local fun s _ => lazily_local solver bound s)).mono ?_ h
    rintro store final ⟨n,site,⟨-,violated⟩ | ⟨m,-,mid,run,violated⟩⟩
    · exact .inl ⟨site,violated⟩
    · exact .inr ⟨mid,run,m,site,violated⟩

theorem lazily_detects {solver : Solver} (sound : solver.Sound) (bound : Nat) (s : Stmt) (typed : s.wellTyped = true) :
    Detects solver (lazily solver bound s) fun store final => ∃ site, s.Violates bound site store final := by
  induction s using Stmt.structural with
  | ifElse cond yes no left right =>
    simp only [Stmt.wellTyped,Stmt.every,Stmt.sorted,Bool.and_eq_true] at typed
    intro h
    rw [lazily_ifElse]
    refine (Detects.branch sound typed.1.1 (left typed.1.2) (right typed.2) (lazily_local solver bound yes)
      (lazily_local solver bound no)).mono ?_ h
    rintro store final ⟨site,⟨holds,inner,-,violated⟩ | ⟨fails,inner,-,violated⟩⟩
    · exact .inl ⟨holds,inner,violated⟩
    · exact .inr ⟨fails,inner,violated⟩
  | ifOnly cond yes ih =>
    simp only [Stmt.wellTyped,Stmt.every,Stmt.sorted,Bool.and_eq_true] at typed
    intro h
    rw [lazily_ifOnly]
    refine (Detects.branch sound typed.1 (ih typed.2) .none (lazily_local solver bound yes) .pure).mono ?_ h
    rintro store final ⟨site,holds,inner,-,violated⟩
    exact .inl ⟨holds,inner,violated⟩
  | loop cond body inv ih =>
    simp only [Stmt.wellTyped,Stmt.every,Stmt.sorted,Bool.and_eq_true] at typed
    intro h
    rw [lazily]
    refine (Detects.unwind sound typed.1 (ih typed.2) (lazily_covers sound bound body typed.2)
      (lazily_reports solver bound body typed.2 []) (lazily_justifies solver bound body typed.2)
      (lazily_local solver bound body) bound).mono ?_ h
    rintro store final ⟨site,inner,-,broken⟩
    exact broken.mono fun _ _ violated => ⟨inner,violated⟩
  | assert cond =>
    rintro h p ts q i store final draws represents ⟨site,-,fails,rfl⟩ takers
    rw [lazily_assert] at draws
    cases known : p.formula .nested h cond with
    | error fault => rw [known] at draws; cases draws
    | ok f =>
      simp only [known] at draws
      have decided := Pool.formula_decides known typed represents.allows.store
      have inScope := Pool.formula_bound known represents.inScope
      have grows := checked_grows solver cond h p f
      split at draws
      next r checked =>
        rw [Explore.after_ok checked] at grows
        have inside := represents.valid.trans_le grows.size
        have single : Local fun h => ifPossible solver h (pure h) := Local.pure.ifPossible
        have later := (single.after (.required r h f) inside).drawn draws
        exact (check_finds sound represents inScope (decided.unique fails) checked).later later.1
          (by simpa using represents.valid)
      next => cases draws
  | block items ih =>
    simp only [Stmt.wellTyped,Stmt.every,Stmt.sorted,Bool.and_eq_true] at typed
    have each := Stmt.everyOf_iff.mp typed.2
    intro h
    rw [lazily]
    refine (lazilyAll_detects sound each fun s member => ih s member (each s member)).mono ?_ h
    rintro store final ⟨site,n,inner,-,violated⟩
    exact ⟨n,inner,violated⟩
  | _ =>
    rintro h p ts q i store final draws represents ⟨site,violated⟩
    exact violated.elim

/-- The state admits something, and only what comes by executions from the other state to a violation of the
assertion. Without havoc the run of the program fails there. -/
structure State.Violating (s : Stmt) (bound : Nat) (start : State) (site : Site) (state : State) : Prop where
  possible : ∃ i, state.path.holds i = true
  violates : ∀ i, state.path.holds i = true → start.path.holds i = true ∧
    ∃ final, s.Violates bound site (i.store start.env) final ∧ final.Equiv (i.store state.env) ∧
      (s.havocFree = true → ∀ text, ∃ out,
        s.exec bound ⟨i.store start.env,text⟩ = .error (.violation site.cond) ⟨final,out⟩)

theorem State.Follows.violating {solver : Solver} (exact : solver.Exact) {s : Stmt} {bound : Nat} {site : Site}
    {start state : State} (follows : start.Follows (s.Violates bound site) state)
    (possible : solver.unsat state.path = false) : start.Violating s bound site state := by
  refine ⟨exact.satisfiable possible,fun i holds => ?_⟩
  obtain ⟨before,ends⟩ := follows i holds
  obtain ⟨final,violates,after⟩ := ends _ ⟨before,.rfl⟩
  refine ⟨before,final,violates,after.store,fun free text => ?_⟩
  exact s.exec_of_violates bound free site ⟨_,text⟩ final violates

/-- While all results are drawn, what is printed is a log in which every reported state stands for violations of the
assertion that it is reported for, and something is reported if and only if some execution within the bound comes to
a violated assertion. -/
theorem explore_reports_violations {solver : Solver} (exact : solver.Exact) {pool : Pool}
    {live : List (Search Handle)} (reachable : Reachable pool live) {h : Handle} (valid : h < pool.states.size)
    {s : Stmt} (typed : s.wellTyped = true) (bound : Nat)
    (unfailing : ((explore solver bound s h).draw none pool).fault = none) :
    ∃ log, Log solver ((pool.state h).Violating s bound) pool ((explore solver bound s h).draw none pool).pool log ∧
      ((∃ k site, .report k site ∈ log) ↔ ∃ i site final, (pool.state h).path.holds i = true ∧
        s.Violates bound site (i.store (pool.state h).env) final) := by
  obtain ⟨ts,whole,draws,-,untouched,ended⟩ := (explore solver bound s h pool).draws_of_draw none (by simp)
  cases ended rfl unfailing
  have takers : ∀ good, ∀ t ∈ ts, ∃ log, Log solver good t.given t.back log :=
    fun good t member => ⟨[],untouched t member ▸ .refl _⟩
  obtain ⟨log,logged⟩ := (lazily_reports solver bound s typed []).ifPossible ((pool.state h).Violating s bound)
    h pool ts _ valid draws (fun site state follows possible => by
      refine State.Follows.violating exact (follows.mono ?_) possible
      rintro store final ⟨inner,rfl,violated⟩
      exact violated) (takers _)
  refine ⟨log,logged,?_,?_⟩
  · rintro ⟨k,site,reported⟩
    obtain ⟨-,-,-,⟨i,holds⟩,violates⟩ := logged.sound k site reported
    obtain ⟨before,final,violated,-⟩ := violates i holds
    exact ⟨i,site,final,before,violated⟩
  · rintro ⟨i,site,final,holds,violated⟩
    have represents : pool.Represents h i (i.store (pool.state h).env) :=
      ⟨valid,reachable.settled.inScope h,holds,.rfl⟩
    obtain ⟨k,j,new,failed,-,found⟩ := (lazily_detects exact.sound bound s typed).ifPossible exact.sound h pool ts _ i
      _ final draws represents ⟨site,violated⟩ (takers _)
    obtain ⟨site,reported⟩ := logged.complete k new found.valid failed
    exact ⟨k,site,reported⟩

/-- Large values are asserted to be less than nine. -/
def limited : Stmt :=
  .ifOnly (.app .compare ">" [.var "x",.int 5]) (.assert (.app .compare "<" [.var "x",.int 9]))

theorem limited_unfailing : ((explore .precise 1 limited 0).draw none positive).fault = none := by decide +kernel

/-- A value of nine is reported. -/
theorem explore_reports_limited :
    ∃ log, Log .precise ((positive.state 0).Violating limited 1) positive
        ((explore .precise 1 limited 0).draw none positive).pool log ∧
      ∃ k site, .report k site ∈ log := by
  have valid : 0 < positive.states.size := by decide +kernel
  obtain ⟨log,logged,reported⟩ := explore_reports_violations Solver.precise_exact positive_reachable valid
    (s := limited) (by decide) 1 limited_unfailing
  refine ⟨log,logged,reported.mpr ⟨sized 9,⟨[0],_⟩,_,by decide +kernel,⟨_,rfl,rfl⟩,⟨[],_⟩,rfl,rfl,⟨_,rfl,rfl⟩,rfl⟩⟩

end WhileExec.Symbolic
