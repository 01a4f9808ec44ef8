import Mathlib
import WhileExec.Proofs.Symbolic.LazySteps
import WhileExec.Proofs.Symbolic.Reachability

/-!
# Soundness of lazy exploration

Every interpretation of a result is one of the state that the exploration began with, and an execution leads from
the store there to the store here. Nothing is asked of the solver: a path that it refuses only loses results.
-/

namespace WhileExec.Symbolic

namespace Lazy

variable {solver : Solver} {search next : Handle → Search Handle} {R S : Store → Store → Prop} {cond : Expr}

/-- Each result drawn follows from the entered state by `R`. -/
def Justifies (search : Handle → Search Handle) (R : Store → Store → Prop) : Prop :=
  ∀ h p ts whole q, h < p.states.size → (search h p).Draws ts whole q →
    ∀ t ∈ ts, (p.state h).Follows R (t.given.state t.value)

theorem justified_yield {s : State} {h : Handle} {p q : Pool} {ts : List Trace.Taking} {whole : Bool}
    (draws : (Trace.yield h p .done).Draws ts whole q) (follows : s.Follows R (p.state h)) :
    ∀ t ∈ ts, s.Follows R (t.given.state t.value) := by
  intro t member
  cases draws with
  | last => rw [List.mem_singleton.mp member]; exact follows
  | next careful rest =>
    cases rest
    rw [List.mem_singleton.mp member]
    exact follows

theorem Justifies.pure : Justifies pure fun store final => final = store :=
  fun h p _ _ _ _ draws => justified_yield draws (.refl (p.state h))

theorem Justifies.ifPossible (justifies : Justifies search R) :
    Justifies (fun h => ifPossible solver h (search h)) R := by
  intro h p ts whole q valid draws
  simp only [ifPossible_apply] at draws
  split at draws
  · cases draws; simp
  · exact justifies h p ts whole q valid draws

theorem Justifies.bind (first : Justifies search R) (second : Justifies next S) (owns : Local search)
    (each : Local next) :
    Justifies (fun h => search h >>= next) fun store final => ∃ mid, R store mid ∧ S mid final := by
  intro h p ts whole q valid draws t member
  have mine := owns h p valid
  obtain ⟨groups,complete,last,outer,rfl,inner,-⟩ := Trace.Draws.of_bind mine each draws
  obtain ⟨g,listed,drawn⟩ := List.mem_flatMap.mp member
  have taken : g.1 ∈ groups.map (·.1) := List.mem_map_of_mem listed
  obtain ⟨ended,final,later⟩ := inner g listed
  have before := first h p _ _ last valid outer g.1 taken
  have inside := ((mine.drawn outer).2 g.1 taken).valid
  exact before.trans (second _ _ _ _ _ inside later t drawn)

theorem Justifies.branch (typed : cond.isCondition = true) (yes : Justifies search R) (no : Justifies next S)
    (owns : Local search) :
    Justifies (branch solver cond search next) fun store final =>
      (cond.Decides store true ∧ R store final) ∨ (cond.Decides store false ∧ S store final) := by
  intro h p ts whole q valid draws t member
  rw [branch_apply] at draws
  cases known : p.formula .nested h cond with
  | error fault => simp only [known] at draws; cases draws; simp at member
  | ok f =>
    simp only [known] at draws
    have inside : h < ((p.forked h).required h f).states.size := by simpa using Nat.lt_succ_of_lt valid
    have fromYes : ∀ {us ended r}, (Lazy.ifPossible solver h (search h) ((p.forked h).required h f)).Draws us ended r →
        t ∈ us → (p.state h).Follows (fun store final => cond.Decides store true ∧ R store final)
          (t.given.state t.value) := by
      intro us ended r drawn member
      have after := yes.ifPossible h _ us ended r inside drawn t member
      rw [Pool.required_state _ f (by simpa using Nat.lt_succ_of_lt valid),p.forked_old h valid] at after
      exact (Pool.follows_required known typed).under after
    obtain ⟨-,first⟩ | ⟨mid,ts,us,rfl,first,second⟩ := Trace.Draws.of_andThen draws
    · exact (fromYes first member).mono fun _ _ => .inl
    rcases List.mem_append.mp member with member | member
    · exact (fromYes first member).mono fun _ _ => .inl
    · have apart : p.states.size ∉ ({h} : Set Handle) := valid.ne'
      have grows := ((owns.ifPossible h _ inside).drawn first).1
      have size : p.states.size < mid.states.size := lt_of_lt_of_le (by simp) grows.size
      have after := no.ifPossible _ _ us whole q (by simpa using size) second t member
      rw [mid.required_state _ size,grows.others _ (by simp) apart,Pool.required_other _ _ apart] at after
      exact ((Pool.follows_refused known typed).under after).mono fun _ _ => .inr

theorem Justifies.unwind_step (typed : cond.isCondition = true) {bound : Nat}
    (inside : Justifies (fun h => again solver cond search h bound) R)
    (owns : Local fun h => again solver cond search h bound) :
    Justifies (unwind solver cond search bound) fun store final =>
      (cond.Decides store true ∧ R store final) ∨ (cond.Decides store false ∧ final = store) := by
  intro h p ts whole q valid draws t member
  rw [unwind_apply] at draws
  cases known : p.formula .nested h cond with
  | error fault => simp only [known] at draws; cases draws; simp at member
  | ok f =>
    simp only [known] at draws
    have older := p.lt_split f valid
    have fromBody : ∀ {us ended r}, (again solver cond search h bound (p.split h f)).Draws us ended r →
        t ∈ us → (p.state h).Follows (fun store final => cond.Decides store true ∧ R store final)
          (t.given.state t.value) := by
      intro us ended r drawn member
      have after := inside h _ us ended r older drawn t member
      rw [p.split_state f valid] at after
      exact (Pool.follows_required known typed).under after
    obtain ⟨-,first⟩ | ⟨mid,ts,us,rfl,first,second⟩ := Trace.Draws.of_andThen draws
    · exact (fromBody first member).mono fun _ _ => .inl
    rcases List.mem_append.mp member with member | member
    · exact (fromBody first member).mono fun _ _ => .inl
    · have grows := ((owns h _ older).drawn first).1
      have size : p.states.size < mid.states.size := lt_of_lt_of_le (by simp) grows.size
      have after := Justifies.pure.ifPossible _ mid us whole q size second t member
      rw [grows.others _ (by simp) valid.ne',p.split_new f valid] at after
      exact ((Pool.follows_refused known typed).under after).mono fun _ _ => .inr

theorem Justifies.mono (justifies : Justifies search R) (weaker : ∀ store final, R store final → S store final) :
    Justifies search S :=
  fun h p ts whole q valid draws t member => (justifies h p ts whole q valid draws t member).mono weaker

theorem Justifies.unwind (typed : cond.isCondition = true) (body : Justifies search R) (owns : Local search)
    (bound : Nat) : Justifies (unwind solver cond search bound) (Iterates cond R bound) := by
  induction bound with
  | zero =>
    have inside : Justifies (fun h => again solver cond search h 0) fun _ _ => False := by
      intro h p ts whole q valid draws
      cases draws
      simp
    refine (unwind_step typed inside (owns.again 0)).mono ?_
    rintro store final (⟨-,run⟩ | run)
    · exact run.elim
    · exact run
  | succ bound ih =>
    have inside : Justifies (fun h => again solver cond search h (bound + 1)) fun store final =>
        ∃ mid, R store mid ∧ Iterates cond R bound mid final :=
      (body.bind ih owns (owns.unwind bound)).ifPossible
    exact (unwind_step typed inside (owns.again (bound + 1))).mono fun _ _ run => run.symm

end Lazy

open Lazy

theorem lazilyAll_justifies {solver : Solver} {bound : Nat} {ss : List Stmt}
    (each : ∀ s ∈ ss, Justifies (lazily solver bound s) (s.Runs bound)) :
    Justifies (lazilyAll solver bound ss) (Stmt.RunsAll bound ss) := by
  induction ss with
  | nil => exact .pure
  | cons s ss ih =>
    have rest := ih fun s member => each s (by simp [member])
    intro h
    rw [lazilyAll_cons]
    exact (each s (by simp)).ifPossible.bind rest (lazily_local solver bound s).ifPossible
      (lazilyAll_local fun s _ => lazily_local solver bound s) h

theorem lazily_justifies (solver : Solver) (bound : Nat) (s : Stmt) (typed : s.wellTyped = true) :
    Justifies (lazily solver bound s) (s.Runs bound) := by
  induction s using Stmt.structural with
  | skip => exact .pure
  | printState =>
    intro h p ts whole q valid draws
    rw [lazily_printState] at draws
    exact justified_yield draws (.refl _)
  | assign name rhs =>
    intro h p ts whole q valid draws
    rw [lazily_assign] at draws
    cases known : p.term .nested h rhs with
    | error fault => simp only [known] at draws; cases draws; simp
    | ok t =>
      simp only [known] at draws
      exact justified_yield draws (Pool.follows_assigned known typed valid)
  | ifElse cond yes no left right =>
    simp only [Stmt.wellTyped,Stmt.every,Stmt.sorted,Bool.and_eq_true] at typed
    intro h
    rw [lazily_ifElse]
    exact Justifies.branch typed.1.1 (left typed.1.2) (right typed.2) (lazily_local solver bound yes) h
  | ifOnly cond yes ih =>
    simp only [Stmt.wellTyped,Stmt.every,Stmt.sorted,Bool.and_eq_true] at typed
    intro h
    rw [lazily_ifOnly]
    exact Justifies.branch typed.1 (ih typed.2) .pure (lazily_local solver bound yes) h
  | loop cond body inv ih =>
    simp only [Stmt.wellTyped,Stmt.every,Stmt.sorted,Bool.and_eq_true] at typed
    intro h
    rw [lazily]
    exact Justifies.unwind typed.1 (ih typed.2) (lazily_local solver bound body) bound h
  | assert cond =>
    intro h p ts whole q valid draws
    rw [lazily_assert] at draws
    cases known : p.formula .nested h cond with
    | error fault => simp only [known] at draws; cases draws; simp
    | ok f =>
      simp only [known] at draws
      have grows := checked_grows solver cond h p f
      split at draws
      next r checked =>
        rw [Explore.after_ok checked] at grows
        intro t member
        have inside := valid.trans_le grows.size
        have after := Justifies.pure.ifPossible h (r.required h f) ts whole q (by simpa using inside) draws t member
        rw [r.required_state f inside,grows.others h valid (Set.notMem_empty h)] at after
        exact (Pool.follows_required known typed).under after
      next => cases draws; simp
  | assume cond =>
    intro h p ts whole q valid draws
    rw [lazily_assume] at draws
    cases known : p.formula .nested h cond with
    | error fault => simp only [known] at draws; cases draws; simp
    | ok f =>
      simp only [known] at draws
      intro t member
      have after := Justifies.pure.ifPossible h (p.required h f) ts whole q (by simpa using valid) draws t member
      rw [p.required_state f valid] at after
      exact (Pool.follows_required known typed).under after
  | havoc names =>
    intro h p ts whole q valid draws
    rw [lazily_havoc] at draws
    exact justified_yield draws (Pool.follows_havocked names valid)
  | block items ih =>
    simp only [Stmt.wellTyped,Stmt.every,Stmt.sorted,Bool.and_eq_true] at typed
    intro h
    rw [lazily]
    exact lazilyAll_justifies (fun s member => ih s member (Stmt.everyOf_iff.mp typed.2 s member)) h
  | hollow => intro h p ts whole q valid draws; cases draws; simp

/-- Every result that is drawn, by every interpretation it admits, ends an execution within the bound that began in
the entered state; a negative bound allows no iterations. Without havoc this is the run of the program. -/
theorem explore_result_executes (solver : Solver) (bound : Int) {pool : Pool} {h : Handle}
    (valid : h < pool.states.size) {s : Stmt} (typed : s.wellTyped = true) {wanted : Option Nat} {o : Handle}
    (drawn : o ∈ ((explore solver bound.toNat s h).draw wanted pool).values) {i : Interpretation}
    (holds : (((explore solver bound.toNat s h).draw wanted pool).pool.state o).path.holds i = true) :
    (pool.state h).path.holds i = true ∧
      ∃ final, s.Runs bound.toNat (i.store (pool.state h).env) final ∧
        final.Equiv (i.store (((explore solver bound.toNat s h).draw wanted pool).pool.state o).env) ∧
        (s.havocFree = true → ∀ text, ∃ out,
          s.exec bound.toNat ⟨i.store (pool.state h).env,text⟩ = .ok () ⟨final,out⟩) := by
  have begun : wanted ≠ some 0 := by
    rintro rfl
    simp [Search.draw] at drawn
  have started : (explore solver bound.toNat s h).draw wanted pool =
      (explore solver bound.toNat s h pool).draw wanted := by
    cases wanted with
    | none => rfl
    | some n => cases n with
      | zero => contradiction
      | succ n => rfl
  rw [started] at drawn holds ⊢
  obtain ⟨ts,whole,draws,values,untouched,-⟩ :=
    (explore solver bound.toNat s h pool).draws_of_draw wanted begun
  rw [values] at drawn
  obtain ⟨t,member,rfl⟩ := List.mem_map.mp drawn
  have known := (((lazily_local solver bound.toNat s).ifPossible h pool valid).drawn draws).2 t member
  have lasts := known.lasts
  rw [untouched t member] at lasts
  rw [lasts] at holds ⊢
  obtain ⟨before,follows⟩ := (lazily_justifies solver bound.toNat s typed).ifPossible h pool ts whole _ valid draws
    t member i holds
  obtain ⟨final,run,after⟩ := follows _ ⟨before,.rfl⟩
  exact ⟨before,final,run,after.store,fun free text => Stmt.exec_of_runs bound.toNat s free ⟨_,text⟩ final run⟩

/-- Lowers the variable, halves it, and asserts what it has come to. -/
def lowering : Stmt :=
  .block [
    .ifOnly (.app .compare ">" [.var "x",.int 8]) (.assign "x" (.app .arith "-" [.var "x",.int 5])),
    .loop (.app .compare ">" [.var "x",.int 5]) (.assign "x" (.app .arith "/" [.var "x",.int 2])) none,
    .assert (.app .compare "=" [.var "x",.int 3])]

/-- The variable is first eleven, then six, and three at last. -/
def eleven : Interpretation :=
  ⟨fun s => match s.index with | 0 => 11 | 1 => 6 | _ => 3,fun _ => 0⟩

theorem explore_lowering_executes :
    3 ∈ ((explore .undecided 1 lowering 0).draw (some 1) positive).values ∧
      (positive.state 0).path.holds eleven = true ∧
      ∃ final, lowering.Runs 1 (eleven.store (positive.state 0).env) final ∧
        final.Equiv (eleven.store (((explore .undecided 1 lowering 0).draw (some 1) positive).pool.state 3).env) ∧
        (lowering.havocFree = true → ∀ text, ∃ out,
          lowering.exec 1 ⟨eleven.store (positive.state 0).env,text⟩ = .ok () ⟨final,out⟩) :=
  ⟨by decide +kernel,
    explore_result_executes .undecided 1 (by decide +kernel) (by decide) (by decide +kernel) (by decide +kernel)⟩

end WhileExec.Symbolic
