import Mathlib
import WhileExec.Symbolic.Lazy
import WhileExec.Proofs.Symbolic.Drawing

/-!
# Steps of lazy exploration

One equation for every statement, with the actions on the pool carried out. The states in which a condition holds
and those in which it fails are explored one after the other; the second part starts from the fork as it was left,
since the first part does not own it: `lazily_local`.
-/

namespace WhileExec.Symbolic

namespace Lazy

theorem report_after (solver : Solver) (s : Stmt) (h : Handle) (p : Pool) :
    p.Grows {h} (Explore.after (report solver s h) p) := by
  unfold report
  refine Explore.after_bind (.widen (.printed p _) (Set.empty_subset _)) fun _ _ _ => ?_
  refine Explore.after_bind (.widen (Explore.printWritten_after _ _) (Set.empty_subset _)) fun _ _ _ => ?_
  refine Explore.after_bind (.refl _ _) fun _ _ _ => ?_
  refine Explore.after_bind (.widen (.printed _ _) (Set.empty_subset _)) fun _ _ _ => ?_
  refine Explore.after_bind (.widen (.printed _ _) (Set.empty_subset _)) fun _ q _ => ?_
  exact .marked q h

theorem ifPossible_apply (solver : Solver) (h : Handle) (search : Search Handle) (p : Pool) :
    ifPossible solver h search p = if solver.unsat (p.state h).path then .done p else search p := by
  unfold ifPossible
  rw [Search.lift_bind,Explore.isEmpty_apply]
  cases solver.unsat (p.state h).path <;> rfl

/-- The two ways of a branch, each with its state. -/
def branch (solver : Solver) (cond : Expr) (yes no : Handle → Search Handle) (h : Handle) : Search Handle := do
  let f ← Explore.formula .nested h cond
  let other ← Explore.fork h
  Explore.require h f
  (ifPossible solver h (yes h)).also do
    Explore.require other (.not f)
    ifPossible solver other (no other)

theorem branch_apply (solver : Solver) (cond : Expr) (yes no : Handle → Search Handle) (h : Handle) (p : Pool) :
    branch solver cond yes no h p = match p.formula .nested h cond with
      | .ok f => (ifPossible solver h (yes h) ((p.forked h).required h f)).andThen fun q =>
          ifPossible solver p.states.size (no p.states.size) (q.required p.states.size (.not f))
      | .error fault => .failed fault p := by
  unfold branch
  rw [Search.lift_bind,Explore.formula_apply]
  cases p.formula .nested h cond with
  | error fault => rfl
  | ok f =>
    simp only [Search.lift_bind,Explore.fork_apply,Explore.require_apply,Search.also_apply]
    congr 1
    funext q
    rw [Search.lift_bind,Explore.require_apply]

/-- The iterations that a bound still allows. -/
def again (solver : Solver) (cond : Expr) (body : Handle → Search Handle) (h : Handle) : Nat → Search Handle
  | 0 => Search.none
  | bound + 1 => ifPossible solver h do
    let out ← body h
    unwind solver cond body bound out

theorem unwind_apply (solver : Solver) (cond : Expr) (body : Handle → Search Handle) (bound : Nat) (h : Handle)
    (p : Pool) :
    unwind solver cond body bound h p = match p.formula .nested h cond with
      | .ok f => (again solver cond body h bound (p.split h f)).andThen
          (ifPossible solver p.states.size (pure p.states.size))
      | .error fault => .failed fault p := by
  rw [unwind.eq_def]
  change (liftM (Explore.formula .nested h cond) >>= _ : Search Handle) p = _
  rw [Search.lift_bind,Explore.formula_apply]
  cases p.formula .nested h cond with
  | error fault => rfl
  | ok f =>
    simp only [Search.lift_bind,Explore.fork_apply,Explore.require_apply,Search.also_apply]
    cases bound <;> rfl

/-- An assertion reports the case that it excludes. -/
def check (solver : Solver) (cond : Expr) (other : Handle) : Explore Unit := do
  unless ← Explore.isEmpty solver other do
    report solver (.assert cond) other

theorem check_apply (solver : Solver) (cond : Expr) (other : Handle) (p : Pool) :
    check solver cond other p =
      if solver.unsat (p.state other).path then .ok () p else report solver (.assert cond) other p := by
  change (if solver.unsat (p.state other).path then pure PUnit.unit else report solver (.assert cond) other :
    Explore Unit) p = _
  split <;> rfl

theorem check_after (solver : Solver) (cond : Expr) (other : Handle) (p : Pool) :
    p.Grows {other} (Explore.after (check solver cond other) p) := by
  refine Explore.after_bind (.refl _ p) fun empty q _ => ?_
  cases empty with
  | true => exact .refl _ q
  | false => exact report_after solver (.assert cond) other q

/-- An assertion changes no state before its condition is required. -/
theorem checked_grows (solver : Solver) (cond : Expr) (h : Handle) (p : Pool) (f : Formula) :
    p.Grows ∅ (Explore.after (check solver cond p.states.size) ((p.forked h).required p.states.size (.not f))) := by
  have marked := (Pool.Grows.required (p.forked h) p.states.size (.not f)).trans_same (check_after solver cond _ _)
  exact (Pool.Grows.forked p h).trans marked fun k new old => absurd (new ▸ old) (lt_irrefl _)

end Lazy

open Lazy

section Equations

-- The defining equations are generated here, once for all theorems of the section, which wait for them otherwise.
attribute [local simp] lazily lazilyAll

variable (solver : Solver) (bound : Nat) (h : Handle) (p : Pool)

theorem lazily_assign (name : String) (rhs : Expr) :
    lazily solver bound (.assign name rhs) h p = match p.term .nested h rhs with
      | .ok t => .yield h (p.assigned h name t) .done
      | .error fault => .failed fault p := by
  rw [lazily,Search.lift_bind,Explore.assign_apply]
  cases p.term .nested h rhs <;> rfl

theorem lazily_ifElse (cond : Expr) (yes no : Stmt) :
    lazily solver bound (.ifElse cond yes no) h =
      branch solver cond (lazily solver bound yes) (lazily solver bound no) h := by
  rw [lazily,branch]

theorem lazily_ifOnly (cond : Expr) (yes : Stmt) :
    lazily solver bound (.ifOnly cond yes) h = branch solver cond (lazily solver bound yes) pure h := by
  rw [lazily,branch]

theorem lazily_assert (cond : Expr) :
    lazily solver bound (.assert cond) h p = match p.formula .nested h cond with
      | .ok f => match check solver cond p.states.size ((p.forked h).required p.states.size (.not f)) with
        | .ok _ q => ifPossible solver h (pure h) (q.required h f)
        | .error fault q => .failed fault q
      | .error fault => .failed fault p := by
  rw [lazily,Search.lift_bind,Explore.formula_apply]
  cases p.formula .nested h cond with
  | error fault => rfl
  | ok f =>
    simp only [Search.lift_bind,Explore.fork_apply,Explore.require_apply,Explore.isEmpty_apply]
    rw [check_apply]
    cases solver.unsat (((p.forked h).required p.states.size f.not).state p.states.size).path with
    | true =>
      simp only [if_true,Search.lift_bind,Explore.require_apply]
    | false =>
      simp only [Bool.false_eq_true,if_false,Search.lift_bind,Explore.require_apply]
      cases report solver (.assert cond) p.states.size ((p.forked h).required p.states.size f.not) <;> rfl

theorem lazily_assume (cond : Expr) :
    lazily solver bound (.assume cond) h p = match p.formula .nested h cond with
      | .ok f => ifPossible solver h (pure h) (p.required h f)
      | .error fault => .failed fault p := by
  rw [lazily,Search.lift_bind,Explore.formula_apply]
  cases p.formula .nested h cond with
  | error fault => rfl
  | ok f => simp only [Search.lift_bind,Explore.require_apply]

theorem lazily_havoc (names : List String) :
    lazily solver bound (.havoc names) h p = .yield h (p.havocked h names) .done := by
  rw [lazily,Search.lift_bind,Explore.havoc_apply]
  rfl

theorem lazily_printState :
    lazily solver bound .printState h p = .yield h (p.printed ((p.state h).text ++ "\n")) .done := by
  rw [lazily,Search.lift_bind,Explore.printState_apply]
  rfl

theorem lazilyAll_cons (s : Stmt) (ss : List Stmt) :
    lazilyAll solver bound (s :: ss) h =
      ifPossible solver h (lazily solver bound s h) >>= lazilyAll solver bound ss := by
  rw [lazilyAll]

end Equations

namespace Lazy

variable {solver : Solver} {cond : Expr} {search next : Handle → Search Handle}

/-- The search depends on no state but the one it starts from. -/
def Local (search : Handle → Search Handle) : Prop :=
  ∀ h p, h < p.states.size → (search h p).Owns {h} p

theorem yield_owns {h : Handle} {p q : Pool} (grows : p.Grows {h} q) (valid : h < p.states.size) :
    (Trace.yield h q .done).Owns {h} p :=
  .yield ∅ grows (valid.trans_le grows.size) (fun _ => rfl) (Set.notMem_empty h) (by simp) (by simp)
    fun r _ => .done (.refl _ r)

theorem Local.pure : Local pure := fun _ p valid => yield_owns (.refl _ p) valid

theorem Local.ifPossible (owns : Local search) : Local fun h => ifPossible solver h (search h) := by
  intro h p valid
  simp only [ifPossible_apply]
  split
  · exact .done (.refl _ p)
  · exact owns h p valid

theorem Local.bind (owns : Local search) (each : Local next) : Local fun h => search h >>= next :=
  fun h p valid => (owns h p valid).bind each

theorem Local.after {h : Handle} {p q : Pool} (owns : Local search) (grows : p.Grows {h} q)
    (valid : h < p.states.size) : (search h q).Owns {h} p :=
  (owns h q (valid.trans_le grows.size)).mono grows fun _ same _ => same

/-- One search goes on with the state, the next one with a fork of it. -/
theorem fork_owns {h : Handle} {p q : Pool} {first : Trace Handle} {second : Pool → Trace Handle}
    (valid : h < p.states.size) (grows : (p.forked h).Grows ({h} ∪ {p.states.size}) q) (owns : first.Owns {h} q)
    (after : ∀ r, p.states.size < r.states.size → (second r).Owns {p.states.size} r) :
    (first.andThen second).Owns {h} p := by
  have size : p.states.size < q.states.size := by simpa using grows.size
  refine (owns.andThen ?_ ?_ fun r later => after r (size.trans_le later)).mono grows.of_forked ?_
  · rintro k rfl same
    exact absurd (same ▸ valid) (lt_irrefl _)
  · rintro k rfl
    exact size
  · rintro k (same | new) old
    · exact same
    · exact absurd (new ▸ old) (lt_irrefl _)

theorem Local.branch (yes : Local search) (no : Local next) : Local (branch solver cond search next) := by
  intro h p valid
  rw [branch_apply]
  cases p.formula .nested h cond with
  | error fault => exact .failed (.refl _ p)
  | ok f =>
    have grows := (Pool.Grows.required (p.forked h) h f).widen (Set.subset_union_left (t := {p.states.size}))
    have inside : h < ((p.forked h).required h f).states.size := by simpa using Nat.lt_succ_of_lt valid
    refine fork_owns valid grows (yes.ifPossible h _ inside) fun r size => ?_
    exact no.ifPossible.after (.required r _ _) size

theorem Local.unwind_step {bound : Nat} (inside : Local fun h => again solver cond search h bound) :
    Local (unwind solver cond search bound) := by
  intro h p valid
  rw [unwind_apply]
  cases p.formula .nested h cond with
  | error fault => exact .failed (.refl _ p)
  | ok f =>
    have older := p.lt_split f valid
    refine fork_owns valid (.split_parts p h f) (inside h _ older) fun r size => ?_
    exact Local.pure.ifPossible _ r size

theorem Local.again (body : Local search) (bound : Nat) : Local fun h => again solver cond search h bound := by
  induction bound with
  | zero => exact fun _ p _ => .done (.refl _ p)
  | succ bound ih => exact (body.bind ih.unwind_step).ifPossible

theorem Local.unwind (body : Local search) (bound : Nat) : Local (unwind solver cond search bound) :=
  (body.again bound).unwind_step

end Lazy

theorem lazilyAll_local {solver : Solver} {bound : Nat} {ss : List Stmt}
    (each : ∀ s ∈ ss, Local (lazily solver bound s)) : Local (lazilyAll solver bound ss) := by
  induction ss with
  | nil => exact .pure
  | cons s ss ih =>
    intro h
    rw [lazilyAll_cons]
    exact (each s (by simp)).ifPossible.bind (ih fun s member => each s (by simp [member])) h

theorem lazily_local (solver : Solver) (bound : Nat) (s : Stmt) : Local (lazily solver bound s) := by
  induction s using Stmt.structural with
  | skip => exact .pure
  | printState =>
    intro h p valid
    rw [lazily_printState]
    exact yield_owns ((Pool.Grows.printed p _).widen (Set.empty_subset _)) valid
  | assign name rhs =>
    intro h p valid
    rw [lazily_assign]
    cases p.term .nested h rhs with
    | error fault => exact .failed (.refl _ p)
    | ok t => exact yield_owns (.assigned p h name t) valid
  | ifElse cond yes no left right =>
    intro h
    rw [lazily_ifElse]
    exact left.branch right h
  | ifOnly cond yes ih =>
    intro h
    rw [lazily_ifOnly]
    exact ih.branch .pure h
  | loop cond body inv ih =>
    intro h
    rw [lazily]
    exact ih.unwind bound h
  | assert cond =>
    intro h p valid
    rw [lazily_assert]
    cases p.formula .nested h cond with
    | error fault => exact .failed (.refl _ p)
    | ok f =>
      have grows := (checked_grows solver cond h p f).widen (Set.empty_subset {h})
      simp only [Explore.after] at grows
      simp only
      split <;> rename_i checked <;> simp only [checked] at grows
      · exact Local.pure.ifPossible.after (grows.trans_same (.required _ h f)) valid
      · exact .failed grows
  | assume cond =>
    intro h p valid
    rw [lazily_assume]
    cases p.formula .nested h cond with
    | error fault => exact .failed (.refl _ p)
    | ok f => exact Local.pure.ifPossible.after (.required p h f) valid
  | havoc names =>
    intro h p valid
    rw [lazily_havoc]
    exact yield_owns (.havocked p h names) valid
  | block items ih =>
    intro h
    rw [lazily]
    exact lazilyAll_local ih h
  | hollow => exact fun _ p _ => .failed (.refl _ p)

end WhileExec.Symbolic
