import Mathlib
import WhileExec.States
import WhileExec.Proofs.Footprints

/-!
# What a run leaves alone

A statement that is run on a state object does to it what it does to a store on its own, and gives the same object
back: `Stmt.visit_eq`. Whatever the statement does not write is left alone, whether the run ends or fails and wherever
it fails, and no variable is lost.
-/

namespace WhileExec

namespace States

variable {n : Nat} {states : States n} {k : Fin n} {m m' : Machine}

@[simp] theorem machine_put : (states.put k m).machine k = m := by
  simp [machine,store,put]

@[simp] theorem put_put : (states.put k m).put k m' = states.put k m' := by
  simp [put]

@[simp] theorem put_machine : states.put k (states.machine k) = states := by
  simp [put,machine,store]

theorem store_put_of_ne {j : Fin n} (other : j ≠ k) : (states.put k m).store j = states.store j := by
  have apart : (k : Nat) ≠ j := fun same => other (Fin.ext same.symm)
  simp [put,store,Vector.getElem_set_ne,apart]

end States

namespace Action

variable {n : Nat} {α β : Type} {k : Fin n}

theorem within_pure (a : α) : within k (pure a) = pure a := by
  funext states
  change EStateM.Result.ok a (states.put k (states.machine k)) = .ok a states
  rw [States.put_machine]

theorem within_throw (fault : Fault) : within k (throw fault : Run α) = throw fault := by
  funext states
  change EStateM.Result.error fault (states.put k (states.machine k)) = .error fault states
  rw [States.put_machine]

theorem within_bind (run : Run α) (next : α → Run β) :
    within k (run >>= next) = within k run >>= fun a => within k (next a) := by
  funext states
  change within k (run.bind next) states = (within k run).bind (fun a => within k (next a)) states
  simp only [within,EStateM.bind]
  cases run (states.machine k) with
  | error fault m => rfl
  | ok a m => simp

theorem iterate_within (test : Run Bool) (body : Run Unit) (limit : Nat) (k : Fin n) :
    iterate (fun k => within k test) (fun k => do within k body; return k) limit k =
      (do within k (Run.iterate test body limit); return k) := by
  induction limit with
  | zero =>
    simp only [iterate,Run.iterate,within_bind,bind_assoc]
    congr 1
    funext b
    cases b <;> simp [within_pure,within_throw]
  | succ limit ih =>
    simp only [iterate,Run.iterate,within_bind,bind_assoc]
    congr 1
    funext b
    cases b with
    | true => simp only [if_true,within_bind,bind_assoc,pure_bind,ih]
    | false => simp [within_pure]

end Action

namespace Stmt

variable {n : Nat} {limit : Nat}

theorem visitAll_eq {items : List Stmt} {k : Fin n}
    (each : ∀ s ∈ items, ∀ k : Fin n, s.visit limit k = (do Action.within k (s.exec limit); return k)) :
    visitAll limit items k = (do Action.within k (execAll limit items); return k) := by
  induction items generalizing k with
  | nil => simp [visitAll,execAll,Action.within_pure]
  | cons s items ih =>
    have rest := fun k => ih (k := k) fun t member => each t (List.mem_cons_of_mem _ member)
    simp [visitAll,execAll,Action.within_bind,each s List.mem_cons_self,rest]

theorem visit_eq (s : Stmt) (k : Fin n) : s.visit limit k = (do Action.within k (s.exec limit); return k) := by
  induction s using Stmt.structural generalizing k with
  | ifElse cond yes no left right =>
    simp only [visit,exec,Action.within_bind,bind_assoc]
    congr 1
    funext v
    by_cases holds : v.isTrue = true
    · simp [holds,left]
    · simp [holds,right]
  | ifOnly cond yes ih =>
    simp only [visit,exec,Action.within_bind,bind_assoc]
    congr 1
    funext v
    by_cases holds : v.isTrue = true
    · simp [holds,ih]
    · simp [holds,Action.within_pure]
  | loop cond body inv ih =>
    have inPlace : body.visit limit = fun k : Fin n => (do Action.within k (body.exec limit); return k) := funext ih
    simp only [visit,exec,inPlace]
    exact Action.iterate_within _ _ limit k
  | block items ih =>
    simp only [visit,exec]
    exact visitAll_eq ih
  | skip | printState | assign | assert | assume | havoc | hollow => simp only [visit]

end Stmt

/-- What a computation leaves, whether it ends or fails. -/
def finalState {σ α : Type} : EStateM.Result Fault σ α → σ
  | .ok _ s => s
  | .error _ s => s

/-- No variable is lost, and none is changed that is not `written`. -/
structure Store.Keeps (written : String → Bool) (before after : Store) : Prop where
  known : ∀ x ∈ before, x ∈ after
  same : ∀ x, written x = false → after[x]? = before[x]?

namespace Store.Keeps

variable {written more : String → Bool} {a b c : Store}

theorem refl : Store.Keeps written a a :=
  ⟨fun _ => id,fun _ _ => rfl⟩

theorem trans (first : Store.Keeps written a b) (second : Store.Keeps written b c) : Store.Keeps written a c where
  known x member := second.known x (first.known x member)
  same x apart := (second.same x apart).trans (first.same x apart)

theorem mono (wider : ∀ x, more x = false → written x = false) (kept : Store.Keeps written a b) :
    Store.Keeps more a b where
  known := kept.known
  same x apart := kept.same x (wider x apart)

theorem insert {name : String} (allowed : written name = true) (v : Value) :
    Store.Keeps written a (a.insert name v) where
  known x member := by simp [member]
  same x apart := by
    have other : name ≠ x := by
      rintro rfl
      simp [apart] at allowed
    simp [Std.TreeMap.getElem?_insert,other]

end Store.Keeps

/-- The run loses no variable and changes none that is not `written`, also when it fails. -/
def Run.Keeps {α : Type} (written : String → Bool) (run : Run α) : Prop :=
  ∀ m : Machine, m.store.Keeps written (finalState (run m)).store

namespace Run.Keeps

variable {α β : Type} {written more : String → Bool}

theorem pure (a : α) : Run.Keeps written (pure a) := fun _ => .refl

theorem throw (fault : Fault) : Run.Keeps written (throw fault : Run α) := fun _ => .refl

theorem bind {run : Run α} {next : α → Run β} (first : run.Keeps written) (second : ∀ a, (next a).Keeps written) :
    Run.Keeps written (run >>= next) := by
  intro m
  have kept := first m
  change m.store.Keeps written (finalState (run.bind next m)).store
  unfold EStateM.bind
  cases done : run m with
  | error fault mid =>
    rw [done] at kept
    exact kept
  | ok a mid =>
    rw [done] at kept
    exact kept.trans (second a mid)

theorem ite {p : Prop} [Decidable p] {yes no : Run α} (first : yes.Keeps written) (second : no.Keeps written) :
    Run.Keeps written (if p then yes else no) := by
  split
  · exact first
  · exact second

theorem map {run : Run α} (f : α → β) (kept : run.Keeps written) : Run.Keeps written (f <$> run) := by
  rw [map_eq_pure_bind]
  exact kept.bind fun a => .pure (f a)

theorem mono {run : Run α} (wider : ∀ x, more x = false → written x = false) (kept : run.Keeps written) :
    run.Keeps more :=
  fun m => (kept m).mono wider

theorem value (e : Expr) : Run.Keeps written (Run.value e) := by
  apply bind
  · exact fun _ => .refl
  · intro m
    cases e.eval m.store with
    | ok v => exact .pure v
    | error fault => exact .throw fault

theorem set {name : String} (allowed : written name = true) (v : Value) : Run.Keeps written (Run.set name v) :=
  fun _ => .insert allowed v

theorem demand (s : Stmt) (cond : Expr) : Run.Keeps written (Run.demand s cond) := by
  apply bind (value cond)
  intro v
  apply ite (.pure ())
  cases (s.write 0).toExcept with
  | ok text => exact .throw _
  | error fault => exact .throw _

theorem iterate {test : Run Bool} {body : Run Unit} (tested : test.Keeps written) (step : body.Keeps written)
    (limit : Nat) : Run.Keeps written (Run.iterate test body limit) := by
  induction limit with
  | zero => exact tested.bind fun b => ite (.throw _) (.pure ())
  | succ limit ih => exact tested.bind fun b => ite (step.bind fun _ => ih) (.pure ())

theorem forM {names : List String} (allowed : ∀ x ∈ names, written x = true) (v : Value) :
    Run.Keeps written (names.forM fun name => Run.set name v) := by
  induction names with
  | nil => exact .pure ()
  | cons x names ih =>
    have first : Run.Keeps written (Run.set x v) := .set (allowed x List.mem_cons_self) v
    exact first.bind fun _ => ih fun y member => allowed y (List.mem_cons_of_mem _ member)

end Run.Keeps

namespace Stmt

variable {limit : Nat}

theorem execAll_keeps {items : List Stmt} (each : ∀ s ∈ items, (s.exec limit).Keeps fun x => s.writes x) :
    (execAll limit items).Keeps fun x => someWrites x items := by
  induction items with
  | nil => exact .pure ()
  | cons s items ih =>
    apply Run.Keeps.bind
    · apply (each s List.mem_cons_self).mono
      intro x apart
      simp only [someWrites,Bool.or_eq_false_iff] at apart
      exact apart.1
    · intro _
      apply (ih fun t member => each t (List.mem_cons_of_mem _ member)).mono
      intro x apart
      simp only [someWrites,Bool.or_eq_false_iff] at apart
      exact apart.2

theorem exec_keeps (s : Stmt) : (s.exec limit).Keeps fun x => s.writes x := by
  induction s using Stmt.structural with
  | skip => exact .pure ()
  | printState => exact fun _ => .refl
  | assign name rhs => exact (Run.Keeps.value rhs).bind fun v => .set (by simp [writes]) v
  | ifElse cond yes no first second =>
    apply (Run.Keeps.value cond).bind
    intro v
    apply Run.Keeps.ite
    · apply first.mono
      intro x apart
      simp only [writes,Bool.or_eq_false_iff] at apart
      exact apart.1
    · apply second.mono
      intro x apart
      simp only [writes,Bool.or_eq_false_iff] at apart
      exact apart.2
  | ifOnly cond yes ih => exact (Run.Keeps.value cond).bind fun v => ih.ite (.pure ())
  | loop cond body inv ih => exact ((Run.Keeps.value cond).map Value.isTrue).iterate ih limit
  | assert cond => exact .demand _ cond
  | assume cond => exact .demand _ cond
  | havoc names => exact .forM (by simp [writes]) _
  | block items ih => exact execAll_keeps ih
  | hollow => exact .throw _

end Stmt

section Visits

variable {n limit : Nat} {s : Stmt} {k : Fin n} {states : States n} {m : Machine}

theorem visit_stmt : (Node.stmt s).visit limit k = (do Action.within k (s.exec limit); return .inl k) := by
  rw [Node.visit,s.visit_eq,map_bind]
  simp only [map_pure]

theorem visit_of_ok (ended : s.exec limit (states.machine k) = .ok () m) :
    (Node.stmt s).visit limit k states = .ok (.inl k) (states.put k m) := by
  simp only [visit_stmt,bind,EStateM.bind,Action.within,ended]
  rfl

theorem visit_of_error {fault : Fault} (failed : s.exec limit (states.machine k) = .error fault m) :
    (Node.stmt s).visit limit k states = .error fault (states.put k m) := by
  simp only [visit_stmt,bind,EStateM.bind,Action.within,failed]

theorem finalState_visit :
    finalState ((Node.stmt s).visit limit k states) = states.put k (finalState (s.exec limit (states.machine k))) := by
  cases ran : s.exec limit (states.machine k) with
  | ok _ m => rw [visit_of_ok ran,finalState,finalState]
  | error fault m => rw [visit_of_error ran,finalState,finalState]

theorem answer_of_visit {answer : Fin n ⊕ Value} {final : States n}
    (ended : (Node.stmt s).visit limit k states = .ok answer final) : answer = .inl k := by
  cases ran : s.exec limit (states.machine k) with
  | ok _ m =>
    rw [visit_of_ok ran] at ended
    cases ended
    rfl
  | error fault m =>
    rw [visit_of_error ran] at ended
    cases ended

end Visits

/-- Whether a run on a state object ends or fails, the object has lost no variable, what the statement does not write is
as it was, and so are all other state objects. A run that ends gives back the object that it was given. -/
theorem visit_leaves {n : Nat} (limit : Nat) (s : Stmt) (k : Fin n) (states : States n) :
    let result := (Node.stmt s).visit limit k states
    (∀ x ∈ states.store k, x ∈ (finalState result).store k) ∧
      (∀ x, s.writes x = false → ((finalState result).store k)[x]? = (states.store k)[x]?) ∧
      (∀ j, j ≠ k → (finalState result).store j = states.store j) ∧
      ∀ answer final, result = .ok answer final → answer = .inl k := by
  intro result
  have kept : (states.machine k).store.Keeps _ (finalState (s.exec limit (states.machine k))).store := s.exec_keeps _
  have after : finalState result = states.put k (finalState (s.exec limit (states.machine k))) := finalState_visit
  have store : (finalState result).store k = (finalState (s.exec limit (states.machine k))).store := by
    rw [after]
    exact congrArg Machine.store States.machine_put
  refine ⟨?_,?_,?_,fun _ _ => answer_of_visit⟩
  · rw [store]
    exact kept.known
  · rw [store]
    exact kept.same
  · intro j other
    rw [after]
    exact States.store_put_of_ne other

/-- Goes wrong in its second assignment. -/
def dividing : Stmt :=
  .block [.assign "x" (.int 1),.assign "y" (.app .arith "/" [.var "x",.int 0]),.havoc ["z"]]

/-- What was written before the division stays written, and the bystander keeps its value. -/
theorem visit_leaves_bystander :
    let states : States 1 := ⟨#v[(({} : Store).insert "w" (.int 7)).insert "x" (.bool true)],""⟩
    let result := (Node.stmt dividing).visit 0 0 states
    (∃ final, result = .error .divisionByZero final ∧ (final.store 0)["x"]? = some (.int 1)) ∧
      dividing.writes "w" = false ∧ ((finalState result).store 0)["w"]? = some (.int 7) := by
  intro states result
  have apart : dividing.writes "w" = false := by decide
  have same : ((finalState result).store 0)["w"]? = (states.store 0)["w"]? :=
    (visit_leaves 0 dividing 0 states).2.1 "w" apart
  exact ⟨⟨_,rfl,rfl⟩,apart,same.trans rfl⟩

end WhileExec
