import Mathlib
import WhileExec.Proofs.Executions

/-!
# How a run ends

A run with a limit either reaches the limit in some loop or does not. If it does not, a higher limit changes nothing.
So a statement has at most one ending, whatever the limit it was found with, and a run for which every limit is too
low does not end.
-/

namespace WhileExec

namespace Run

variable {α β : Type}

/-- No loop reached its limit. -/
def Settled (result : EStateM.Result Fault Machine α) : Prop :=
  ∀ final, result ≠ .error .unending final

theorem settled_ok (a : α) (m : Machine) : Settled (.ok a m) := by
  intro final reached
  cases reached

theorem settled_error {fault : Fault} {m : Machine} :
    Settled (.error fault m : EStateM.Result Fault Machine α) ↔ fault ≠ .unending := by
  constructor
  · rintro settled rfl
    exact settled m rfl
  · intro other final reached
    cases reached
    exact other rfl

/-- Where the second computation reaches no limit, the first one does the same. -/
def Prolongs (longer action : Run α) : Prop :=
  ∀ m, Settled (action m) → longer m = action m

namespace Prolongs

theorem refl (action : Run α) : Prolongs action action := fun _ _ => rfl

theorem bind {longer action : Run α} {further next : α → Run β} (first : Prolongs longer action)
    (second : ∀ a, Prolongs (further a) (next a)) : Prolongs (longer >>= further) (action >>= next) := by
  intro m settled
  change Settled (action.bind next m) at settled
  change longer.bind further m = action.bind next m
  unfold EStateM.bind at settled ⊢
  cases done : action m with
  | ok a mid =>
    rw [done] at settled
    rw [first m (by rw [done]; exact settled_ok a mid),done]
    exact second a mid settled
  | error fault mid =>
    rw [done] at settled
    rw [first m (by rw [done]; exact settled_error.mpr (settled_error.mp settled)),done]

theorem ite {p : Prop} [Decidable p] {longer action further next : Run α} (yes : Prolongs longer action)
    (no : Prolongs further next) : Prolongs (if p then longer else further) (if p then action else next) := by
  split
  · exact yes
  · exact no

theorem iterate {test : Run Bool} {longer body : Run Unit} (step : Prolongs longer body) {low high : Nat}
    (le : low ≤ high) : Prolongs (Run.iterate test longer high) (Run.iterate test body low) := by
  induction low generalizing high with
  | zero =>
    cases high with
    | zero => exact refl _
    | succ high =>
      refine (refl test).bind fun b => ?_
      cases b with
      | true => exact fun m settled => absurd rfl (settled m)
      | false => exact refl _
  | succ low ih =>
    obtain ⟨high,rfl⟩ : ∃ k, high = k + 1 := ⟨high - 1,by omega⟩
    exact (refl test).bind fun b => (step.bind fun _ => ih (by omega)).ite (refl _)

end Prolongs

end Run

namespace Stmt

theorem exec_prolongs {low high : Nat} (le : low ≤ high) (s : Stmt) :
    Run.Prolongs (s.exec high) (s.exec low) := by
  induction s using Stmt.structural with
  | skip | printState | assign | assert | assume | havoc | hollow => exact .refl _
  | ifElse cond yes no left right => exact (Run.Prolongs.refl _).bind fun v => left.ite right
  | ifOnly cond yes ih => exact (Run.Prolongs.refl _).bind fun v => ih.ite (.refl _)
  | loop cond body inv ih => exact ih.iterate le
  | block items ih =>
    unfold exec
    induction items with
    | nil => exact .refl _
    | cons s ss rest => exact (ih s (by simp)).bind fun _ => rest fun t member => ih t (by simp [member])

/-- The run of the statement ends like this if loops are given iterations enough. -/
def Ends (s : Stmt) (m : Machine) (result : EStateM.Result Fault Machine Unit) : Prop :=
  Run.Settled result ∧ ∃ limit, s.exec limit m = result

/-- No number of iterations is enough. -/
def Diverges (s : Stmt) (m : Machine) : Prop :=
  ∀ limit, ∃ final, s.exec limit m = .error .unending final

theorem Ends.unique {s : Stmt} {m : Machine} {a b : EStateM.Result Fault Machine Unit} (first : s.Ends m a)
    (second : s.Ends m b) : a = b := by
  obtain ⟨settled,low,rfl⟩ := first
  obtain ⟨again,high,rfl⟩ := second
  calc s.exec low m = s.exec (max low high) m := (exec_prolongs (le_max_left low high) s m settled).symm
    _ = s.exec high m := exec_prolongs (le_max_right low high) s m again

theorem Ends.not_diverges {s : Stmt} {m : Machine} {result : EStateM.Result Fault Machine Unit}
    (ends : s.Ends m result) : ¬ s.Diverges m := by
  intro diverges
  obtain ⟨settled,limit,rfl⟩ := ends
  obtain ⟨final,reached⟩ := diverges limit
  exact settled final reached

theorem diverges_or_ends (s : Stmt) (m : Machine) : s.Diverges m ∨ ∃ result, s.Ends m result := by
  by_cases enough : ∃ limit, Run.Settled (s.exec limit m)
  · obtain ⟨limit,settled⟩ := enough
    exact .inr ⟨_,settled,limit,rfl⟩
  · refine .inl fun limit => ?_
    simpa [Run.Settled] using not_exists.mp enough limit

end Stmt

end WhileExec
