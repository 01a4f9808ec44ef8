import Mathlib
import WhileExec.Proofs.Symbolic.Representation

/-!
# Pools in scope

A pool is in scope if its states mention only symbols that it has made. Every single change keeps it so, if what is
required or bound is in scope.
-/

namespace WhileExec.Symbolic

def Pool.Scoped (p : Pool) : Prop := ∀ h, (p.state h).Scoped p.symbols

namespace Pool.Scoped

variable {p : Pool} {h : Handle}

theorem change {q : Pool} (inScope : p.Scoped) (symbols : p.symbols ≤ q.symbols)
    (others : ∀ k, k ≠ h → q.state k = p.state k) (changed : (q.state h).Scoped q.symbols) : q.Scoped := by
  intro k
  by_cases same : k = h
  · rw [same]; exact changed
  · rw [others k same]; exact (inScope k).mono symbols

theorem add (inScope : p.Scoped) {s : State} (new : s.Scoped p.symbols) : (p.add s).Scoped := by
  intro k
  rcases lt_trichotomy k p.states.size with old | rfl | beyond
  · rw [p.add_other s old]; exact inScope k
  · rw [p.add_state s]; exact new
  · have outside : (p.add s).state k = {} := by
      simp [Pool.add,Pool.state,Array.getElem?_push,beyond.ne',Nat.not_lt_of_gt beyond]
    rw [outside]
    exact ⟨by simp,by simp⟩

theorem forked (inScope : p.Scoped) : (p.forked h).Scoped :=
  inScope.add ⟨(inScope h).env,(inScope h).path⟩

/-- A state that is not in the pool cannot be changed. -/
theorem changed {f : State → State} (inScope : p.Scoped) (changed : (f (p.state h)).Scoped p.symbols) :
    (p.change h f).Scoped := by
  refine inScope.change le_rfl (fun k apart => p.change_other f apart) ?_
  by_cases valid : h < p.states.size
  · rw [p.change_state f valid]; exact changed
  · have same : (p.change h f).state h = p.state h := by
      simp [Pool.change,Pool.state,Nat.le_of_not_lt valid]
    rw [same]
    exact inScope h

theorem required (inScope : p.Scoped) {f : Formula} (bound : f.bound ≤ p.symbols) : (p.required h f).Scoped :=
  inScope.changed ((inScope h).require bound)

theorem marked (inScope : p.Scoped) : (p.marked h).Scoped :=
  inScope.changed ⟨(inScope h).env,(inScope h).path⟩

theorem renewed (inScope : p.Scoped) (name : String) : (p.renewed h name).Scoped := by
  have more : ({ p with symbols := p.symbols + 1 } : Pool).Scoped := fun k => (inScope k).mono (Nat.le_succ _)
  exact more.changed (f := fun s => s.bind name ⟨name,p.symbols⟩) ((more h).bind name (Nat.lt_succ_self _))

theorem assigned (inScope : p.Scoped) (name : String) {t : Term} (bound : t.bound ≤ p.symbols) :
    (p.assigned h name t).Scoped := by
  refine (inScope.renewed name).required ?_
  rw [Formula.compare_bound]
  exact max_le le_rfl (bound.trans (Nat.le_succ _))

end Pool.Scoped

end WhileExec.Symbolic
