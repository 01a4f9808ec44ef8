import Mathlib
import WhileExec.Proofs.Symbolic.LazyCourses

/-!
# Drawing some of the results

Results may be drawn one at a time, and whoever draws them may stop early. Since a search owns none of the states it has
given away, the first results are the same whether or not others are drawn behind them. `Trace.Spares` says what this
means for each step of a drawing, where the pool may have been changed in any way before the search goes on.
-/

namespace WhileExec.Symbolic

namespace Trace

section Prefixes

variable {α : Type}

/-- The first results do not depend on how many are wanted. -/
theorem draw_values (t : Trace α) (n : Nat) : (t.draw (some n)).values = (t.draw none).values.take n := by
  induction t generalizing n with
  | done q => simp [draw]
  | failed fault q => simp [draw]
  | yield value q resume ih =>
    rcases n with _ | _ | n
    · simp [draw]
    · simp [draw]
    · simp [draw,ih q (n + 1)]

theorem draw_of_short {t : Trace α} {n : Nat} (short : (t.draw none).values.length < n) :
    t.draw (some n) = t.draw none := by
  induction t generalizing n with
  | done q => rfl
  | failed fault q => rfl
  | yield value q resume ih =>
    simp only [draw,List.length_cons] at short
    rcases n with _ | _ | n
    · omega
    · omega
    · simp only [draw]
      rw [ih q (by omega)]

end Prefixes

variable {owned given : Set Handle} {p : Pool} {t : Trace Handle}

theorem Owns.draw_grows (owns : t.Owns owned p) {wanted : Option Nat} (begun : wanted ≠ some 0) :
    p.Grows owned (t.draw wanted).pool := by
  obtain ⟨ts,whole,draws,-⟩ := t.draws_of_draw wanted begun
  exact (owns.drawn draws).1

/-- The states that were drawn are left as they are when all others are drawn. -/
theorem Owns.draw_state (owns : t.Owns owned p) (n : Nat) :
    ∀ o ∈ (t.draw (some n)).values, (t.draw (some n)).pool.state o = (t.draw none).pool.state o := by
  induction owns generalizing n with
  | done grows => simp [draw]
  | failed grows => simp [draw]
  | @yield owned p q value resume kept grows valid own given within old resumed ih =>
    have later : ∀ wanted, wanted ≠ some 0 → ((resume q).draw wanted).pool.state value = q.state value :=
      fun wanted begun => ((resumed q le_rfl).draw_grows begun).others value valid given
    intro o member
    rcases n with _ | _ | n
    · simp [draw] at member
    · cases List.mem_singleton.mp member
      exact (later none (by simp)).symm
    · rcases List.mem_cons.mp member with rfl | member
      · exact (later (some (n + 1)) (by simp)).trans (later none (by simp)).symm
      · exact ih q le_rfl (n + 1) o member

/-- Every result is a state that was not given before, and until then no state given before is changed. This is so
however the search is resumed: states may have been changed and added in between. -/
inductive Spares : Set Handle → Pool → Trace Handle → Prop
  | done {given : Set Handle} {p q : Pool} (same : ∀ k ∈ given, q.state k = p.state k) : Spares given p (.done q)
  | failed {given : Set Handle} {p q : Pool} {fault : Fault} (same : ∀ k ∈ given, q.state k = p.state k) :
      Spares given p (.failed fault q)
  | yield {given : Set Handle} {p q : Pool} {value : Handle} {resume : Pool → Trace Handle} (fresh : value ∉ given)
      (same : ∀ k ∈ given, q.state k = p.state k)
      (resumed : ∀ r : Pool, q.states.size ≤ r.states.size → Spares (insert value given) r (resume r)) :
      Spares given p (.yield value q resume)

theorem Owns.spares (owns : t.Owns owned p) (old : ∀ k ∈ given, k < p.states.size)
    (apart : ∀ k ∈ given, k ∉ owned) : t.Spares given p := by
  induction owns generalizing given with
  | done grows => exact .done fun k member => grows.others k (old k member) (apart k member)
  | failed grows => exact .failed fun k member => grows.others k (old k member) (apart k member)
  | @yield owned p q value resume kept grows valid own free within before resumed ih =>
    refine .yield (fun member => apart value member (own (old value member)))
      (fun k member => grows.others k (old k member) (apart k member)) fun r larger => ?_
    -- What has been given away is not among the states kept, so the rest of the search cannot reach it.
    apply ih r larger
    · rintro k (rfl | member)
      · exact valid.trans_le larger
      · exact (old k member).trans_le (grows.size.trans larger)
    · rintro k (rfl | member) inside
      · exact free inside
      · exact apart k member (within k inside (old k member))

end Trace

/-- Results can be drawn as they are needed. The first of them are what they are if all are drawn, no state is given
twice, and no result is changed by drawing further ones. -/
theorem explore_spares_results (solver : Solver) {pool : Pool} {h : Handle} (valid : h < pool.states.size) (s : Stmt)
    (bound : Int) :
    (∀ n few all, (explore solver bound.toNat s h).draw (some n) pool = few →
      (explore solver bound.toNat s h).draw none pool = all →
        few.values = all.values.take n ∧ (∀ o ∈ few.values, few.pool.state o = all.pool.state o) ∧
        (all.values.length < n → few = all)) ∧
    ((explore solver bound.toNat s h).draw none pool).values.Nodup ∧
    (explore solver bound.toNat s h pool).Spares ∅ pool := by
  have owns := explore_local solver bound.toNat s h pool valid
  refine ⟨?_,?_,owns.spares (by simp) (by simp)⟩
  · rintro n few all rfl rfl
    cases n with
    | zero => exact ⟨rfl,by simp [Search.draw],by simp⟩
    | succ n => exact ⟨Trace.draw_values _ _,owns.draw_state (n + 1),Trace.draw_of_short⟩
  · obtain ⟨ts,whole,draws,values,-⟩ := (explore solver bound.toNat s h pool).draws_of_draw none (by simp)
    have distinct := owns.distinct draws
    rwa [← values] at distinct

theorem explore_spares_sizes :
    0 < positive.states.size ∧ ((explore .precise 1 sizes 0).draw (some 1) positive).values = [0] ∧
      ((explore .precise 1 sizes 0).draw none positive).values = [0,1] ∧
      ((explore .precise 1 sizes 0).draw (some 1) positive).pool.state 0 =
        ((explore .precise 1 sizes 0).draw none positive).pool.state 0 ∧
      (explore .precise 1 sizes 0 positive).Spares ∅ positive := by
  have valid : 0 < positive.states.size := by decide +kernel
  obtain ⟨prefixes,-,spares⟩ := explore_spares_results .precise valid sizes 1
  obtain ⟨values,same,-⟩ := prefixes 1 _ _ rfl rfl
  rw [Int.toNat_one] at values same spares
  rw [sizes_results] at values
  refine ⟨valid,values,sizes_results,same 0 ?_,spares⟩
  rw [values]
  simp

end WhileExec.Symbolic
