import Mathlib
import WhileExec.Arithmetic.System
import WhileExec.Proofs.Arithmetic.Forms

/-!
# Systems with solutions are not refused

Every step of the elimination keeps solutions: a system in its simplest form has the solutions of the system, an
equation that is solved for a variable can be put in its place, and where a variable is eliminated from inequalities,
a solution leaves room between its bounds or is close to one of the lower ones. A system that has a solution is
therefore never said to have none: `System.solve_ne_unsat`.
-/

namespace WhileExec.Arithmetic

namespace Verdict

variable {α β : Type}

@[simp] theorem map_eq_unsat {f : α → β} {v : Verdict α} : v.map f = .unsat ↔ v = .unsat := by
  cases v <;> simp [map]

@[simp] theorem orElse_eq_unsat {first : Verdict α} {second : Unit → Verdict α} :
    first.orElse second = .unsat ↔ first = .unsat ∧ second () = .unsat := by
  cases first with
  | unsat => simp [orElse]
  | sat solution => simp [orElse]
  | unknown => cases found : second () <;> simp [orElse,found]

theorem firstOf_eq_unsat {cases : List (Unit → Verdict α)} :
    firstOf cases = .unsat ↔ ∀ one ∈ cases, one () = .unsat := by
  induction cases with
  | nil => simp [firstOf]
  | cons one rest ih => simp [firstOf,ih]

theorem orElse_eq_sat {first : Verdict α} {second : Unit → Verdict α} {solution : α}
    (found : first.orElse second = .sat solution) : first = .sat solution ∨ second () = .sat solution := by
  cases first with
  | unsat => exact .inr found
  | sat other => exact .inl found
  | unknown =>
    cases later : second () with
    | sat other => simpa [orElse,later] using found
    | _ => simp [orElse,later] at found

theorem firstOf_eq_sat {cases : List (Unit → Verdict α)} {solution : α} (found : firstOf cases = .sat solution) :
    ∃ one ∈ cases, one () = .sat solution := by
  induction cases with
  | nil => cases found
  | cons one rest ih =>
    rcases orElse_eq_sat found with here | later
    · exact ⟨one,by simp,here⟩
    · obtain ⟨other,member,found⟩ := ih later
      exact ⟨other,by simp [member],found⟩

end Verdict

namespace System

/-- All forms are as the operations leave them. -/
structure Proper (s : System) : Prop where
  zero : ∀ e ∈ s.zero, e.Proper
  nonneg : ∀ e ∈ s.nonneg, e.Proper

/-- The valuation satisfies all constraints. -/
structure Solved (ν : Nat → Int) (s : System) : Prop where
  zero : ∀ e ∈ s.zero, e.value ν = 0
  nonneg : ∀ e ∈ s.nonneg, 0 ≤ e.value ν

variable {ν : Nat → Int} {s t : System} {e f : Linear} {x : Nat} {c : Int}

theorem Proper.consZero (proper : s.Proper) (first : e.Proper) : ({ s with zero := e :: s.zero } : System).Proper :=
  ⟨List.forall_mem_cons.mpr ⟨first,proper.zero⟩,proper.nonneg⟩

theorem Proper.consNonneg (proper : s.Proper) (first : e.Proper) :
    ({ s with nonneg := e :: s.nonneg } : System).Proper :=
  ⟨proper.zero,List.forall_mem_cons.mpr ⟨first,proper.nonneg⟩⟩

theorem Solved.consZero (solved : s.Solved ν) (holds : e.value ν = 0) :
    ({ s with zero := e :: s.zero } : System).Solved ν :=
  ⟨List.forall_mem_cons.mpr ⟨holds,solved.zero⟩,solved.nonneg⟩

theorem Solved.consNonneg (solved : s.Solved ν) (holds : 0 ≤ e.value ν) :
    ({ s with nonneg := e :: s.nonneg } : System).Solved ν :=
  ⟨solved.zero,List.forall_mem_cons.mpr ⟨holds,solved.nonneg⟩⟩

theorem normalZero_solved (proper : e.Proper) (holds : e.value ν = 0) :
    ∃ forms, normalZero e = some forms ∧ ∀ f ∈ forms, f.Proper ∧ f.value ν = 0 := by
  unfold normalZero
  split
  · rename_i const
    rw [e.value_const ν const] at holds
    exact ⟨[],by simp [holds],by simp⟩
  · rename_i some
    have positive : (e.content : Int) ≠ 0 := by
      exact_mod_cast (Linear.content_pos proper (by simpa using some)).ne'
    have parts := (e.value_eq_divide ν).symm.trans holds
    obtain ⟨k,multiple⟩ : (e.content : Int) ∣ e.const := ⟨-total ν (e.divide e.content).terms,by linarith⟩
    rw [if_pos (Int.emod_eq_zero_of_dvd ⟨k,multiple⟩)]
    refine ⟨_,rfl,fun f member => ?_⟩
    obtain rfl := List.mem_singleton.mp member
    refine ⟨proper.divide,?_⟩
    rw [multiple,← mul_add] at parts
    have left : e.const.fdiv e.content = k := by rw [multiple,Int.mul_fdiv_cancel_left _ positive]
    change e.const.fdiv e.content + _ = 0
    rw [left]
    exact (mul_eq_zero.mp parts).resolve_left positive

theorem normalNonneg_solved (proper : e.Proper) (holds : 0 ≤ e.value ν) :
    ∃ forms, normalNonneg e = some forms ∧ ∀ f ∈ forms, f.Proper ∧ 0 ≤ f.value ν := by
  unfold normalNonneg
  split
  · rename_i const
    rw [e.value_const ν const] at holds
    exact ⟨[],by simp [holds],by simp⟩
  · rename_i some
    have positive : (0 : Int) < e.content := by
      exact_mod_cast Linear.content_pos proper (by simpa using some)
    rw [e.value_eq_divide ν] at holds
    refine ⟨_,rfl,fun f member => ?_⟩
    obtain rfl := List.mem_singleton.mp member
    refine ⟨proper.divide,?_⟩
    have rounded : -total ν (e.divide e.content).terms ≤ e.const.fdiv e.content := by
      rw [Int.fdiv_eq_ediv_of_nonneg _ positive.le]
      exact (Int.le_ediv_iff_mul_le positive).mpr (by linarith)
    change 0 ≤ e.const.fdiv e.content + _
    linarith

theorem mapM_flatten {P : Linear → Prop} {step : Linear → Option (List Linear)} {forms : List Linear}
    (each : ∀ e ∈ forms, ∃ results, step e = some results ∧ ∀ f ∈ results, P f) :
    ∃ lists, forms.mapM step = some lists ∧ ∀ f ∈ lists.flatten, P f := by
  induction forms with
  | nil => exact ⟨[],by simp,by simp⟩
  | cons e rest ih =>
    obtain ⟨first,found,holds⟩ := each e (by simp)
    obtain ⟨lists,others,hold⟩ := ih fun f member => each f (by simp [member])
    refine ⟨first :: lists,by simp [found,others],?_⟩
    rw [List.flatten_cons]
    exact List.forall_mem_append.mpr ⟨holds,hold⟩

theorem normal_solved (proper : s.Proper) (solved : s.Solved ν) :
    ∃ t, s.normal = some t ∧ t.Proper ∧ t.Solved ν := by
  obtain ⟨zero,equations,zeros⟩ := mapM_flatten fun e member =>
    normalZero_solved (proper.zero e member) (solved.zero e member)
  obtain ⟨nonneg,inequalities,nonnegs⟩ := mapM_flatten fun e member =>
    normalNonneg_solved (proper.nonneg e member) (solved.nonneg e member)
  refine ⟨⟨zero.flatten,nonneg.flatten.eraseDups⟩,by simp [normal,equations,inequalities],⟨?_,?_⟩,⟨?_,?_⟩⟩
  · exact fun e member => (zeros e member).1
  · exact fun e member => (nonnegs e (List.mem_eraseDups.mp member)).1
  · exact fun e member => (zeros e member).2
  · exact fun e member => (nonnegs e (List.mem_eraseDups.mp member)).2

theorem pickZero_mem {zero rest : List Linear} (picked : pickZero zero = some (e,rest)) :
    e ∈ zero ∧ ∀ f ∈ rest, f ∈ zero := by
  unfold pickZero at picked
  split at picked
  · rename_i i _
    obtain ⟨f,found,same⟩ := Option.map_eq_some_iff.mp picked
    cases same
    exact ⟨List.mem_of_getElem? found,fun f member => List.mem_of_mem_eraseIdx member⟩
  · split at picked
    · cases picked
    · cases picked
      exact ⟨by simp,fun f member => by simp [member]⟩

theorem smallest_mem (some : e.terms ≠ []) : smallest e ∈ e.terms := by
  have chosen : ∀ (rest : List (Nat × Int)) (best : Nat × Int),
      rest.foldl (fun best term => if term.2.natAbs < best.2.natAbs then term else best) best ∈ best :: rest := by
    intro rest
    induction rest with
    | nil => simp
    | cons term rest ih =>
      intro best
      rw [List.foldl_cons]
      split
      · exact List.mem_cons_of_mem best (ih term)
      · exact List.cons_subset_cons best (List.subset_cons_self term rest) (ih best)
  unfold smallest
  split
  · contradiction
  · rename_i first rest listed
    rw [listed]
    exact chosen rest first

theorem solved_update (ν : Nat → Int) (x : Nat) (c : Int) (e : Linear) (n : Int) :
    (solved x c e).value (Function.update ν x n) = (solved x c e).value ν := by
  refine congrArg (_ + ·) (total_congr fun term member => ?_)
  obtain ⟨other,inside,rfl⟩ := List.mem_map.mp (List.mem_of_mem_filter member)
  have apart : other.1 ≠ x := by simpa [Linear.without] using (List.mem_filter.mp inside).2
  exact Function.update_of_ne apart n ν

theorem solved_value (proper : e.Proper) (member : (x,c) ∈ e.terms) (unit : c.natAbs = 1) (holds : e.value ν = 0) :
    (solved x c e).value ν = ν x := by
  have quotient : ∀ d : Int, -(d / c) = -c * d := by
    intro d
    rcases Int.natAbs_eq_iff.mp unit with rfl | rfl <;> simp
  have quotients := total_map ν (e.without x).terms (j := 1) (f := fun d => -(d / c)) fun term _ =>
    (one_mul _).trans (quotient term.2)
  have square : c * c = 1 := by
    rcases Int.natAbs_eq_iff.mp unit with rfl | rfl <;> rfl
  have others : (solved x c e).value ν = -c * (e.without x).value ν := by
    simp only [solved,Linear.value,total_nonzero,quotient (e.without x).const]
    linarith
  rw [proper.value_split ν x,proper.coeff_eq member] at holds
  rw [others]
  calc -c * (e.without x).value ν = -c * (-(c * ν x)) := by rw [eq_neg_of_add_eq_zero_right holds]
    _ = c * c * ν x := by ring
    _ = ν x := by rw [square,one_mul]

theorem Proper.replace (proper : s.Proper) (x : Nat) (f : Linear) : (s.replace x f).Proper := by
  refine ⟨fun e member => ?_,fun e member => ?_⟩ <;> obtain ⟨other,inside,rfl⟩ := List.mem_map.mp member
  · exact (proper.zero other inside).replace x f
  · exact (proper.nonneg other inside).replace x f

/-- A variable is replaced by a form that has its value. The number of the variable may get another value by that. -/
theorem Solved.replace (solved : s.Solved ν) (proper : s.Proper) {n : Int}
    (known : f.value (Function.update ν x n) = ν x) : (s.replace x f).Solved (Function.update ν x n) := by
  have same : ∀ e : Linear, e.Proper → (e.replace x f).value (Function.update ν x n) = e.value ν := by
    intro e proper
    rw [proper.value_replace,known,e.value_without_update,proper.value_split ν x]
  refine ⟨fun e member => ?_,fun e member => ?_⟩ <;> obtain ⟨other,inside,rfl⟩ := List.mem_map.mp member
  · rw [same other (proper.zero other inside)]
    exact solved.zero other inside
  · rw [same other (proper.nonneg other inside)]
    exact solved.nonneg other inside

theorem mem_bounds {nonneg : List Linear} :
    (e ∈ (bounds x nonneg).lower ↔ e ∈ nonneg ∧ 0 < e.coeff x) ∧
      (e ∈ (bounds x nonneg).upper ↔ e ∈ nonneg ∧ e.coeff x < 0) ∧
      (e ∈ (bounds x nonneg).rest ↔ e ∈ nonneg ∧ e.coeff x = 0) := by
  simp [bounds]

variable {lower upper : Linear}

theorem compareBounds_proper (proper : lower.Proper) (room : Bool) : (compareBounds x room lower upper).Proper := by
  have sum := ((proper.without x).scale (-upper.coeff x)).add ((upper.without x).scale (lower.coeff x))
  unfold compareBounds
  cases room with
  | true => exact sum.shift _
  | false => exact sum

/-- What the comparison comes to, in terms of what is left below and above the variable. -/
theorem compareBounds_value (below : lower.Proper) (above : upper.Proper) (room : Bool) :
    (compareBounds x room lower upper).value ν = -upper.coeff x * lower.value ν + lower.coeff x * upper.value ν -
      if room then (lower.coeff x - 1) * (-upper.coeff x - 1) else 0 := by
  rw [below.value_split ν x,above.value_split ν x]
  unfold compareBounds
  cases room with
  | true =>
    simp only [if_true,Linear.value_shift,Linear.value_add,Linear.value_scale]
    ring
  | false =>
    simp only [Bool.false_eq_true,if_false,Linear.value_add,Linear.value_scale]
    ring

theorem le_widest {uppers : List Linear} (member : upper ∈ uppers) :
    -upper.coeff x ≤ uppers.foldl (fun widest upper => max widest (-upper.coeff x)) 0 := by
  have grows : ∀ (uppers : List Linear) (start : Int),
      start ≤ uppers.foldl (fun widest upper => max widest (-upper.coeff x)) start ∧
        ∀ upper ∈ uppers, -upper.coeff x ≤ uppers.foldl (fun widest upper => max widest (-upper.coeff x)) start := by
    intro uppers
    induction uppers with
    | nil => simp
    | cons first rest ih =>
      intro start
      obtain ⟨wider,others⟩ := ih (max start (-first.coeff x))
      refine ⟨(le_max_left _ _).trans wider,fun upper member => ?_⟩
      rcases List.mem_cons.mp member with rfl | member
      · exact (le_max_right _ _).trans wider
      · exact others upper member
  exact (grows uppers 0).2 upper member

/-- If a lower bound, which is `l` below the variable's multiple, and an upper one, which is `u` above it, leave no
room for any integer then the lower one is close. -/
theorem close_of_narrow {a b w l u : Int} (a_pos : 0 < a) (b_pos : 0 < b) (wide : b ≤ w) (above : 0 ≤ u)
    (narrow : b * l + a * u < (a - 1) * (b - 1)) : l ≤ (w * a - w - a).fdiv w := by
  have w_pos : 0 < w := b_pos.trans_le wide
  have enough : a ≤ b * (a - 1 - l) := by nlinarith
  have gap : 0 < a - 1 - l := pos_of_mul_pos_right (a_pos.trans_le enough) b_pos.le
  have wider : b * (a - 1 - l) ≤ w * (a - 1 - l) := mul_le_mul_of_nonneg_right wide gap.le
  rw [Int.fdiv_eq_ediv_of_nonneg _ w_pos.le,Int.le_ediv_iff_mul_le w_pos]
  linarith

/-- Between bounds without room, one of the equations holds that put the variable close to the lower bound. -/
theorem splinters_solved {b : Bounds} (low : lower ∈ b.lower) (high : upper ∈ b.upper) (below : lower.Proper)
    (above : upper.Proper) (lowerSign : 0 < lower.coeff x) (upperSign : upper.coeff x < 0)
    (lowerHolds : 0 ≤ lower.value ν) (upperHolds : 0 ≤ upper.value ν)
    (narrow : (compareBounds x true lower upper).value ν < 0) :
    ∃ e ∈ b.splinters x, e.Proper ∧ e.value ν = 0 := by
  rw [compareBounds_value below above,if_pos rfl,sub_neg] at narrow
  have close := close_of_narrow lowerSign (neg_pos.mpr upperSign) (le_widest high) upperHolds narrow
  refine ⟨lower.shift (-((lower.value ν).toNat : Int)),?_,below.shift _,by simp [lowerHolds]⟩
  refine List.mem_flatMap.mpr ⟨lower,low,List.mem_map.mpr ⟨_,List.mem_range.mpr ?_,rfl⟩⟩
  omega

variable {fuel : Nat}

/-- With this much fuel, no system that has a solution is said to have none. -/
def Safe (fuel : Nat) : Prop :=
  ∀ (s : System) (ν : Nat → Int), s.Proper → s.Solved ν → s.solve fuel ≠ .unsat

section Equations

variable {zero : List Linear}

theorem Proper.fewer (proper : s.Proper) (fewer : ∀ f ∈ zero, f ∈ s.zero) : (⟨zero,s.nonneg⟩ : System).Proper :=
  ⟨fun f member => proper.zero f (fewer f member),proper.nonneg⟩

theorem Solved.fewer (solved : s.Solved ν) (fewer : ∀ f ∈ zero, f ∈ s.zero) :
    (⟨zero,s.nonneg⟩ : System).Solved ν :=
  ⟨fun f member => solved.zero f (fewer f member),solved.nonneg⟩

/-- An equation that can be solved for a variable is used up. -/
theorem solve_used (safe : Safe fuel) (proper : s.Proper) (solved : s.Solved ν) (member : e ∈ s.zero)
    (fewer : ∀ f ∈ zero, f ∈ s.zero) (occurs : (x,c) ∈ e.terms) (unit : c.natAbs = 1) :
    (replace x (System.solved x c e) ⟨zero,s.nonneg⟩).solve fuel ≠ .unsat := by
  have known := solved_value (proper.zero e member) occurs unit (solved.zero e member)
  have rest := proper.fewer fewer
  have replaced := (solved.fewer fewer).replace (x := x) (f := System.solved x c e) (n := ν x) rest
  rw [Function.update_eq_self] at replaced
  exact safe _ ν (rest.replace _ _) (replaced known)

/-- Otherwise it is kept, and a variable is changed for another. -/
theorem solve_kept (safe : Safe fuel) (proper : s.Proper) (solved : s.Solved ν) (member : e ∈ s.zero)
    (fewer : ∀ f ∈ zero, f ∈ s.zero) :
    (replace x ((System.solved x c e).add (.ofVar x)) ⟨e :: zero,s.nonneg⟩).solve fuel ≠ .unsat := by
  have inside : ∀ f ∈ e :: zero, f ∈ s.zero := List.forall_mem_cons.mpr ⟨member,fewer⟩
  have rest := proper.fewer inside
  refine safe _ _ (rest.replace _ _)
    ((solved.fewer inside).replace (n := ν x - (System.solved x c e).value ν) rest ?_)
  rw [Linear.value_add,Linear.value_ofVar,solved_update,Function.update_self]
  ring

end Equations

/-- Comparing bounds keeps a solution, unless room is asked for that it does not have. -/
theorem solve_compared (safe : Safe fuel) (proper : s.Proper) (solved : s.Solved ν) {room : Bool}
    (roomy : ∀ lower ∈ (bounds x s.nonneg).lower, ∀ upper ∈ (bounds x s.nonneg).upper,
      0 ≤ (compareBounds x room lower upper).value ν) :
    (⟨[],(bounds x s.nonneg).compared x room ++ (bounds x s.nonneg).rest⟩ : System).solve fuel ≠ .unsat := by
  refine safe _ ν ⟨by simp,fun e member => ?_⟩ ⟨by simp,fun e member => ?_⟩ <;>
    rcases List.mem_append.mp member with compared | rest
  · obtain ⟨lower,low,compared⟩ := List.mem_flatMap.mp compared
    obtain ⟨upper,-,rfl⟩ := List.mem_map.mp compared
    exact compareBounds_proper (proper.nonneg lower (mem_bounds.1.mp low).1) room
  · exact proper.nonneg e (mem_bounds.2.2.mp rest).1
  · obtain ⟨lower,low,compared⟩ := List.mem_flatMap.mp compared
    obtain ⟨upper,high,rfl⟩ := List.mem_map.mp compared
    exact roomy lower low upper high
  · exact solved.nonneg e (mem_bounds.2.2.mp rest).1

theorem compared_nonneg (proper : s.Proper) (solved : s.Solved ν) (low : lower ∈ (bounds x s.nonneg).lower)
    (high : upper ∈ (bounds x s.nonneg).upper) : 0 ≤ (compareBounds x false lower upper).value ν := by
  obtain ⟨one,positive⟩ := mem_bounds.1.mp low
  obtain ⟨two,negative⟩ := mem_bounds.2.1.mp high
  rw [compareBounds_value (proper.nonneg lower one) (proper.nonneg upper two)]
  have first := mul_nonneg (neg_pos.mpr negative).le (solved.nonneg lower one)
  have second := mul_nonneg positive.le (solved.nonneg upper two)
  simpa using add_nonneg first second

/-- Where comparing with room finds nothing, one of the splinters has the solution. -/
theorem solve_splinters (safe : Safe fuel) (proper : s.Proper) (solved : s.Solved ν)
    (narrow : ∃ lower ∈ (bounds x s.nonneg).lower, ∃ upper ∈ (bounds x s.nonneg).upper,
      (compareBounds x true lower upper).value ν < 0) :
    Verdict.firstOf (((bounds x s.nonneg).splinters x).map fun e _ => solve fuel { s with zero := e :: s.zero }) ≠
      .unsat := by
  obtain ⟨lower,low,upper,high,narrow⟩ := narrow
  obtain ⟨one,positive⟩ := mem_bounds.1.mp low
  obtain ⟨two,negative⟩ := mem_bounds.2.1.mp high
  obtain ⟨e,member,splinter,holds⟩ := splinters_solved low high (proper.nonneg lower one) (proper.nonneg upper two)
    positive negative (solved.nonneg lower one) (solved.nonneg upper two) narrow
  intro unsat
  exact safe _ ν (proper.consZero splinter) (solved.consZero holds)
    (Verdict.firstOf_eq_unsat.mp unsat _ (List.mem_map_of_mem member))

theorem solve_eliminated (safe : Safe fuel) (proper : s.Proper) (solved : s.Solved ν) :
    (let b := bounds x s.nonneg
      let eliminate (room : Bool) : Verdict Assignment :=
        (solve fuel ⟨[],b.compared x room ++ b.rest⟩).map (b.choose x)
      if b.lower.isEmpty || b.upper.isEmpty || b.exact x then eliminate false
      else (eliminate true).orElse fun _ =>
        .firstOf ((b.splinters x).map fun e _ => solve fuel { s with zero := e :: s.zero })) ≠ .unsat := by
  intro unsat
  dsimp only at unsat
  split at unsat
  · rw [Verdict.map_eq_unsat] at unsat
    exact solve_compared safe proper solved (fun _ low _ high => compared_nonneg proper solved low high) unsat
  · rw [Verdict.orElse_eq_unsat,Verdict.map_eq_unsat] at unsat
    by_cases roomy : ∀ lower ∈ (bounds x s.nonneg).lower, ∀ upper ∈ (bounds x s.nonneg).upper,
        0 ≤ (compareBounds x true lower upper).value ν
    · exact solve_compared safe proper solved roomy unsat.1
    · push Not at roomy
      exact solve_splinters safe proper solved roomy unsat.2

theorem solve_ne_unsat (fuel : Nat) : Safe fuel := by
  induction fuel with
  | zero =>
    intro s ν _ _
    simp [solve]
  | succ fuel ih =>
    intro s ν proper solved
    obtain ⟨t,normal,proper,solved⟩ := normal_solved proper solved
    unfold solve
    rw [normal]
    dsimp only
    split
    · rename_i e zero picked
      obtain ⟨member,fewer⟩ := pickZero_mem picked
      rw [ne_eq,Verdict.map_eq_unsat]
      by_cases unit : (smallest e).2.natAbs = 1
      · have listed : e.terms ≠ [] := by
          intro none
          simp [smallest,none] at unit
        simp only [if_pos unit]
        exact solve_used ih proper solved member fewer (smallest_mem listed) unit
      · simp only [if_neg unit]
        exact solve_kept ih proper solved member fewer
    · split
      · simp
      · exact solve_eliminated ih proper solved

end System

end WhileExec.Arithmetic
