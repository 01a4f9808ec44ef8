import Mathlib
import WhileExec.Arithmetic.Linear

/-!
# Values of linear forms

A form has a value under every valuation of the variables, and each operation on forms has a lemma that says what it
does to the value. Multiples have to be listed by ascending variable for that, with none of them zero; forms like that
are proper, and all operations keep them so.
-/

namespace WhileExec.Arithmetic

/-- What multiples of variables come to. -/
def total (ν : Nat → Int) (terms : List (Nat × Int)) : Int :=
  (terms.map fun term => term.2 * ν term.1).sum

@[simp] theorem total_nil (ν : Nat → Int) : total ν [] = 0 := rfl

@[simp] theorem total_cons (ν : Nat → Int) (term : Nat × Int) (terms : List (Nat × Int)) :
    total ν (term :: terms) = term.2 * ν term.1 + total ν terms := rfl

@[simp] theorem total_addTerm (ν : Nat → Int) (x : Nat) (c : Int) (terms : List (Nat × Int)) :
    total ν (addTerm x c terms) = c * ν x + total ν terms := by
  induction terms with
  | nil =>
    by_cases zero : c = 0
    · simp [addTerm,zero]
    · simp [addTerm,zero]
  | cons term rest ih =>
    obtain ⟨y,d⟩ := term
    simp only [addTerm]
    split
    · split
      · simp [*]
      · rfl
    · split
      · subst x
        split
        · have opposite : d = -c := by omega
          simp [opposite]
        · simp only [total_cons]
          ring
      · simp only [total_cons,ih]
        ring

theorem total_congr {ν μ : Nat → Int} {terms : List (Nat × Int)} (same : ∀ term ∈ terms, ν term.1 = μ term.1) :
    total ν terms = total μ terms := by
  unfold total
  exact congrArg List.sum (List.map_congr_left fun term member => by rw [same term member])

/-- Multiples that are all changed by the same factor, written as a fraction. -/
theorem total_map (ν : Nat → Int) (terms : List (Nat × Int)) {j k : Int} {f : Int → Int}
    (each : ∀ term ∈ terms, j * f term.2 = k * term.2) :
    j * total ν (terms.map fun term => (term.1,f term.2)) = k * total ν terms := by
  induction terms with
  | nil => simp
  | cons term rest ih =>
    have others := ih fun other member => each other (List.mem_cons_of_mem term member)
    rw [List.map_cons,total_cons,total_cons,mul_add,mul_add,others,← mul_assoc,← mul_assoc,each term (by simp)]

theorem total_nonzero (ν : Nat → Int) (terms : List (Nat × Int)) :
    total ν (terms.filter (·.2 != 0)) = total ν terms := by
  induction terms with
  | nil => rfl
  | cons term rest ih =>
    rw [List.filter_cons,total_cons]
    split
    · rw [total_cons,ih]
    · rename_i zero
      rw [ih,show term.2 = 0 by simpa using zero,zero_mul,zero_add]

theorem mem_addTerm {x : Nat} {c : Int} {terms : List (Nat × Int)} {term : Nat × Int}
    (member : term ∈ addTerm x c terms) : term.1 = x ∨ term ∈ terms := by
  induction terms with
  | nil => grind [addTerm]
  | cons first rest ih => grind [addTerm]

/-- Multiples are listed by ascending variable, and none is zero. -/
structure Listed (terms : List (Nat × Int)) : Prop where
  ascending : terms.Pairwise (·.1 < ·.1)
  nonzero : ∀ term ∈ terms, term.2 ≠ 0

namespace Listed

theorem nil : Listed [] := ⟨.nil,by simp⟩

theorem cons {term : Nat × Int} {terms : List (Nat × Int)} (below : ∀ other ∈ terms, term.1 < other.1)
    (nonzero : term.2 ≠ 0) (rest : Listed terms) : Listed (term :: terms) :=
  ⟨.cons below rest.ascending,by simpa using ⟨nonzero,fun y c => rest.nonzero (y,c)⟩⟩

theorem tail {term : Nat × Int} {terms : List (Nat × Int)} (listed : Listed (term :: terms)) : Listed terms :=
  ⟨listed.ascending.of_cons,fun other member => listed.nonzero other (by simp [member])⟩

theorem below {term : Nat × Int} {terms : List (Nat × Int)} (listed : Listed (term :: terms)) :
    ∀ other ∈ terms, term.1 < other.1 := fun _ => List.rel_of_pairwise_cons listed.ascending

theorem addTerm {terms : List (Nat × Int)} (listed : Listed terms) (x : Nat) (c : Int) :
    Listed (addTerm x c terms) := by
  induction terms with
  | nil =>
    simp only [Arithmetic.addTerm]
    split
    · exact nil
    · exact cons (by simp) ‹_› nil
  | cons first rest ih =>
    obtain ⟨y,d⟩ := first
    simp only [Arithmetic.addTerm]
    split
    · split
      · exact listed
      · refine cons (fun other member => ?_) ‹_› listed
        rcases List.mem_cons.mp member with rfl | member
        · assumption
        · exact lt_trans ‹x < y› (listed.below other member)
    · split
      · split
        · exact listed.tail
        · exact cons listed.below ‹_› listed.tail
      · refine cons (fun other member => ?_) (listed.nonzero (y,d) (by simp)) (ih listed.tail)
        rcases mem_addTerm member with same | old
        · exact same ▸ (by omega : y < x)
        · exact listed.below other old

theorem map {terms : List (Nat × Int)} (listed : Listed terms) {f : Int → Int}
    (nonzero : ∀ term ∈ terms, f term.2 ≠ 0) : Listed (terms.map fun term => (term.1,f term.2)) := by
  refine ⟨List.pairwise_map.mpr listed.ascending,fun term member => ?_⟩
  obtain ⟨other,inside,rfl⟩ := List.mem_map.mp member
  exact nonzero other inside

theorem filter {terms : List (Nat × Int)} (listed : Listed terms) (keep : Nat × Int → Bool) :
    Listed (terms.filter keep) :=
  ⟨listed.ascending.filter keep,fun term member => listed.nonzero term (List.mem_of_mem_filter member)⟩

theorem lookup {terms : List (Nat × Int)} (listed : Listed terms) {x : Nat} {c : Int} (member : (x,c) ∈ terms) :
    terms.lookup x = some c := by
  induction terms with
  | nil => contradiction
  | cons first rest ih =>
    rcases List.mem_cons.mp member with rfl | member
    · simp
    · have apart : (x == first.1) = false := by simpa using (listed.below _ member).ne'
      rw [List.lookup_cons,apart]
      exact ih listed.tail member

/-- The multiple of one variable apart from the others. -/
theorem total_split {terms : List (Nat × Int)} (listed : Listed terms) (ν : Nat → Int) (x : Nat) :
    total ν terms = (terms.lookup x).getD 0 * ν x + total ν (terms.filter (·.1 != x)) := by
  induction terms with
  | nil => simp
  | cons first rest ih =>
    obtain ⟨y,d⟩ := first
    by_cases same : x = y
    · subst same
      have others : rest.filter (·.1 != x) = rest :=
        List.filter_eq_self.mpr fun other member => by simpa using (listed.below other member).ne'
      simp [others]
    · have apart : (x == y) = false := by simpa using same
      have kept : (y != x) = true := by simpa using Ne.symm same
      rw [total_cons,ih listed.tail,List.lookup_cons,apart,List.filter_cons_of_pos (by exact kept),total_cons]
      ring

end Listed

namespace Linear

/-- What a form comes to if the variables have the given values. -/
def value (ν : Nat → Int) (e : Linear) : Int :=
  e.const + total ν e.terms

theorem eval_eq (a : Assignment) (e : Linear) : e.eval a = e.value a.value := by
  have sums : ∀ (terms : List (Nat × Int)) (start : Int),
      terms.foldl (fun sum term => sum + term.2 * a.value term.1) start = start + total a.value terms := by
    intro terms
    induction terms with
    | nil => simp
    | cons term rest ih =>
      intro start
      rw [List.foldl_cons,ih,total_cons,add_assoc]
  exact sums e.terms e.const

variable (ν : Nat → Int) (e f : Linear) (x : Nat) (c : Int)

@[simp] theorem value_ofInt : (ofInt c).value ν = c := by simp [value,ofInt]

@[simp] theorem value_ofVar : (ofVar x).value ν = ν x := by simp [value,ofVar]

@[simp] theorem value_add : (e.add f).value ν = e.value ν + f.value ν := by
  have sums : ∀ terms start : List (Nat × Int),
      total ν (terms.foldl (fun terms term => addTerm term.1 term.2 terms) start) = total ν start + total ν terms := by
    intro terms
    induction terms with
    | nil => simp
    | cons term rest ih =>
      intro start
      rw [List.foldl_cons,ih,total_addTerm,total_cons]
      ring
  simp only [value,add,sums]
  ring

@[simp] theorem value_scale : (e.scale c).value ν = c * e.value ν := by
  have products := total_map ν e.terms (j := 1) (f := (c * ·)) fun _ _ => one_mul _
  unfold scale
  split
  · subst c
    simp [value]
  · simp only [value]
    linarith

@[simp] theorem value_sub : (e.sub f).value ν = e.value ν - f.value ν := by
  simp only [sub,value_add,value_scale]
  ring

@[simp] theorem value_shift : (e.shift c).value ν = e.value ν + c := by
  simp only [value,shift]
  ring

theorem value_const (const : e.isConst = true) : e.value ν = e.const := by
  simp [value,List.isEmpty_iff.mp const]

/-- The form is as the operations leave it. -/
abbrev Proper (e : Linear) : Prop := Listed e.terms

variable {ν e f x c}

theorem Proper.add (proper : e.Proper) (f : Linear) : (e.add f).Proper :=
  List.foldlRecOn f.terms _ proper fun _ listed term _ => listed.addTerm term.1 term.2

theorem Proper.scale (proper : e.Proper) (c : Int) : (e.scale c).Proper := by
  unfold Linear.scale
  split
  · exact .nil
  · exact proper.map fun term member => mul_ne_zero ‹_› (proper.nonzero term member)

theorem Proper.sub (proper : e.Proper) (f : Linear) : (e.sub f).Proper := proper.add _

theorem Proper.shift (proper : e.Proper) (c : Int) : (e.shift c).Proper := proper

theorem Proper.ofInt (n : Int) : (Linear.ofInt n).Proper := .nil

theorem Proper.ofVar (x : Nat) : (Linear.ofVar x).Proper := .cons (by simp) (by simp) .nil

theorem Proper.without (proper : e.Proper) (x : Nat) : (e.without x).Proper := proper.filter _

theorem Proper.replace (proper : e.Proper) (x : Nat) (f : Linear) : (e.replace x f).Proper := by
  simp only [Linear.replace]
  split
  · exact proper
  · exact (proper.without x).add _

theorem Proper.value_split (proper : e.Proper) (ν : Nat → Int) (x : Nat) :
    e.value ν = e.coeff x * ν x + (e.without x).value ν := by
  simp only [value,Linear.without,coeff,proper.total_split ν x]
  ring

theorem Proper.coeff_eq (proper : e.Proper) (member : (x,c) ∈ e.terms) : e.coeff x = c := by
  simp [coeff,proper.lookup member]

theorem Proper.value_replace (proper : e.Proper) (ν : Nat → Int) (x : Nat) (f : Linear) :
    (e.replace x f).value ν = e.coeff x * f.value ν + (e.without x).value ν := by
  simp only [Linear.replace]
  split
  · rename_i zero
    rw [proper.value_split ν x,zero]
    ring
  · rw [value_add,value_scale]
    ring

theorem value_without_update (ν : Nat → Int) (e : Linear) (x : Nat) (n : Int) :
    (e.without x).value (Function.update ν x n) = (e.without x).value ν := by
  refine congrArg (e.const + ·) (total_congr fun term member => ?_)
  have apart : term.1 ≠ x := by simpa [without] using (List.mem_filter.mp member).2
  exact Function.update_of_ne apart n ν

theorem content_dvd {term : Nat × Int} (member : term ∈ e.terms) : (e.content : Int) ∣ term.2 := by
  have divides : ∀ (terms : List (Nat × Int)) (g : Nat),
      terms.foldl (fun g term => g.gcd term.2.natAbs) g ∣ g ∧
        ∀ term ∈ terms, terms.foldl (fun g term => g.gcd term.2.natAbs) g ∣ term.2.natAbs := by
    intro terms
    induction terms with
    | nil => simp
    | cons first rest ih =>
      intro g
      obtain ⟨start,others⟩ := ih (g.gcd first.2.natAbs)
      refine ⟨start.trans (Nat.gcd_dvd_left _ _),fun term member => ?_⟩
      rcases List.mem_cons.mp member with rfl | member
      · exact start.trans (Nat.gcd_dvd_right _ _)
      · exact others term member
  exact Int.ofNat_dvd_left.mpr ((divides e.terms 0).2 term member)

theorem content_pos (proper : e.Proper) (some : e.isConst = false) : 0 < e.content := by
  obtain ⟨term,member⟩ := List.exists_mem_of_ne_nil e.terms (by simpa [isConst] using some)
  refine Nat.pos_of_ne_zero fun zero => proper.nonzero term member ?_
  simpa [zero] using content_dvd member

/-- The multiples are what is left of them, times the divisor. -/
theorem value_eq_divide (ν : Nat → Int) (e : Linear) :
    e.value ν = e.const + e.content * total ν (e.divide e.content).terms := by
  have products : (e.content : Int) * total ν (e.divide e.content).terms = 1 * total ν e.terms :=
    total_map ν e.terms (f := (· / (e.content : Int))) fun term member => by
      rw [Int.mul_ediv_cancel' (content_dvd member),one_mul]
  rw [products,one_mul,value]

theorem Proper.divide (proper : e.Proper) : (e.divide e.content).Proper := by
  refine proper.map (f := (· / (e.content : Int))) fun term member zero => proper.nonzero term member ?_
  rw [← Int.mul_ediv_cancel' (content_dvd member),zero,mul_zero]

/-- A proper form in variables with numbers below `n`. -/
structure Over (n : Nat) (e : Linear) : Prop where
  proper : e.Proper
  below : ∀ term ∈ e.terms, term.1 < n

namespace Over

variable {m n : Nat}

theorem ofInt (k : Int) : (Linear.ofInt k).Over n := ⟨.ofInt k,by simp [Linear.ofInt]⟩

theorem ofVar (below : x < n) : (Linear.ofVar x).Over n := ⟨.ofVar x,by simpa [Linear.ofVar] using below⟩

theorem mono (bounded : e.Over m) (le : m ≤ n) : e.Over n :=
  ⟨bounded.proper,fun term member => (bounded.below term member).trans_le le⟩

theorem add (left : e.Over n) (right : f.Over n) : (e.add f).Over n := by
  refine ⟨left.proper.add f,?_⟩
  refine List.foldlRecOn (motive := fun terms : List (Nat × Int) => ∀ term ∈ terms, term.1 < n) f.terms _ left.below ?_
  intro terms below one member term inside
  rcases mem_addTerm inside with same | old
  · exact same ▸ right.below one member
  · exact below term old

theorem scale (bounded : e.Over n) (c : Int) : (e.scale c).Over n := by
  refine ⟨bounded.proper.scale c,?_⟩
  unfold Linear.scale
  split
  · simp
  · intro term member
    obtain ⟨other,inside,rfl⟩ := List.mem_map.mp member
    exact bounded.below other inside

theorem sub (left : e.Over n) (right : f.Over n) : (e.sub f).Over n := left.add (right.scale (-1))

theorem value_congr (bounded : e.Over n) {ν μ : Nat → Int} (same : ∀ y < n, ν y = μ y) : e.value ν = e.value μ :=
  congrArg (e.const + ·) (total_congr fun term member => same term.1 (bounded.below term member))

end Over

end Linear

end WhileExec.Arithmetic
