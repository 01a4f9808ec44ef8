import Mathlib
import WhileExec.Proofs.Grammar.Expressions

/-!
# Texts that go on differently

A part of a text that was read is put before another text. Layout in front of it is skipped as before, and words,
numbers and tokens are read as before if they do not grow together with what now follows.
-/

namespace WhileExec.Grammar

theorem exists_layout {comment : Bool} {pos : Nat} {text more : List Char} {c : Char}
    (front : (skipLayout comment pos text).rest = c :: more) :
    ∃ layout, text = layout ++ c :: more ∧
      ∀ pos other, (skipLayout comment pos (layout ++ c :: other)).rest = c :: other := by
  induction text generalizing comment pos with
  | nil => cases front
  | cons d text ih =>
    have later (inner : Bool) (rest : (skipLayout inner (pos + 1) text).rest = c :: more)
        (step : ∀ pos t, skipLayout comment pos (d :: t) = skipLayout inner (pos + 1) t) :
        ∃ layout, d :: text = layout ++ c :: more ∧
          ∀ pos other, (skipLayout comment pos (layout ++ c :: other)).rest = c :: other := by
      obtain ⟨layout,rfl,skips⟩ := ih rest
      exact ⟨d :: layout,rfl,fun pos other => by rw [List.cons_append,step,skips]⟩
    unfold skipLayout at front
    split at front
    next within => exact later _ front fun pos t => by rw [skipLayout,if_pos within]
    next outside =>
      split at front
      next blank => exact later _ front fun pos t => by rw [skipLayout,if_neg outside,if_pos blank]
      next solid =>
        split at front
        next sign => exact later _ front fun pos t => by rw [skipLayout,if_neg outside,if_neg solid,if_pos sign]
        next other =>
          obtain ⟨rfl,rfl⟩ := List.cons.inj front
          refine ⟨[],rfl,fun pos z => ?_⟩
          rw [List.nil_append,skipLayout,if_neg outside,if_neg solid,if_neg other]

/-- A part of a text, and the same part without the layout in front of it. -/
structure Piece (part bare : List Char) : Prop where
  skips : ∀ other, skipped (part ++ other) = bare ++ other
  some : bare ≠ []

theorem exists_piece {text bare rest : List Char} (front : skipped text = bare ++ rest) (some : bare ≠ []) :
    ∃ part, text = part ++ rest ∧ Piece part bare := by
  obtain ⟨c,more,rfl⟩ := List.exists_cons_of_ne_nil some
  obtain ⟨layout,rfl,skips⟩ := exists_layout front
  refine ⟨layout ++ c :: more,by simp,fun other => ?_,some⟩
  rw [List.append_assoc]
  exact skips 0 (more ++ other)

namespace Piece

variable {part bare : List Char}

theorem skipped_head (piece : Piece part bare) (other : List Char) : (skipped (part ++ other)).head? = bare.head? := by
  rw [piece.skips,List.head?_append_of_ne_nil _ piece.some]

theorem outcome_eq (piece : Piece part bare) {r : Rule} (skips : r.skips = true) (other : List Char) :
    outcome r (part ++ other) = outcome r (bare ++ other) := by
  rw [← outcome_skipped skips,piece.skips]

theorem append (piece : Piece part bare) (more : List Char) : Piece (part ++ more) (bare ++ more) where
  skips other := by rw [List.append_assoc,piece.skips,List.append_assoc]
  some := by simp [piece.some]

end Piece

theorem skipped_word {c : Char} (letter : Text.isWordChar c = true) (text : List Char) :
    skipped (c :: text) = c :: text := by
  refine skipped_solid (Text.isBlank_of_isWordChar letter) ?_ text
  rintro rfl
  exact absurd letter (by decide)

theorem Stops.head {chars text : List Char} (stops : Stops chars text) {c : Char} (member : c ∈ chars)
    (solid : Text.isBlank c = false) (other : c ≠ '#') : text.head? ≠ some c := by
  intro first
  cases text with
  | nil => cases first
  | cons d text =>
    cases first
    exact stops c (by rw [skipped_solid solid other]; rfl) member

/-- The texts go on alike up to a place where no word goes on in the second. -/
def Junction (rest other : List Char) : Prop :=
  ∃ shared r o, rest = shared ++ r ∧ other = shared ++ o ∧ WordEnd o

namespace Junction

variable {rest other : List Char}

theorem of_wordEnd (rest : List Char) (ends : WordEnd other) : Junction rest other :=
  ⟨[],rest,other,rfl,rfl,ends⟩

theorem append (junction : Junction rest other) (front : List Char) : Junction (front ++ rest) (front ++ other) := by
  obtain ⟨shared,r,o,rfl,rfl,ends⟩ := junction
  exact ⟨front ++ shared,r,o,by simp,by simp,ends⟩

/-- The next character is the same, or no word goes on. -/
theorem head (junction : Junction rest other) : WordEnd other ∨ rest.head? = other.head? := by
  obtain ⟨shared,r,o,rfl,rfl,ends⟩ := junction
  cases shared with
  | nil => exact .inl ends
  | cons c shared => exact .inr rfl

theorem tail {d : Char} (junction : Junction rest (d :: other)) (word : Text.isWordChar d = true) :
    ∃ more, rest = d :: more ∧ Junction more other := by
  obtain ⟨shared,r,o,rfl,front,ends⟩ := junction
  cases shared with
  | nil =>
    rw [List.nil_append] at front
    have apart := ends d (by rw [← front]; rfl)
    rw [word] at apart
    contradiction
  | cons e shared =>
    obtain ⟨rfl,rfl⟩ := List.cons.inj front
    exact ⟨shared ++ r,rfl,shared,r,o,rfl,rfl,ends⟩

theorem of_append {front : List Char} (letters : ∀ c ∈ front, Text.isWordChar c = true)
    (junction : Junction (front ++ rest) (front ++ other)) : Junction rest other := by
  induction front with
  | nil => exact junction
  | cons c front ih =>
    obtain ⟨more,same,behind⟩ := junction.tail (letters c (by simp))
    rw [← (List.cons.inj same).2] at behind
    exact ih (fun d member => letters d (by simp [member])) behind

theorem wordEnd (junction : Junction rest other) (ends : WordEnd rest) : WordEnd other := by
  rcases junction.head with apart | same
  · exact apart
  · intro c first
    exact ends c (same ▸ first)

theorem runsOn (junction : Junction rest other) {token : List Char} (ends : runsOn token rest = false) :
    runsOn token other = false := by
  rcases junction.head with apart | same
  · exact apart.runsOn token
  · rw [Grammar.runsOn,← same]
    exact ends

theorem takeWhile (junction : Junction rest other) {q : Char → Bool}
    (narrow : ∀ c, q c = true → Text.isWordChar c = true) (ends : rest.takeWhile q = []) :
    other.takeWhile q = [] := by
  rcases junction.head with apart | same
  · exact apart.takeWhile narrow
  · cases other with
    | nil => rfl
    | cons d other =>
      cases rest with
      | nil => cases same
      | cons c rest =>
        cases same
        cases known : q d with
        | true => simp [List.takeWhile,known] at ends
        | false => simp [List.takeWhile,known]

end Junction

theorem isWordChar_of_isHexDigit {c : Char} (known : isHexDigit c = true) : Text.isWordChar c = true := by
  simp only [isHexDigit,Bool.or_eq_true,Bool.and_eq_true,decide_eq_true_eq,Char.le_def,UInt32.le_iff_toNat_le] at known
  have value : c.toNat = c.val.toNat := rfl
  rcases known with (digit | lower) | upper
  · exact Text.isWordChar_of_isDigit digit
  · have low : 97 ≤ c.toNat := lower.1
    have high : c.toNat ≤ 102 := lower.2
    have letter : c.isLower = true := by
      simp only [Char.isLower,Bool.and_eq_true,decide_eq_true_eq,ge_iff_le,UInt32.le_iff_toNat_le]
      exact ⟨low,high.trans (by decide)⟩
    have ascii : c.toNat < 128 := by omega
    simp [Text.isWordChar,Text.isAlphanumeric,ascii,Char.isAlphanum,Char.isAlpha,letter]
  · have low : 65 ≤ c.toNat := upper.1
    have high : c.toNat ≤ 70 := upper.2
    have letter : c.isUpper = true := by
      simp only [Char.isUpper,decide_eq_true_eq,ge_iff_le,UInt32.le_iff_toNat_le]
      exact ⟨low,high.trans (by decide)⟩
    have ascii : c.toNat < 128 := by omega
    simp [Text.isWordChar,Text.isAlphanumeric,ascii,Char.isAlphanum,Char.isAlpha,letter]

/-- The text begins with a number to the base sixteen. -/
def HexFront (text : List Char) : Prop :=
  ∃ x digit more, text = '0' :: x :: digit :: more ∧ (x == 'x' || x == 'X') = true ∧ isHexDigit digit = true

theorem integer_take_hex {x digit : Char} (mark : (x == 'x' || x == 'X') = true) (known : isHexDigit digit = true)
    (more : List Char) :
    Pattern.integer.take ('0' :: x :: digit :: more) = '0' :: x :: digit :: more.takeWhile isHexDigit := by
  simp [Pattern.take,mark,known]

theorem integer_take_decimal {text : List Char} (other : ¬ HexFront text) :
    Pattern.integer.take text = text.takeWhile Char.isDigit := by
  simp only [Pattern.take]
  split
  next x digit more =>
    rw [if_neg]
    intro both
    rw [Bool.and_eq_true] at both
    exact other ⟨x,digit,more,rfl,both.1,both.2⟩
  · rfl

theorem takeWhile_before {q : Char → Bool} {digits rest other : List Char}
    (narrow : ∀ c, q c = true → Text.isWordChar c = true) (taken : (digits ++ rest).takeWhile q = digits)
    (junction : Junction rest other) : (digits ++ other).takeWhile q = digits := by
  have each : ∀ d ∈ digits, q d = true := by
    intro d member
    rw [← taken] at member
    exact List.mem_takeWhile_imp member
  have ends : rest.takeWhile q = [] := by
    rw [List.takeWhile_append_of_pos each] at taken
    exact List.append_right_eq_self.mp taken
  rw [List.takeWhile_append_of_pos each,junction.takeWhile narrow ends,List.append_nil]

/-- A number does not become one to the base sixteen by what follows it. -/
theorem not_hexFront {digits rest other : List Char} (some : digits ≠ []) (known : ∀ d ∈ digits, d.isDigit = true)
    (junction : Junction rest other) (decimal : ¬ HexFront (digits ++ rest)) : ¬ HexFront (digits ++ other) := by
  rintro ⟨x,digit,more,front,mark,hex⟩
  have noDigit : x.isDigit = false := by
    simp only [Bool.or_eq_true,beq_iff_eq] at mark
    rcases mark with rfl | rfl <;> decide
  have letter : Text.isWordChar x = true := by
    simp only [Bool.or_eq_true,beq_iff_eq] at mark
    rcases mark with rfl | rfl <;> decide
  cases digits with
  | nil => contradiction
  | cons d ds =>
    cases ds with
    | nil =>
      obtain ⟨rfl,follows⟩ := List.cons.inj front
      change other = x :: digit :: more at follows
      rw [follows] at junction
      obtain ⟨more,rfl,behind⟩ := junction.tail letter
      obtain ⟨more,rfl,-⟩ := behind.tail (isWordChar_of_isHexDigit hex)
      exact decimal ⟨x,digit,more,rfl,mark,hex⟩
    | cons e es =>
      have second := known e (by simp)
      rw [(List.cons.inj (List.cons.inj front).2).1,noDigit] at second
      contradiction

theorem integer_take_before {digits rest other : List Char} (some : digits ≠ [])
    (taken : Pattern.integer.take (digits ++ rest) = digits) (junction : Junction rest other) :
    Pattern.integer.take (digits ++ other) = digits := by
  by_cases hex : HexFront (digits ++ rest)
  · obtain ⟨x,digit,more,front,mark,known⟩ := hex
    rw [front,integer_take_hex mark known] at taken
    subst taken
    have same : more = more.takeWhile isHexDigit ++ rest := by simpa using front.symm
    have before : (more.takeWhile isHexDigit ++ rest).takeWhile isHexDigit = more.takeWhile isHexDigit :=
      congrArg (List.takeWhile isHexDigit) same.symm
    change Pattern.integer.take ('0' :: x :: digit :: (more.takeWhile isHexDigit ++ other)) = _
    rw [integer_take_hex mark known,takeWhile_before (fun _ => isWordChar_of_isHexDigit) before junction]
  · rw [integer_take_decimal hex] at taken
    have known : ∀ d ∈ digits, d.isDigit = true := by
      intro d member
      rw [← taken] at member
      exact List.mem_takeWhile_imp member
    rw [integer_take_decimal (not_hexFront some known junction hex)]
    exact takeWhile_before (fun _ => Text.isWordChar_of_isDigit) taken junction

theorem integer_take_append (text : List Char) :
    text = Pattern.integer.take text ++ text.drop (Pattern.integer.take text).length := by
  by_cases hex : HexFront text
  · obtain ⟨x,digit,more,rfl,mark,known⟩ := hex
    have whole := (List.prefix_iff_eq_append.mp (List.takeWhile_prefix isHexDigit (l := more))).symm
    rw [integer_take_hex mark known]
    simpa using whole
  · rw [integer_take_decimal hex]
    exact (List.prefix_iff_eq_append.mp (List.takeWhile_prefix _)).symm

end WhileExec.Grammar
