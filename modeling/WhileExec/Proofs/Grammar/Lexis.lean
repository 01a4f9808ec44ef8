import Mathlib
import WhileExec.Proofs.Grammar.Evaluation

/-!
# Words, numbers, tokens and layout

What stands at the front of a text, and where it ends. A word or a number ends where no character follows that words
are made of; layout is skipped up to the first character that is neither blank nor begins a comment.
-/

namespace WhileExec

namespace Text

theorem isWordChar_of_alphanumeric {c : Char} (known : isAlphanumeric c = true) : isWordChar c = true := by
  simp [isWordChar,known]

theorem inRanges_apart {a b : List (Nat × Nat)}
    (apart : (a.all fun x => b.all fun y => decide (x.2 < y.1) || decide (y.2 < x.1)) = true) {c : Char}
    (inside : inRanges a c = true) : inRanges b c = false := by
  simp only [List.all_eq_true,Bool.or_eq_true,decide_eq_true_eq] at apart
  simp only [inRanges,List.any_eq_true,Bool.and_eq_true,decide_eq_true_eq] at inside
  obtain ⟨x,member,low,high⟩ := inside
  simp only [inRanges,List.any_eq_false,Bool.and_eq_true,decide_eq_true_eq,not_and,not_le]
  intro y other least
  have := apart x member y other
  omega

theorem blank_lt {c : Char} (blank : isBlank c = true) (ascii : c.toNat < 128) : c.toNat < 48 := by
  simp only [isBlank,inRanges,blankRanges,List.any_cons,List.any_nil,Bool.or_false,Bool.or_eq_true,Bool.and_eq_true,
    decide_eq_true_eq] at blank
  omega

theorem alphanum_ge {c : Char} (known : c.isAlphanum = true) : 48 ≤ c.toNat := by
  simp only [Char.isAlphanum,Char.isAlpha,Char.isUpper,Char.isLower,Char.isDigit,Bool.or_eq_true,Bool.and_eq_true,
    decide_eq_true_eq,ge_iff_le,UInt32.le_iff_toNat_le] at known
  have value : c.toNat = c.val.toNat := rfl
  rcases known with (known | known) | known <;> have := known.1 <;> simp at this <;> omega

theorem isBlank_of_isWordChar {c : Char} (word : isWordChar c = true) : isBlank c = false := by
  by_contra blank
  rw [Bool.not_eq_false] at blank
  simp only [isWordChar,Bool.or_eq_true,beq_iff_eq] at word
  rcases word with rfl | word
  · revert blank
    decide
  · unfold isAlphanumeric at word
    split at word
    next ascii =>
      have := blank_lt blank ascii
      have := alphanum_ge word
      omega
    next =>
      have apart : inRanges alphanumericRanges c = false := inRanges_apart (by decide +kernel) blank
      rw [apart] at word
      contradiction

theorem isDecimalDigit_of_isDigit {c : Char} (digit : c.isDigit = true) : isDecimalDigit c = true := by
  simp [isDecimalDigit,digitValue?,digit]

theorem isWordChar_of_isDigit {c : Char} (digit : c.isDigit = true) : isWordChar c = true := by
  have bounds := Char.isDigit_iff_toNat.mp digit
  have ascii : c.toNat < 128 := lt_of_le_of_lt bounds.2 (by decide)
  simp [isWordChar,isAlphanumeric,ascii,Char.isAlphanum,digit]

theorem readDigits_digits {ds : List Char} (digits : ∀ d ∈ ds, d.isDigit = true) (value : Nat) :
    readDigits value ds = some (Nat.ofDigitChars 10 ds value) := by
  induction ds generalizing value with
  | nil => rfl
  | cons d ds ih =>
    have digit := digits d (by simp)
    have known : digitValue? d = some (d.toNat - 48) := by simp [digitValue?,digit]
    have other : d ≠ '_' := by rintro rfl; exact absurd digit (by decide)
    have step : readDigits value (d :: ds) = readDigits (10 * value + (d.toNat - 48)) ds := by
      rw [readDigits.eq_def]
      split
      · contradiction
      next same => exact absurd (List.cons.inj same).1 other
      next same => cases same; simp [known]
    rw [step,ih fun e member => digits e (by simp [member]),Nat.ofDigitChars_cons]
    rfl

theorem trimBlanks_digits {ds : List Char} (digits : ∀ d ∈ ds, d.isDigit = true) : trimBlanks ds = ds := by
  have none {es : List Char} (digits : ∀ d ∈ es, d.isDigit = true) : es.dropWhile isBlank = es := by
    cases es with
    | nil => rfl
    | cons e es =>
      have solid := isBlank_of_isWordChar (isWordChar_of_isDigit (digits e (by simp)))
      simp [List.dropWhile,solid]
  unfold trimBlanks
  rw [none digits,none fun d member => digits d (List.mem_reverse.mp member),List.reverse_reverse]

theorem readInteger?_digits {ds : List Char} (nonempty : ds ≠ []) (digits : ∀ d ∈ ds, d.isDigit = true) :
    readInteger? (String.ofList ds) = some (Nat.ofDigitChars 10 ds 0 : Int) := by
  unfold readInteger?
  rw [String.toList_ofList,trimBlanks_digits digits]
  cases ds with
  | nil => contradiction
  | cons d ds =>
    have digit := digits d (by simp)
    have natural : readNatural? (d :: ds) = some (Nat.ofDigitChars 10 (d :: ds) 0) := by
      have known : digitValue? d = some (d.toNat - 48) := by simp [digitValue?,digit]
      have rest := readDigits_digits (fun e member => digits e (List.mem_cons_of_mem d member)) (d.toNat - 48)
      simp only [readNatural?,known,bind,Option.bind]
      rw [rest,Nat.ofDigitChars_cons]
      simp
    split
    next same => cases same; exact absurd digit (by decide)
    next same => cases same; exact absurd digit (by decide)
    · rw [natural]; rfl

end Text

namespace Grammar

@[simp] theorem skipped_nil : skipped [] = [] := rfl

theorem skipped_blank {c : Char} (blank : Text.isBlank c = true) (text : List Char) :
    skipped (c :: text) = skipped text := by
  simp only [skipped,skipLayout,Bool.false_eq_true,if_false,blank,if_true]
  exact skipLayout_rest _ _ _ _

theorem skipped_solid {c : Char} (solid : Text.isBlank c = false) (other : c ≠ '#') (text : List Char) :
    skipped (c :: text) = c :: text := by
  simp [skipped,skipLayout,solid,other]

theorem skipped_spaces (n : Nat) (text : List Char) : skipped (List.replicate n ' ' ++ text) = skipped text := by
  induction n with
  | zero => rfl
  | succ n ih =>
    rw [List.replicate_succ,List.cons_append,skipped_blank (by decide),ih]

theorem skipLayout_head (comment : Bool) (pos : Nat) (text : List Char) {c : Char}
    (first : (skipLayout comment pos text).rest.head? = some c) : Text.isBlank c = false ∧ c ≠ '#' := by
  induction text generalizing comment pos with
  | nil => simp [skipLayout] at first
  | cons d text ih =>
    unfold skipLayout at first
    split at first
    · exact ih _ _ first
    · split at first
      · exact ih _ _ first
      · split at first
        · exact ih _ _ first
        next solid other =>
          simp only [List.head?_cons,Option.some.injEq] at first
          subst first
          exact ⟨by simpa using solid,by simpa using other⟩

@[simp] theorem skipped_skipped (text : List Char) : skipped (skipped text) = skipped text := by
  cases front : skipped text with
  | nil => rfl
  | cons c rest =>
    have head := skipLayout_head false 0 text (c := c) (by change (skipped text).head? = _; rw [front]; rfl)
    exact skipped_solid head.1 head.2 rest

/-- A name as it stands in a text. -/
def IsWord (word : List Char) : Prop :=
  ∃ c rest, word = c :: rest ∧ Text.isDecimalDigit c = false ∧ ∀ d ∈ word, Text.isWordChar d = true

/-- No word goes on here. -/
def WordEnd (text : List Char) : Prop :=
  ∀ c ∈ text.head?, Text.isWordChar c = false

theorem WordEnd.nil : WordEnd [] := by simp [WordEnd]

theorem WordEnd.cons {c : Char} (other : Text.isWordChar c = false) (text : List Char) : WordEnd (c :: text) := by
  simp [WordEnd,other]

theorem WordEnd.takeWhile {text : List Char} (ends : WordEnd text) {q : Char → Bool}
    (narrow : ∀ c, q c = true → Text.isWordChar c = true) : text.takeWhile q = [] := by
  cases text with
  | nil => rfl
  | cons c text =>
    have other := ends c rfl
    cases known : q c with
    | true => rw [narrow c known] at other; contradiction
    | false => simp [List.takeWhile,known]

theorem take_word {word rest : List Char} (isWord : IsWord word) (ends : WordEnd rest) :
    Pattern.word.take (word ++ rest) = word := by
  obtain ⟨c,more,rfl,letter,chars⟩ := isWord
  have whole : (c :: more ++ rest).takeWhile Text.isWordChar = c :: more := by
    rw [List.takeWhile_append_of_pos chars,ends.takeWhile fun _ => id,List.append_nil]
  rw [List.cons_append] at whole ⊢
  simp only [Pattern.take,letter,Bool.false_eq_true,if_false]
  exact whole

theorem wordEnd_drop (text : List Char) : WordEnd (text.drop (text.takeWhile Text.isWordChar).length) := by
  induction text with
  | nil => exact .nil
  | cons c text ih =>
    cases known : Text.isWordChar c with
    | true => simpa [List.takeWhile,known] using ih
    | false => simpa [List.takeWhile,known] using WordEnd.cons known text

theorem isWord_of_take {text : List Char} (some : Pattern.word.take text ≠ []) :
    IsWord (Pattern.word.take text) ∧ WordEnd (text.drop (Pattern.word.take text).length) ∧
      text = Pattern.word.take text ++ text.drop (Pattern.word.take text).length := by
  cases text with
  | nil => exact absurd rfl some
  | cons c text =>
    simp only [Pattern.take] at some ⊢
    split at some
    · contradiction
    next letter =>
      have first : Text.isWordChar c = true := by
        by_contra other
        exact some (by simp [List.takeWhile,other])
      simp only [letter,Bool.false_eq_true,if_false]
      refine ⟨⟨c,text.takeWhile Text.isWordChar,by simp [List.takeWhile,first],by simpa using letter,?_⟩,
        wordEnd_drop _,?_⟩
      · exact fun d member => List.mem_takeWhile_imp member
      · exact List.prefix_iff_eq_append.mp (List.takeWhile_prefix _) |>.symm

theorem IsWord.skipped {word : List Char} (isWord : IsWord word) (rest : List Char) :
    skipped (word ++ rest) = word ++ rest := by
  obtain ⟨c,more,rfl,-,chars⟩ := isWord
  have first := chars c (by simp)
  refine skipped_solid (Text.isBlank_of_isWordChar first) ?_ _
  rintro rfl
  exact absurd first (by decide)

theorem take_integer {digits rest : List Char} (some : digits ≠ []) (known : ∀ d ∈ digits, d.isDigit = true)
    (ends : WordEnd rest) : Pattern.integer.take (digits ++ rest) = digits := by
  have whole : (digits ++ rest).takeWhile Char.isDigit = digits := by
    rw [List.takeWhile_append_of_pos known,ends.takeWhile fun _ => Text.isWordChar_of_isDigit,List.append_nil]
  simp only [Pattern.take]
  split
  next x digit more same =>
    have other : (x == 'x' || x == 'X') = false := by
      cases digits with
      | nil => contradiction
      | cons d ds =>
        cases ds with
        | nil =>
          have follows : rest = x :: digit :: more := (List.cons.inj same).2
          have apart := ends x (by simp [follows])
          simp only [Bool.or_eq_false_iff,beq_eq_false_iff_ne]
          constructor <;> rintro rfl <;> exact absurd apart (by decide)
        | cons e es =>
          have digit := known e (by simp)
          rw [(List.cons.inj (List.cons.inj same).2).1] at digit
          simp only [Bool.or_eq_false_iff,beq_eq_false_iff_ne]
          constructor <;> rintro rfl <;> exact absurd digit (by decide)
    rw [if_neg (by simp [other]),whole]
  · exact whole

/-- A number as it stands in a text, in decimal. -/
structure Numeral where
  chars : List Char
  some : chars ≠ []
  digits : ∀ d ∈ chars, d.isDigit = true

namespace Numeral

def value (n : Numeral) : Nat :=
  Nat.ofDigitChars 10 n.chars 0

/-- A natural number as it is written. -/
def ofNat (n : Nat) : Numeral where
  chars := Nat.toDigits 10 n
  some := Nat.toDigits_ne_nil
  digits _ member := Nat.isDigit_of_mem_toDigits (by decide) (by decide) member

@[simp] theorem value_ofNat (n : Nat) : (ofNat n).value = n :=
  Nat.ofDigitChars_ten_toDigits

theorem readInteger? (n : Numeral) : Text.readInteger? (String.ofList n.chars) = Option.some (n.value : Int) :=
  Text.readInteger?_digits n.some n.digits

theorem skipped (n : Numeral) (rest : List Char) : skipped (n.chars ++ rest) = n.chars ++ rest := by
  cases front : n.chars with
  | nil => exact absurd front n.some
  | cons d ds =>
    have digit := n.digits d (by simp [front])
    refine skipped_solid (Text.isBlank_of_isWordChar (Text.isWordChar_of_isDigit digit)) ?_ _
    rintro rfl
    exact absurd digit (by decide)

theorem head (n : Numeral) {rest : List Char} {c : Char}
    (first : (Grammar.skipped (n.chars ++ rest)).head? = Option.some c) : c.isDigit = true := by
  rw [n.skipped,List.head?_append_of_ne_nil _ n.some] at first
  exact n.digits c (List.mem_of_head? first)

end Numeral

section Tokens

variable {call : Rule → List Char → Taken Reading} {text rest : List Char}

theorem take_token (word : String) (front : skipped text = word.toList ++ rest)
    (ends : runsOn word.toList rest = false) :
    (Peg.token word).take call text = .ok { last := some (.text word) } rest false := by
  unfold Peg.take
  rw [tokenRest?_eq_some.mpr ⟨front,ends⟩]

theorem fail_token (word : String)
    (other : ∀ rest, skipped text = word.toList ++ rest → runsOn word.toList rest = true) :
    (Peg.token word).take call text = .fail false := by
  unfold Peg.take
  cases found : tokenRest? word.toList (skipped text) with
  | none => rfl
  | some rest =>
    obtain ⟨front,ends⟩ := tokenRest?_eq_some.mp found
    rw [other rest front] at ends
    contradiction

theorem fail_token_head {word : String} {c : Char} (first : word.toList.head? = some c)
    (other : (skipped text).head? ≠ some c) : (Peg.token word).take call text = .fail false := by
  refine fail_token word fun rest front => ?_
  rw [front,List.head?_append,first] at other
  exact absurd rfl other

theorem runsOn_symbol {token : List Char} (symbol : token.all Text.isAlphanumeric = false) (rest : List Char) :
    runsOn token rest = false := by
  simp [runsOn,symbol]

theorem WordEnd.runsOn (ends : WordEnd rest) (token : List Char) : runsOn token rest = false := by
  cases rest with
  | nil => simp [Grammar.runsOn]
  | cons c rest =>
    have other := ends c rfl
    cases known : Text.isAlphanumeric c with
    | true => rw [Text.isWordChar_of_alphanumeric known] at other; contradiction
    | false => simp [Grammar.runsOn,known]

/-- A token of a word and a word agree on how far they go, whatever follows. -/
theorem dropText?_append {token : List Char} (letters : token.all Text.isWordChar = true) (ends : WordEnd rest)
    (word : List Char) : dropText? token (word ++ rest) = (dropText? token word).map (· ++ rest) := by
  induction token generalizing word with
  | nil => simp [dropText?]
  | cons c token ih =>
    rw [List.all_cons,Bool.and_eq_true] at letters
    cases word with
    | nil =>
      cases rest with
      | nil => rfl
      | cons d rest =>
        have other : c ≠ d := by
          rintro rfl
          have apart := ends c rfl
          rw [letters.1] at apart
          contradiction
        simp [dropText?,other]
    | cons d word =>
      simp only [List.cons_append,dropText?]
      split
      · exact ih letters.2 word
      · rfl

theorem tokenRest?_append {token : List Char} (letters : token.all Text.isWordChar = true) (ends : WordEnd rest)
    (word : List Char) : tokenRest? token (word ++ rest) = none ↔ tokenRest? token word = none := by
  have same (more : List Char) : runsOn token (more ++ rest) = runsOn token more := by
    cases more with
    | nil => rw [List.nil_append,ends.runsOn,WordEnd.nil.runsOn]
    | cons c more => rfl
  unfold tokenRest?
  rw [dropText?_append letters ends]
  cases dropText? token word with
  | none => rfl
  | some more => simp [Option.filter,same]

end Tokens

end Grammar

end WhileExec
