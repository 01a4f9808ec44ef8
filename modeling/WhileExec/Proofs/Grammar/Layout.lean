import Mathlib
import WhileExec.Proofs.Grammar.Junctions
import WhileExec.Proofs.Grammar.Table

/-!
# Layout does not matter

A text is a list of chunks with layout before, between and behind them. Two layouts of the same chunks are read in step:
wherever one reading stands, the other stands in the same chunk with the same characters of it ahead, and a token, a
word or a number ends no later than the chunk does. So a rule comes to the same value at both, fails at both, or stops
at both.
-/

namespace WhileExec.Grammar

/-- A character that is no layout. -/
def isSolid (c : Char) : Bool :=
  !Text.isBlank c && c != '#'

/-- Characters in a row without layout among them. -/
structure Chunk where
  chars : List Char
  some : chars ≠ []
  solid : chars.all isSolid = true

def endsLine (c : Char) : Bool :=
  c == '\n' || c == '\r'

/-- Blanks, and comments with the characters that end their lines. -/
inductive Gap : List Char → Prop where
  | none : Gap []
  | blank {c : Char} {rest : List Char} (isBlank : Text.isBlank c = true) (gap : Gap rest) : Gap (c :: rest)
  | comment {words rest : List Char} {c : Char} (inside : ∀ d ∈ words, endsLine d = false) (ends : endsLine c = true)
      (gap : Gap rest) : Gap ('#' :: (words ++ c :: rest))

/-- As a gap, but a comment at the end of the text needs no end of its line. -/
inductive LastGap : List Char → Prop where
  | closed {gap : List Char} (isGap : Gap gap) : LastGap gap
  | comment {gap words : List Char} (isGap : Gap gap) (inside : ∀ d ∈ words, endsLine d = false) :
      LastGap (gap ++ '#' :: words)

/-- What stands behind a chunk when the given chunks are still to come. -/
inductive Tail : List Chunk → List Char → Prop where
  | last {gap : List Char} (isGap : LastGap gap) : Tail [] gap
  | next {gap rest : List Char} {chunk : Chunk} {chunks : List Chunk} (isGap : Gap gap) (some : gap ≠ [])
      (tail : Tail chunks rest) : Tail (chunk :: chunks) (gap ++ (chunk.chars ++ rest))

/-- The text is a layout of the chunks. -/
inductive LaidOut : List Chunk → List Char → Prop where
  | none {gap : List Char} (isGap : LastGap gap) : LaidOut [] gap
  | some {gap rest : List Char} {chunk : Chunk} {chunks : List Chunk} (isGap : Gap gap) (tail : Tail chunks rest) :
      LaidOut (chunk :: chunks) (gap ++ (chunk.chars ++ rest))

theorem skipLayout_comment {words : List Char} (inside : ∀ d ∈ words, endsLine d = false) (pos : Nat)
    (rest : List Char) :
    (skipLayout true pos (words ++ rest)).rest = (skipLayout true 0 rest).rest := by
  induction words generalizing pos with
  | nil => exact skipLayout_rest _ _ _ _
  | cons d words ih =>
    have within : (d == '\n' || d == '\r') = false := inside d (by simp)
    rw [List.cons_append,skipLayout,if_pos rfl,within]
    exact ih (fun e member => inside e (by simp [member])) _

theorem skipped_number_sign (text : List Char) : skipped ('#' :: text) = (skipLayout true 0 text).rest := by
  have sign : Text.isBlank '#' = false := by decide
  simp only [skipped,skipLayout,sign,Bool.false_eq_true,if_false,beq_self_eq_true,if_true]
  exact skipLayout_rest _ _ _ _

theorem Gap.skipped {gap : List Char} (isGap : Gap gap) (text : List Char) :
    skipped (gap ++ text) = skipped text := by
  induction isGap with
  | none => rfl
  | blank isBlank _ ih => rw [List.cons_append,skipped_blank isBlank,ih]
  | @comment words rest c inside ends _ ih =>
    have line : (c == '\n' || c == '\r') = true := ends
    rw [List.cons_append,skipped_number_sign,List.append_assoc,skipLayout_comment inside,List.cons_append,skipLayout,
      if_pos rfl,line]
    exact (skipLayout_rest _ _ _ _).trans ih

theorem LastGap.skipped {gap : List Char} (isGap : LastGap gap) : skipped gap = [] := by
  cases isGap with
  | closed isGap =>
    have whole := isGap.skipped []
    rwa [List.append_nil] at whole
  | @comment gap words isGap inside =>
    have whole := skipLayout_comment inside 0 []
    rw [List.append_nil] at whole
    rw [isGap.skipped,skipped_number_sign,whole]
    rfl

theorem skipped_chunk (chunk : Chunk) (rest : List Char) : skipped (chunk.chars ++ rest) = chunk.chars ++ rest := by
  cases front : chunk.chars with
  | nil => exact absurd front chunk.some
  | cons c more =>
    have solid := chunk.solid
    rw [front,List.all_cons,Bool.and_eq_true,isSolid,Bool.and_eq_true] at solid
    exact skipped_solid (by simpa using solid.1.1) (by simpa using solid.1.2) _

/-- The text is over, or layout comes next. -/
def ChunkEnd (text : List Char) : Prop :=
  ∀ c ∈ text.head?, isSolid c = false

theorem Gap.chunkEnd {gap : List Char} (isGap : Gap gap) (some : gap ≠ []) (text : List Char) :
    ChunkEnd (gap ++ text) := by
  cases isGap with
  | none => contradiction
  | blank isBlank => simp [ChunkEnd,isSolid,isBlank]
  | comment => simp [ChunkEnd,isSolid]

theorem LastGap.chunkEnd {gap : List Char} (isGap : LastGap gap) : ChunkEnd gap := by
  cases isGap with
  | closed isGap =>
    cases isGap with
    | none => simp [ChunkEnd]
    | blank isBlank => simp [ChunkEnd,isSolid,isBlank]
    | comment => simp [ChunkEnd,isSolid]
  | @comment gap words isGap inside =>
    by_cases some : gap = []
    · simp [some,ChunkEnd,isSolid]
    · exact isGap.chunkEnd some _

theorem Tail.chunkEnd {chunks : List Chunk} {rest : List Char} (tail : Tail chunks rest) : ChunkEnd rest := by
  cases tail with
  | last isGap => exact isGap.chunkEnd
  | next isGap some => exact isGap.chunkEnd some _

theorem isSolid_of_isWordChar {c : Char} (word : Text.isWordChar c = true) : isSolid c = true := by
  have other : c ≠ '#' := by
    rintro rfl
    exact absurd word (by decide)
  simp [isSolid,Text.isBlank_of_isWordChar word,other]

theorem ChunkEnd.wordEnd {text : List Char} (ends : ChunkEnd text) : WordEnd text := by
  intro c first
  by_contra word
  rw [Bool.not_eq_false] at word
  have layout := ends c first
  rw [isSolid_of_isWordChar word] at layout
  contradiction

theorem ChunkEnd.dropText? {rest token : List Char} (ends : ChunkEnd rest) (solid : token.all isSolid = true)
    (part : List Char) : dropText? token (part ++ rest) = (Grammar.dropText? token part).map (· ++ rest) := by
  induction token generalizing part with
  | nil => simp [Grammar.dropText?]
  | cons c token ih =>
    rw [List.all_cons,Bool.and_eq_true] at solid
    cases part with
    | nil =>
      cases rest with
      | nil => rfl
      | cons d rest =>
        have other : c ≠ d := by
          rintro rfl
          have layout := ends c rfl
          rw [solid.1] at layout
          contradiction
        simp [Grammar.dropText?,other]
    | cons d part =>
      simp only [List.cons_append,Grammar.dropText?]
      split
      · exact ih solid.2 part
      · rfl

theorem WordEnd.hexFront {rest : List Char} (ends : WordEnd rest) {part : List Char}
    (hex : HexFront (part ++ rest)) : HexFront part := by
  obtain ⟨x,digit,more,front,mark,known⟩ := hex
  have letter : Text.isWordChar x = true := by
    simp only [Bool.or_eq_true,beq_iff_eq] at mark
    rcases mark with rfl | rfl <;> decide
  have apart {c : Char} {behind : List Char} (same : rest = c :: behind) (word : Text.isWordChar c = true) : False := by
    have last := ends c (by rw [same]; rfl)
    rw [word] at last
    contradiction
  cases part with
  | nil => exact (apart front (by decide)).elim
  | cons a part =>
    cases part with
    | nil => exact (apart (List.cons.inj front).2 letter).elim
    | cons b part =>
      cases part with
      | nil => exact (apart (List.cons.inj (List.cons.inj front).2).2 (isWordChar_of_isHexDigit known)).elim
      | cons c part =>
        simp only [List.cons_append,List.cons.injEq] at front
        obtain ⟨rfl,rfl,rfl,-⟩ := front
        exact ⟨b,c,part,rfl,mark,known⟩

theorem WordEnd.take {rest : List Char} (ends : WordEnd rest) {p : Pattern} (other : p ≠ .lineBreaks)
    (part : List Char) : p.take (part ++ rest) = p.take part := by
  have shorter {q : Char → Bool} (narrow : ∀ c, q c = true → Text.isWordChar c = true) (text : List Char) :
      (text ++ rest).takeWhile q = text.takeWhile q := by
    rw [List.takeWhile_append]
    split
    next whole =>
      rw [ends.takeWhile narrow,List.append_nil]
      exact ((List.takeWhile_prefix q).eq_of_length whole).symm
    · rfl
  cases p with
  | integer =>
    by_cases hex : HexFront part
    · obtain ⟨x,digit,more,rfl,mark,known⟩ := hex
      simp only [List.cons_append]
      rw [integer_take_hex mark known,integer_take_hex mark known,shorter fun _ => isWordChar_of_isHexDigit]
    · rw [integer_take_decimal hex,integer_take_decimal (mt ends.hexFront hex),
        shorter fun _ => Text.isWordChar_of_isDigit]
  | word =>
    cases part with
    | nil =>
      have none := ends.takeWhile (q := Text.isWordChar) fun _ => id
      simp only [List.nil_append,Pattern.take]
      split
      · rfl
      · rw [none,ite_self]
    | cons c part =>
      have same := shorter (q := Text.isWordChar) (fun _ => id) (c :: part)
      rw [List.cons_append] at same ⊢
      simp only [Pattern.take]
      rw [same]
  | lineBreaks => contradiction

/-- Two texts go on with the same characters up to the end of a chunk, and behind it with the same chunks. -/
def Relaid (text other : List Char) : Prop :=
  ∃ part rest behind chunks, text = part ++ rest ∧ other = part ++ behind ∧ part.all isSolid = true ∧
    Tail chunks rest ∧ Tail chunks behind

theorem Relaid.skipped {text other : List Char} (relaid : Relaid text other) :
    Relaid (skipped text) (skipped other) := by
  obtain ⟨part,rest,behind,chunks,rfl,rfl,solid,one,two⟩ := relaid
  by_cases empty : part = []
  · subst empty
    cases one with
    | last isGap =>
      cases two with
      | last gapIs =>
        rw [List.nil_append,List.nil_append,isGap.skipped,gapIs.skipped]
        exact ⟨[],[],[],[],rfl,rfl,rfl,.last (.closed .none),.last (.closed .none)⟩
    | @next _ rest chunk chunks isGap _ one =>
      cases two with
      | @next _ behind _ _ gapIs _ two =>
        rw [List.nil_append,List.nil_append,isGap.skipped,gapIs.skipped,skipped_chunk,skipped_chunk]
        exact ⟨chunk.chars,rest,behind,chunks,rfl,rfl,chunk.solid,one,two⟩
  · have front (text : List Char) := skipped_chunk ⟨part,empty,solid⟩ text
    rw [front,front]
    exact ⟨part,rest,behind,chunks,rfl,rfl,solid,one,two⟩

theorem LaidOut.relaid {chunks : List Chunk} {text other : List Char} (one : LaidOut chunks text)
    (two : LaidOut chunks other) : Relaid (Grammar.skipped text) (Grammar.skipped other) := by
  cases one with
  | none isGap =>
    cases two with
    | none gapIs => exact Relaid.skipped ⟨[],_,_,[],rfl,rfl,rfl,.last isGap,.last gapIs⟩
  | @some _ rest chunk chunks isGap one =>
    cases two with
    | @some _ behind _ _ gapIs two =>
      rw [isGap.skipped,gapIs.skipped,skipped_chunk,skipped_chunk]
      exact ⟨chunk.chars,rest,behind,chunks,rfl,rfl,chunk.solid,one,two⟩

theorem Relaid.tokenRest? {text other token : List Char} (relaid : Relaid text other)
    (solid : token.all isSolid = true) :
    Option.Rel Relaid (tokenRest? token text) (Grammar.tokenRest? token other) := by
  obtain ⟨part,rest,behind,chunks,rfl,rfl,inside,one,two⟩ := relaid
  unfold Grammar.tokenRest?
  rw [one.chunkEnd.dropText? solid,two.chunkEnd.dropText? solid]
  cases found : dropText? token part with
  | none => exact .none
  | some more =>
    have split := dropText?_eq_some.mp found
    have same : runsOn token (more ++ rest) = runsOn token (more ++ behind) := by
      cases more with
      | nil => rw [List.nil_append,List.nil_append,one.chunkEnd.wordEnd.runsOn,two.chunkEnd.wordEnd.runsOn]
      | cons c more => rfl
    rw [split,List.all_append,Bool.and_eq_true] at inside
    simp only [Option.map_some,Option.filter,same]
    split
    · exact .some ⟨more,rest,behind,chunks,rfl,rfl,inside.2,one,two⟩
    · exact .none

theorem Relaid.take {text other : List Char} (relaid : Relaid text other) {p : Pattern} (plain : p ≠ .lineBreaks) :
    p.take text = p.take other ∧ Relaid (text.drop (p.take text).length) (other.drop (p.take text).length) := by
  obtain ⟨part,rest,behind,chunks,rfl,rfl,inside,one,two⟩ := relaid
  rw [one.chunkEnd.wordEnd.take plain,two.chunkEnd.wordEnd.take plain]
  have bound := p.take_length part
  rw [List.drop_append_of_le_length bound,List.drop_append_of_le_length bound]
  refine ⟨rfl,part.drop (p.take part).length,rest,behind,chunks,rfl,rfl,?_,one,two⟩
  rw [List.all_eq_true] at inside ⊢
  exact fun c member => inside c (List.mem_of_mem_drop member)

/-- The same value with the same chunks left, or two failures alike. -/
inductive Taken.Alike {α : Type} : Taken α → Taken α → Prop where
  | ok {value : α} {rest other : List Char} {cut : Bool} (relaid : Relaid rest other) :
      Alike (.ok value rest cut) (.ok value other cut)
  | fail {cut : Bool} : Alike (.fail cut) (.fail cut)
  | stop : Alike .stop .stop

namespace Taken.Alike

variable {α β : Type} {x y : Taken α}

theorem map (alike : x.Alike y) (f : α → β) : (x.map f).Alike (y.map f) := by
  cases alike with
  | ok relaid => exact .ok relaid
  | fail => exact .fail
  | stop => exact .stop

theorem behindCut (alike : x.Alike y) (passed : Bool) : (x.behindCut passed).Alike (y.behindCut passed) := by
  cases alike with
  | ok relaid => exact .ok relaid
  | fail => exact .fail
  | stop => exact .stop

theorem andThen (alike : x.Alike y) {next : α → List Char → Taken β}
    (later : ∀ value rest other, Relaid rest other → (next value rest).Alike (next value other)) :
    (x.andThen next).Alike (y.andThen next) := by
  cases alike with
  | ok relaid => exact (later _ _ _ relaid).behindCut _
  | fail => exact .fail
  | stop => exact .stop

theorem orElse {x' y' : Taken α} (alike : x.Alike y) (second : x'.Alike y') : (x.orElse x').Alike (y.orElse y') := by
  cases alike with
  | ok relaid => exact .ok relaid
  | @fail cut =>
    cases cut with
    | false => exact second
    | true => exact .stop
  | stop => exact .stop

theorem close (alike : x.Alike y) (f : α → Except Fault β) : (x.close f).Alike (y.close f) := by
  cases alike with
  | @ok value rest other cut relaid =>
    simp only [Taken.close]
    cases f value with
    | ok closed => exact .ok relaid
    | error fault => exact .stop
  | fail => exact .fail
  | stop => exact .stop

theorem eq_ok_iff {value : α} (alike : x.Alike y) :
    (∃ rest cut, x = .ok value rest cut) ↔ ∃ rest cut, y = .ok value rest cut := by
  cases alike with
  | ok relaid => simp
  | fail => simp
  | stop => simp

end Taken.Alike

section Gathering

variable {separator item : List Char → Taken (Parts Reading)}

theorem gatherTake_alike (marks : ∀ t u, Relaid t u → (separator t).Alike (separator u))
    (items : ∀ t u, Relaid t u → (item t).Alike (item u)) (fuel : Nat) {text other : List Char}
    (relaid : Relaid text other) :
    (gatherTake separator item fuel text).Alike (gatherTake separator item fuel other) := by
  induction fuel generalizing text other with
  | zero => exact .ok relaid
  | succ fuel ih =>
    unfold gatherTake
    have mark := marks text other relaid
    generalize separator text = x, separator other = y at mark
    cases mark with
    | @ok mark next next' _ behind =>
      have value := items next next' behind
      simp only
      generalize item next = x, item next' = y at value
      cases value with
      | ok after => exact (ih after).map _
      | fail => exact .stop
      | stop => exact .stop
    | @fail cut =>
      cases cut with
      | false => exact .ok relaid
      | true => exact .stop
    | stop => exact .stop

/-- A list has fewer separators than characters, so more fuel than characters changes nothing. -/
theorem gatherTake_enough
    (marks : ∀ text, separator text = .fail false ∨
      ∃ p rest, separator text = .ok p rest false ∧ rest.length < text.length)
    (items : ∀ text p rest cut, item text = .ok p rest cut → rest.length ≤ text.length) {n m : Nat} {text : List Char}
    (first : text.length ≤ n) (second : text.length ≤ m) :
    gatherTake separator item n text = gatherTake separator item m text := by
  have ended (fuel : Nat) {text : List Char} (none : separator text = .fail false) :
      gatherTake separator item fuel text = .ok [] text false := by
    cases fuel with
    | zero => rfl
    | succ fuel => rw [gatherTake,none]
  induction n generalizing m text with
  | zero =>
    rcases marks text with none | ⟨p,rest,-,shorter⟩
    · rw [ended _ none,ended _ none]
    · omega
  | succ n ih =>
    rcases marks text with none | ⟨p,rest,found,shorter⟩
    · rw [ended _ none,ended _ none]
    · obtain ⟨m,rfl⟩ : ∃ k, m = k + 1 := ⟨m - 1,by omega⟩
      simp only [gatherTake,found]
      cases valued : item rest with
      | ok value after cut =>
        have least := items _ _ _ _ valued
        simp only
        rw [ih (m := m) (by omega) (by omega)]
      | fail | stop => rfl

end Gathering

/-- A token, perhaps put into a field. -/
def Peg.isMark : Peg → Bool
  | .token word => !word.toList.isEmpty
  | .named _ e => e.isMark
  | _ => false

/-- No part of the expression reads layout. -/
def Peg.plain : Peg → Bool
  | .token word => word.toList.all isSolid
  | .pattern p => p != .lineBreaks
  | .call r => r != .newlineText
  | .cut | .fail _ => true
  | .named _ e | .keep e | .optional e => e.plain
  | .seq a b | .orElse a b => a.plain && b.plain
  | .gather separator item => separator.isMark && separator.plain && item.plain

theorem Rule.body_plain {r : Rule} (other : r ≠ .newlineText) : r.body.plain = true := by
  cases r
  case newlineText => contradiction
  all_goals decide +kernel

theorem Peg.take_mark {e : Peg} (mark : e.isMark = true) (call : Rule → List Char → Taken Reading)
    (text : List Char) :
    e.take call text = .fail false ∨ ∃ p rest, e.take call text = .ok p rest false ∧ rest.length < text.length := by
  induction e with
  | token word =>
    unfold take
    cases found : Grammar.tokenRest? word.toList (Grammar.skipped text) with
    | none => exact .inl rfl
    | some rest =>
      right
      refine ⟨_,rest,rfl,?_⟩
      have size := congrArg List.length (tokenRest?_eq_some.mp found).1
      have least := skipped_length text
      have : 0 < word.toList.length := by simpa [isMark,List.length_pos_iff] using mark
      rw [List.length_append] at size
      omega
  | named field e ih =>
    unfold take
    rcases ih mark with none | ⟨p,rest,found,shorter⟩
    · left
      rw [none]
      rfl
    · right
      rw [found]
      exact ⟨_,rest,rfl,shorter⟩
  | _ => contradiction

theorem Peg.take_alike {call : Rule → List Char → Taken Reading} (forward : Forward call)
    (calls : ∀ r t u, r ≠ .newlineText → Relaid t u → (call r t).Alike (call r u)) {e : Peg} (plain : e.plain = true)
    {text other : List Char} (relaid : Relaid text other) : (e.take call text).Alike (e.take call other) := by
  induction e generalizing text other with
  | token word =>
    have found : Option.Rel Relaid (tokenRest? word.toList (skipped text)) (tokenRest? word.toList (skipped other)) :=
      relaid.skipped.tokenRest? plain
    unfold take
    generalize tokenRest? word.toList (skipped text) = x, tokenRest? word.toList (skipped other) = y at found
    cases found with
    | some behind => exact .ok behind
    | none => exact .fail
  | pattern p =>
    obtain ⟨same,behind⟩ := relaid.take (p := p) (by simpa [Peg.plain] using plain)
    unfold take
    rw [← same]
    cases taken : p.take text with
    | nil => exact .fail
    | cons c more =>
      rw [taken] at behind
      exact .ok behind
  | call r => exact (calls r _ _ (by simpa [Peg.plain] using plain) relaid).map _
  | cut => exact .ok relaid
  | named field e ih => exact (ih plain relaid).map _
  | keep e ih => exact (ih plain relaid).map _
  | seq a b first second =>
    obtain ⟨one,two⟩ := Bool.and_eq_true_iff.mp plain
    exact (first one relaid).andThen fun p rest behind later => (second two later).map _
  | orElse a b first second =>
    obtain ⟨one,two⟩ := Bool.and_eq_true_iff.mp plain
    exact (first one relaid).orElse (second two relaid)
  | fail message => exact .fail
  | optional e ih => exact (ih plain relaid).orElse (.ok relaid)
  | gather separator item marks items =>
    simp only [Peg.plain,Bool.and_eq_true] at plain
    obtain ⟨⟨mark,one⟩,two⟩ := plain
    apply (items two relaid).andThen
    intro first rest behind later
    apply Taken.Alike.map
    -- The two texts left are of different length; enough fuel for the longer one is enough for both.
    have enough {t : List Char} (short : t.length ≤ max rest.length behind.length) :
        gatherTake (separator.take call) (item.take call) t.length t =
          gatherTake (separator.take call) (item.take call) (max rest.length behind.length) t :=
      gatherTake_enough (take_mark mark call) (fun _ _ _ _ read => (item.take_forward forward read).1) le_rfl short
    rw [enough (le_max_left _ _),enough (le_max_right _ _)]
    exact gatherTake_alike (fun _ _ => marks one) (fun _ _ => items two) _ later

theorem Rule.taken_alike (fuel : Nat) {r : Rule} (other : r ≠ .newlineText) {t u : List Char} (relaid : Relaid t u) :
    (r.taken fuel t).Alike (r.taken fuel u) := by
  induction fuel generalizing r t u with
  | zero => exact .stop
  | succ fuel ih =>
    have entered : Relaid (if r.skips then skipped t else t) (if r.skips then skipped u else u) := by
      split
      · exact relaid.skipped
      · exact relaid
    exact (Peg.take_alike (Rule.taken_forward fuel) (fun _ _ _ other => ih other) (Rule.body_plain other) entered).close _

theorem outcome_alike {r : Rule} (other : r ≠ .newlineText) {t u : List Char} (relaid : Relaid t u) :
    (outcome r t).Alike (outcome r u) := by
  have first := depth_lt_bound r t
  have second := depth_lt_bound r u
  have both := Rule.taken_alike (max (depthBound t) (depthBound u)) other relaid
  rwa [Rule.taken_eq (m := depthBound t) (by omega) first,Rule.taken_eq (m := depthBound u) (by omega) second] at both

/-- Programs that differ in layout only are both unreadable, or are read as the same tree. -/
theorem parse_laidOut {chunks : List Chunk} {text other : String} (one : LaidOut chunks text.toList)
    (two : LaidOut chunks other.toList) : (parse text).toOption = (parse other).toOption := by
  have alike := outcome_alike (r := .start) (by decide) (one.relaid two)
  rw [outcome_skipped rfl,outcome_skipped rfl] at alike
  have readable (t : String) (value : Reading) : (parse t).toOption = some value ↔ parse t = .ok value := by
    cases parse t <;> simp [Except.toOption]
  apply Option.ext
  intro value
  rw [readable,readable,parse_eq_ok,parse_eq_ok]
  exact alike.eq_ok_iff

/-- A line with two statements, and the same with comments in front, between and behind. -/
theorem parse_commented :
    let chunks : List Chunk := [⟨"x:=1;".toList,by decide,by decide⟩,⟨"skip".toList,by decide,by decide⟩]
    LaidOut chunks "x:=1; skip".toList ∧ LaidOut chunks "#a\nx:=1;#b\r\tskip #c".toList ∧
      parse "x:=1; skip" = .ok (.stmt (.block [.assign "x" (.int 1),.skip])) ∧
      (parse "x:=1; skip").toOption = (parse "#a\nx:=1;#b\r\tskip #c").toOption := by
  intro chunks
  have one : LaidOut chunks "x:=1; skip".toList := by
    apply LaidOut.some .none
    apply Tail.next (.blank rfl .none) (by decide)
    exact .last (.closed .none)
  have two : LaidOut chunks "#a\nx:=1;#b\r\tskip #c".toList := by
    have front : Gap "#a\n".toList := @Gap.comment ['a'] [] '\n' (by simp [endsLine]) rfl .none
    have between : Gap "#b\r\t".toList := @Gap.comment ['b'] ['\t'] '\r' (by simp [endsLine]) rfl (.blank rfl .none)
    have last : LastGap " #c".toList := @LastGap.comment [' '] ['c'] (.blank rfl .none) (by simp [endsLine])
    exact .some front (.next between (by decide) (.last last))
  exact ⟨one,two,parse_eq_ok.mpr ⟨_,_,rfl⟩,parse_laidOut one two⟩

end WhileExec.Grammar
