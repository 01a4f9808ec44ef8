import Mathlib
import WhileExec.Proofs.Grammar.Shapes

/-!
# How expressions are read

For every rule of the expressions, what it comes to at a text, given what the rules come to that it calls. Where an
option fails, its failure must not stand behind a cut, or no other option would be tried: these facts are lemmas of
their own.

The two levels of arithmetic operators have one form, `Level`, and so have the two connectives, `Connective`.
-/

namespace WhileExec.Grammar

/-- Behind layout, the text begins with none of the characters. -/
def Stops (chars : List Char) (text : List Char) : Prop :=
  ∀ c ∈ (skipped text).head?, c ∉ chars

theorem Stops.mono {chars others text : List Char} (stops : Stops others text) (fewer : chars ⊆ others) :
    Stops chars text :=
  fun c first member => stops c first (fewer member)

theorem Stops.nil (chars : List Char) : Stops chars [] := by
  simp [Stops]

theorem Stops.solid {c : Char} (solid : Text.isBlank c = false) (other : c ≠ '#') {chars : List Char} (apart : c ∉ chars)
    (text : List Char) : Stops chars (c :: text) := by
  simp [Stops,skipped_solid solid other,apart]

theorem Stops.blank {c : Char} (blank : Text.isBlank c = true) {chars text : List Char} :
    Stops chars (c :: text) ↔ Stops chars text := by
  rw [Stops,skipped_blank blank,Stops]

theorem Stops.skipped {chars text : List Char} : Stops chars (skipped text) ↔ Stops chars text := by
  rw [Stops,skipped_skipped,Stops]

theorem IsWord.stops {word chars : List Char} (isWord : IsWord word) (apart : chars.any Text.isWordChar = false)
    (rest : List Char) : Stops chars (word ++ rest) := by
  intro c first member
  rw [isWord.skipped] at first
  obtain ⟨d,more,rfl,-,letters⟩ := isWord
  cases first
  have other := List.any_eq_false.mp apart _ member
  exact other (letters _ (by simp))

namespace Peg

variable (call : Rule → List Char → Taken Reading) (a b : Peg) (r : Rule) (field : String) (text : List Char)

theorem take_seq : (seq a b).take call text = (a.take call text).andThen fun p next => (b.take call next).map p.append :=
  rfl

theorem take_orElse : (orElse a b).take call text = (a.take call text).orElse (b.take call text) := rfl

theorem take_call : (Peg.call r).take call text = (call r text).map fun value => { last := some value } := rfl

theorem take_named : (named field a).take call text =
    (a.take call text).map fun p => { p with fields := p.fields ++ p.last.toList.map (field,·) } := rfl

theorem take_keep : (keep a).take call text = (a.take call text).map fun p => { p with kept := p.last } := rfl

theorem take_gather : (gather a b).take call text = (b.take call text).andThen fun first next =>
    (gatherTake (a.take call) (b.take call) next.length next).map (gathered .list first) := rfl

theorem take_cut : cut.take call text = .ok {} text true := rfl

theorem take_optional : (optional a).take call text = (a.take call text).orElse (.ok {} text false) := rfl

end Peg

theorem take_token_skipped (word : String) (call : Rule → List Char → Taken Reading) (text : List Char) :
    (Peg.token word).take call (skipped text) = (Peg.token word).take call text := by
  simp only [Peg.take,skipped_skipped]

section Rules

variable {text : List Char}

theorem Stops.token {chars : List Char} (stops : Stops chars text) {word : String} (c : Char)
    (first : word.toList.head? = some c) (member : c ∈ chars) {call : Rule → List Char → Taken Reading} :
    (Peg.token word).take call text = .fail false :=
  fail_token_head first fun same => stops c same member

theorem outcome_skipped {r : Rule} (skips : r.skips = true) (text : List Char) :
    outcome r (skipped text) = outcome r text := by
  rw [outcome_eq,outcome_eq r text]
  simp [Rule.take,skips]

theorem outcome_body {r : Rule} (skips : r.skips = true) (text : List Char) :
    outcome r text = (r.body.take outcome (skipped text)).close (Reading.close r) := by
  rw [outcome_eq]
  simp [Rule.take,skips]

theorem outcome_blank {r : Rule} (skips : r.skips = true) {c : Char} (blank : Text.isBlank c = true)
    (text : List Char) : outcome r (c :: text) = outcome r text := by
  rw [← outcome_skipped skips,skipped_blank blank,outcome_skipped skips]

/-- The first outcome that is no failure. -/
def firstTaken : List (Taken Reading) → Taken Reading
  | [] => .fail false
  | x :: xs => x.orElse (firstTaken xs)

@[simp] theorem firstTaken_nil : firstTaken [] = .fail false := rfl

@[simp] theorem firstTaken_cons (x : Taken Reading) (xs : List (Taken Reading)) :
    firstTaken (x :: xs) = x.orElse (firstTaken xs) := rfl

theorem firstTaken_fail {xs : List (Taken Reading)} (each : ∀ x ∈ xs, x = .fail false) :
    firstTaken xs = .fail false := by
  induction xs with
  | nil => rfl
  | cons x xs ih =>
    rw [firstTaken_cons,each x (by simp),Taken.orElse_fail,ih fun y member => each y (by simp [member])]

theorem close_orElse {α β : Type} (f : α → Except Fault β) (x y : Taken α) :
    (x.orElse y).close f = (x.close f).orElse (y.close f) := by
  cases x with
  | ok v u c =>
    simp only [Taken.orElse_ok,Taken.close]
    cases f v <;> rfl
  | fail c => cases c <;> rfl
  | stop => rfl

theorem close_firstOf (f : Parts Reading → Except Fault Reading) (message : String) (options : List Peg)
    (text : List Char) : ((Peg.firstOf message options).take outcome text).close f =
      firstTaken (options.map fun e => (e.take outcome text).close f) := by
  induction options with
  | nil => rfl
  | cons e options ih => rw [Peg.firstOf,Peg.take_orElse,close_orElse,ih]; rfl

theorem outcome_options {r : Rule} {message : String} {options : List Peg} (skips : r.skips = true)
    (body : r.body = .firstOf message options) (text : List Char) :
    outcome r text = firstTaken (options.map fun e => (e.take outcome (skipped text)).close (Reading.close r)) := by
  rw [outcome_body skips,body,close_firstOf]

theorem close_call {r s : Rule} (other : r ≠ .number) (closes : ∀ p, Reading.ofParts? r p = p.single?)
    (skips : s.skips = true) (text : List Char) :
    ((Peg.call s).take outcome (skipped text)).close (Reading.close r) = outcome s text := by
  rw [Peg.take_call,outcome_skipped skips]
  cases outcome s text with
  | ok v u c => exact Taken.close_ok _ _ _ _ ((close_eq_ok other).mpr (by rw [closes]; rfl))
  | fail | stop => rfl

theorem outcome_choice {r : Rule} {message : String} (rules : List Rule) (skips : r.skips = true)
    (each : ∀ s ∈ rules, s.skips = true) (body : r.body = .firstOf message (rules.map .call))
    (closes : ∀ p, Reading.ofParts? r p = p.single?) (text : List Char) :
    outcome r text = firstTaken (rules.map (outcome · text)) := by
  have other : r ≠ .number := by rintro rfl; cases rules <;> cases body
  rw [outcome_options skips body,List.map_map]
  exact congrArg _ (List.map_congr_left fun s member => close_call other closes (each s member) text)

theorem outcome_tokens_fail {r : Rule} {message : String} (words : List String) (skips : r.skips = true)
    (body : r.body = .firstOf message (words.map .token))
    (each : ∀ word ∈ words, (Peg.token word).take outcome text = .fail false) : outcome r text = .fail false := by
  rw [outcome_options skips body,List.map_map]
  refine firstTaken_fail fun x member => ?_
  obtain ⟨word,known,rfl⟩ := List.mem_map.mp member
  rw [Function.comp_apply,take_token_skipped,each word known]
  rfl

end Rules

section Operations

variable {r left right : Rule} {form : Form} {mark : Peg} {op : String} {text mid after rest : List Char}
  {lhs rhs : Expr} {cut : Bool}

/-- The rule reads an operation: two operands, and behind the operator between them a cut. -/
structure Operates (r : Rule) (form : Form) (left : Rule) (mark : Peg) (right : Rule) : Prop where
  skips : r.skips = true
  leftSkips : left.skips = true
  body : r.body = .all [.named "lhs" (.call left),.named "op" mark,.cut,.named "rhs" (.call right)]
  closes : ∀ p, Reading.ofParts? r p = Reading.operation form p

namespace Operates

variable (operates : Operates r form left mark right)

include operates

theorem outcome_ok (first : outcome left text = .ok (.expr lhs) mid false)
    (marked : mark.take outcome mid = .ok { last := some (.text op) } after false)
    (second : outcome right after = .ok (.expr rhs) rest cut) :
    outcome r text = .ok (.expr (.app form op [lhs,rhs])) rest true := by
  have other : r ≠ .number := by rintro rfl; cases operates.body
  rw [outcome_body operates.skips,operates.body]
  simp only [Peg.all,Peg.take_seq,Peg.take_named,Peg.take_call,Peg.take_cut,outcome_skipped operates.leftSkips,first,
    marked,second,Taken.map_ok,Taken.andThen_ok,Taken.behindCut_ok,Bool.false_or,Bool.true_or]
  exact Taken.close_ok _ _ _ _ ((close_eq_ok other).mpr (by rw [operates.closes]; rfl))

theorem fail_left (first : outcome left text = .fail false) : outcome r text = .fail false := by
  rw [outcome_body operates.skips,operates.body]
  simp only [Peg.all,Peg.take_seq,Peg.take_named,Peg.take_call,outcome_skipped operates.leftSkips,first,Taken.map_fail,
    Taken.andThen_fail,Taken.close_fail]

theorem fail_mark {value : Reading} (first : outcome left text = .ok value mid false)
    (marked : mark.take outcome mid = .fail false) : outcome r text = .fail false := by
  rw [outcome_body operates.skips,operates.body]
  simp only [Peg.all,Peg.take_seq,Peg.take_named,Peg.take_call,outcome_skipped operates.leftSkips,first,marked,
    Taken.map_ok,Taken.map_fail,Taken.andThen_ok,Taken.andThen_fail,Taken.behindCut_fail,Bool.false_or,Taken.close_fail]

end Operates

/-- Operands of one level, with two operators between them. Operations associate to the right. -/
structure Level (lower first second upper : Rule) (a b : String) : Prop where
  choice : ∀ text, outcome upper text = firstTaken [outcome first text,outcome second text,outcome lower text]
  one : Operates first .arith lower (.token a) upper
  two : Operates second .arith lower (.token b) upper

namespace Level

variable {lower first second upper : Rule} {a b : String} (level : Level lower first second upper a b)

include level

theorem outcome_operand {value : Reading} (read : outcome lower text = .ok value rest false)
    (notFirst : (Peg.token a).take outcome rest = .fail false)
    (notSecond : (Peg.token b).take outcome rest = .fail false) : outcome upper text = .ok value rest false := by
  rw [level.choice,level.one.fail_mark read notFirst,level.two.fail_mark read notSecond,read]
  rfl

theorem outcome_first (read : outcome lower text = .ok (.expr lhs) mid false)
    (marked : (Peg.token a).take outcome mid = .ok { last := some (.text a) } after false)
    (more : outcome upper after = .ok (.expr rhs) rest cut) :
    outcome upper text = .ok (.expr (.app .arith a [lhs,rhs])) rest false := by
  rw [level.choice,level.one.outcome_ok read marked more]
  rfl

theorem outcome_second (read : outcome lower text = .ok (.expr lhs) mid false)
    (notFirst : (Peg.token a).take outcome mid = .fail false)
    (marked : (Peg.token b).take outcome mid = .ok { last := some (.text b) } after false)
    (more : outcome upper after = .ok (.expr rhs) rest cut) :
    outcome upper text = .ok (.expr (.app .arith b [lhs,rhs])) rest false := by
  rw [level.choice,level.one.fail_mark read notFirst,level.two.outcome_ok read marked more]
  rfl

theorem outcome_fail (failed : outcome lower text = .fail false) : outcome upper text = .fail false := by
  rw [level.choice,level.one.fail_left failed,level.two.fail_left failed,failed]
  rfl

end Level

theorem termLevel : Level .factor .mult .division .term "*" "/" where
  choice := outcome_choice [.mult,.division,.factor] rfl (by decide) rfl fun _ => rfl
  one := ⟨rfl,rfl,rfl,fun _ => rfl⟩
  two := ⟨rfl,rfl,rfl,fun _ => rfl⟩

theorem sumLevel : Level .term .addition .subtraction .aexp "+" "-" where
  choice := outcome_choice [.addition,.subtraction,.term] rfl (by decide) rfl fun _ => rfl
  one := ⟨rfl,rfl,rfl,fun _ => rfl⟩
  two := ⟨rfl,rfl,rfl,fun _ => rfl⟩

end Operations

section Factors

variable {text mid rest : List Char} {value : Reading} {cut : Bool}

theorem outcome_pattern {r : Rule} {p : Pattern} (skips : r.skips = false) (body : r.body = .pattern p)
    (closes : ∀ q, Reading.ofParts? r q = q.single?) (text : List Char) :
    outcome r text = if p.take text = [] then .fail false else
      .ok (.text (String.ofList (p.take text))) (text.drop (p.take text).length) false := by
  have other : r ≠ .number := by rintro rfl; cases body
  rw [outcome_eq,Rule.take,body,if_neg (by simp [skips])]
  unfold Peg.take
  split
  next none => rw [if_pos none]; rfl
  next some => rw [if_neg some]; exact Taken.close_ok _ _ _ _ ((close_eq_ok other).mpr (by rw [closes]; rfl))

theorem name_ok {word : List Char} (isWord : IsWord word) (ends : WordEnd rest) :
    outcome .name (word ++ rest) = .ok (.expr (.var (String.ofList word))) rest false := by
  have some : word ≠ [] := by obtain ⟨c,more,rfl,-⟩ := isWord; simp
  have read : outcome .nameText (word ++ rest) = .ok (.text (String.ofList word)) rest false := by
    rw [outcome_pattern rfl rfl (fun _ => rfl),take_word isWord ends,if_neg some,List.drop_left]
  rw [outcome_body rfl,isWord.skipped]
  change ((outcome .nameText _).map _).close _ = _
  rw [read]
  rfl

theorem name_fail (other : ∀ c ∈ (skipped text).head?, Text.isWordChar c = false ∨ Text.isDecimalDigit c = true) :
    outcome .name text = .fail false := by
  have none : Pattern.word.take (skipped text) = [] := by
    cases front : skipped text with
    | nil => rfl
    | cons c more =>
      simp only [Pattern.take]
      rcases other c (by rw [front]; rfl) with solid | digit
      · simp [List.takeWhile,solid]
      · simp [digit]
  rw [outcome_body rfl]
  change ((outcome .nameText _).map _).close _ = _
  rw [outcome_pattern rfl rfl (fun _ => rfl),if_pos none]
  rfl

theorem number_ok (n : Numeral) (ends : WordEnd rest) :
    outcome .number (n.chars ++ rest) = .ok (.expr (.int n.value)) rest false := by
  have read : outcome .integerText (n.chars ++ rest) = .ok (.text (String.ofList n.chars)) rest false := by
    rw [outcome_pattern rfl rfl (fun _ => rfl),take_integer n.some n.digits ends,if_neg n.some,List.drop_left]
  rw [outcome_body rfl,n.skipped]
  change ((outcome .integerText _).map _).close _ = _
  rw [read]
  refine Taken.close_ok _ _ _ _ ?_
  simp only [Reading.close,Parts.single?,Option.none_or,n.readInteger?]

theorem number_fail (other : ∀ c ∈ (skipped text).head?, c.isDigit = false) : outcome .number text = .fail false := by
  have none : Pattern.integer.take (skipped text) = [] := by
    cases front : skipped text with
    | nil => rfl
    | cons c more =>
      have solid := other c (by rw [front]; rfl)
      simp only [Pattern.take]
      split
      next same => cases same; exact absurd solid (by decide)
      · simp [List.takeWhile,solid]
  rw [outcome_body rfl]
  change ((outcome .integerText _).map _).close _ = _
  rw [outcome_pattern rfl rfl (fun _ => rfl),if_pos none]
  rfl

theorem outcome_atom (text : List Char) : outcome .atom text = firstTaken [outcome .name text,outcome .number text] :=
  outcome_choice [.name,.number] rfl (by decide) rfl (fun _ => rfl) text

theorem negNumber_ok {text : List Char} (n : Numeral) (front : skipped text = n.chars ++ rest) (ends : WordEnd rest) :
    outcome .negNumber ('-' :: text) = .ok (.expr (.int (-n.value))) rest true := by
  have minus : (Peg.token "-").take outcome ('-' :: text) = .ok { last := some (.text "-") } text false :=
    take_token "-" (skipped_solid (by decide) (by decide) _) (runsOn_symbol (by decide) _)
  have number : outcome .number text = .ok (.expr (.int n.value)) rest false := by
    rw [← outcome_skipped rfl,front,number_ok n ends]
  rw [outcome_body rfl,skipped_solid (by decide) (by decide)]
  simp only [Rule.body,Peg.all,Peg.take_seq,Peg.take_cut,Peg.take_keep,Peg.take_call,minus,number,Taken.map_ok,
    Taken.andThen_ok,Taken.behindCut_ok,Bool.false_or,Bool.true_or]
  rfl

theorem negNumber_fail (stops : Stops ['-'] text) : outcome .negNumber text = .fail false := by
  have minus : (Peg.token "-").take outcome text = .fail false := stops.token '-' rfl (by simp)
  rw [outcome_body rfl]
  simp only [Rule.body,Peg.all,Peg.take_seq,take_token_skipped,minus,Taken.andThen_fail,Taken.close_fail]

/-- A rule between brackets. -/
def bracketed (r : Rule) : Peg :=
  .all [.token "(",.keep (.call r),.token ")"]

theorem open_bracket (text : List Char) :
    (Peg.token "(").take outcome ('(' :: text) = .ok { last := some (.text "(") } text false :=
  take_token "(" (skipped_solid (by decide) (by decide) _) (runsOn_symbol (by decide) _)

theorem bracketed_ok {r : Rule} (read : outcome r text = .ok value (')' :: rest) cut) :
    (bracketed r).take outcome ('(' :: text) = .ok ⟨some (.text ")"),some value,[]⟩ rest cut := by
  have closing : (Peg.token ")").take outcome (')' :: rest) = .ok { last := some (.text ")") } rest false :=
    take_token ")" (skipped_solid (by decide) (by decide) _) (runsOn_symbol (by decide) _)
  simp only [bracketed,Peg.all,Peg.take_seq,Peg.take_keep,Peg.take_call,open_bracket,read,closing,Taken.map_ok,
    Taken.andThen_ok,Taken.behindCut_ok,Bool.false_or,Bool.or_false]
  rfl

theorem bracketed_fail {r : Rule} (stops : Stops ['('] text) : (bracketed r).take outcome text = .fail false := by
  have opening : (Peg.token "(").take outcome text = .fail false := stops.token '(' rfl (by simp)
  simp only [bracketed,Peg.all,Peg.take_seq,opening,Taken.andThen_fail]

theorem bracketed_fail_inside {r : Rule}
    (other : outcome r text = .fail false ∨ ∃ v u, outcome r text = .ok v u false ∧ Stops [')'] u) :
    (bracketed r).take outcome ('(' :: text) = .fail false := by
  simp only [bracketed,Peg.all,Peg.take_seq,Peg.take_keep,Peg.take_call,open_bracket]
  rcases other with failed | ⟨v,u,read,stops⟩
  · simp only [failed,Taken.map_fail,Taken.andThen_ok,Taken.andThen_fail,Taken.behindCut_fail,Bool.false_or]
  · have closing : (Peg.token ")").take outcome u = .fail false := stops.token ')' rfl (by simp)
    simp only [read,closing,Taken.map_ok,Taken.map_fail,Taken.andThen_ok,Taken.behindCut_fail,Bool.false_or]

theorem outcome_factor (text : List Char) :
    outcome .factor text = firstTaken [outcome .atom text,outcome .negNumber text,
      ((bracketed .aexp).take outcome (skipped text)).close (Reading.close .factor)] := by
  rw [outcome_options rfl rfl,List.map_cons,List.map_cons,close_call (by decide) (fun _ => rfl) rfl,
    close_call (by decide) (fun _ => rfl) rfl]
  rfl

theorem factor_word {word : List Char} (isWord : IsWord word) (ends : WordEnd rest) :
    outcome .factor (word ++ rest) = .ok (.expr (.var (String.ofList word))) rest false := by
  rw [outcome_factor,outcome_atom,name_ok isWord ends]
  rfl

theorem atom_fail (other : ∀ c ∈ (skipped text).head?, Text.isWordChar c = false) :
    outcome .atom text = .fail false := by
  have noDigit : ∀ c ∈ (skipped text).head?, c.isDigit = false := by
    intro c first
    by_contra digit
    have word := Text.isWordChar_of_isDigit (by simpa using digit)
    rw [other c first] at word
    contradiction
  rw [outcome_atom,name_fail fun c first => .inl (other c first),number_fail noDigit]
  rfl

theorem factor_number (n : Numeral) (ends : WordEnd rest) :
    outcome .factor (n.chars ++ rest) = .ok (.expr (.int n.value)) rest false := by
  have noName : outcome .name (n.chars ++ rest) = .fail false :=
    name_fail fun c first => .inr (Text.isDecimalDigit_of_isDigit (n.head first))
  rw [outcome_factor,outcome_atom,noName,number_ok n ends]
  rfl

theorem factor_negative {text : List Char} (n : Numeral) (front : skipped text = n.chars ++ rest) (ends : WordEnd rest) :
    outcome .factor ('-' :: text) = .ok (.expr (.int (-n.value))) rest false := by
  have noAtom : outcome .atom ('-' :: text) = .fail false := by
    refine atom_fail fun c first => ?_
    rw [skipped_solid (by decide) (by decide)] at first
    cases first
    decide
  rw [outcome_factor,noAtom,negNumber_ok n front ends]
  rfl

theorem factor_int (n : Int) (ends : WordEnd rest) :
    outcome .factor ((toString n).toList ++ rest) = .ok (.expr (.int n)) rest false := by
  cases n with
  | ofNat n =>
    have written : (toString (Int.ofNat n)).toList = (Numeral.ofNat n).chars := by
      change (Nat.repr n).toList = _
      rw [Nat.repr_eq_ofList_toDigits,String.toList_ofList]
      rfl
    rw [written,factor_number _ ends,Numeral.value_ofNat]
    rfl
  | negSucc n =>
    have written : (toString (Int.negSucc n)).toList = '-' :: (Numeral.ofNat (n + 1)).chars := by
      change ("-" ++ Nat.repr (n + 1)).toList = _
      simp [Nat.repr_eq_ofList_toDigits,Numeral.ofNat]
    rw [written,List.cons_append,factor_negative _ (Numeral.skipped _ rest) ends,Numeral.value_ofNat]
    rfl

theorem factor_open (text : List Char) :
    outcome .factor ('(' :: text) = (((bracketed .aexp).take outcome ('(' :: text)).close (Reading.close .factor)).orElse
      (.fail false) := by
  have front : skipped ('(' :: text) = '(' :: text := skipped_solid (by decide) (by decide) _
  have noAtom : outcome .atom ('(' :: text) = .fail false := by
    refine atom_fail fun c first => ?_
    rw [front] at first
    cases first
    decide
  rw [outcome_factor,noAtom,negNumber_fail (.solid (by decide) (by decide) (by decide) _),front]
  rfl

theorem factor_bracketed (read : outcome .aexp text = .ok value (')' :: rest) cut) :
    outcome .factor ('(' :: text) = .ok value rest false := by
  rw [factor_open,bracketed_ok read]
  rfl

theorem factor_fail_inside
    (other : outcome .aexp text = .fail false ∨ ∃ v u, outcome .aexp text = .ok v u false ∧ Stops [')'] u) :
    outcome .factor ('(' :: text) = .fail false := by
  rw [factor_open,bracketed_fail_inside other]
  rfl

end Factors

section Conditions

variable {text mid after rest : List Char} {value : Reading} {lhs rhs : Expr} {cut : Bool}

theorem comparison : Operates .rexp .compare .aexp (.call .rop) .aexp :=
  ⟨rfl,rfl,rfl,fun _ => rfl⟩

theorem rop_ok {op : String} (known : op ∈ ["<=","<","=",">=",">"]) (rest : List Char) :
    outcome .rop (' ' :: (op.toList ++ ' ' :: rest)) = .ok (.text op) (' ' :: rest) false := by
  rw [outcome_blank rfl (by decide),outcome_options rfl rfl]
  simp only [List.mem_cons,List.not_mem_nil,or_false] at known
  rcases known with rfl | rfl | rfl | rfl | rfl <;> rfl

theorem rop_fail (stops : Stops ['<','=','>'] text) : outcome .rop text = .fail false := by
  refine outcome_tokens_fail ["<=","<","=",">=",">"] rfl rfl fun word known => ?_
  simp only [List.mem_cons,List.not_mem_nil,or_false] at known
  rcases known with rfl | rfl | rfl | rfl | rfl
  · exact stops.token '<' rfl (by decide)
  · exact stops.token '<' rfl (by decide)
  · exact stops.token '=' rfl (by decide)
  · exact stops.token '>' rfl (by decide)
  · exact stops.token '>' rfl (by decide)

theorem rexp_ok {op : String} (known : op ∈ ["<=","<","=",">=",">"])
    (first : outcome .aexp text = .ok (.expr lhs) (' ' :: (op.toList ++ ' ' :: after)) false)
    (second : outcome .aexp after = .ok (.expr rhs) rest cut) :
    outcome .rexp text = .ok (.expr (.app .compare op [lhs,rhs])) rest true := by
  have marked : (Peg.call .rop).take outcome (' ' :: (op.toList ++ ' ' :: after)) =
      .ok { last := some (.text op) } (' ' :: after) false := by
    rw [Peg.take_call,rop_ok known]
    rfl
  exact comparison.outcome_ok first marked (by rw [outcome_blank rfl (by decide),second])

theorem rexp_fail
    (other : outcome .aexp text = .fail false ∨ ∃ v u, outcome .aexp text = .ok v u false ∧ Stops ['<','=','>'] u) :
    outcome .rexp text = .fail false := by
  rcases other with failed | ⟨v,u,read,stops⟩
  · exact comparison.fail_left failed
  · refine comparison.fail_mark read ?_
    rw [Peg.take_call,rop_fail stops]
    rfl

/-- A truth value as it is written. -/
def truthText (b : Bool) : List Char :=
  if b then "true".toList else "false".toList

theorem boolConst_ok (b : Bool) (ends : WordEnd rest) :
    outcome .boolConst (truthText b ++ rest) = .ok (.expr (.truth (.bool b))) rest false := by
  have front : skipped (truthText b ++ rest) = truthText b ++ rest := by
    cases b <;> exact skipped_solid (by decide) (by decide) _
  rw [outcome_options rfl rfl,front]
  cases b with
  | true =>
    have read : (Peg.token "true").take outcome (truthText true ++ rest) =
        .ok { last := some (.text "true") } rest false := take_token "true" front (ends.runsOn _)
    simp only [List.map_cons,read]
    rfl
  | false =>
    have other : (Peg.token "true").take outcome (truthText false ++ rest) = .fail false :=
      fail_token_head (c := 't') rfl (by rw [front]; simp [truthText])
    have read : (Peg.token "false").take outcome (truthText false ++ rest) =
        .ok { last := some (.text "false") } rest false := take_token "false" front (ends.runsOn _)
    simp only [List.map_cons,other,read]
    rfl

theorem boolConst_fail (stops : Stops ['t','f'] text) : outcome .boolConst text = .fail false := by
  refine outcome_tokens_fail ["true","false"] rfl rfl fun word known => ?_
  simp only [List.mem_cons,List.not_mem_nil,or_false] at known
  rcases known with rfl | rfl
  · exact stops.token 't' rfl (by decide)
  · exact stops.token 'f' rfl (by decide)

theorem outcome_batom (text : List Char) :
    outcome .batom text = firstTaken [outcome .rexp text,outcome .boolConst text,
      ((bracketed .bexp).take outcome (skipped text)).close (Reading.close .batom)] := by
  rw [outcome_options rfl rfl,List.map_cons,List.map_cons,close_call (by decide) (fun _ => rfl) rfl,
    close_call (by decide) (fun _ => rfl) rfl]
  rfl

theorem batom_rexp (read : outcome .rexp text = .ok value rest cut) : outcome .batom text = .ok value rest false := by
  rw [outcome_batom,read]
  rfl

theorem batom_truth (b : Bool) (ends : WordEnd rest) (other : outcome .rexp (truthText b ++ rest) = .fail false) :
    outcome .batom (truthText b ++ rest) = .ok (.expr (.truth (.bool b))) rest false := by
  rw [outcome_batom,other,boolConst_ok b ends]
  rfl

theorem batom_bracketed (other : outcome .rexp ('(' :: text) = .fail false)
    (read : outcome .bexp text = .ok value (')' :: rest) cut) : outcome .batom ('(' :: text) = .ok value rest false := by
  rw [outcome_batom,other,boolConst_fail (.solid (by decide) (by decide) (by decide) _),
    skipped_solid (by decide) (by decide),bracketed_ok read]
  rfl

theorem batom_fail (other : outcome .rexp text = .fail false) (stops : Stops ['t','f','('] text) :
    outcome .batom text = .fail false := by
  have noBracket : (bracketed .bexp).take outcome (skipped text) = .fail false :=
    bracketed_fail (Stops.skipped.mpr (stops.mono (by simp)))
  rw [outcome_batom,other,boolConst_fail (stops.mono (by simp)),noBracket]
  rfl

theorem outcome_bfactor (text : List Char) :
    outcome .bfactor text = firstTaken [
      ((Peg.named "arg" (.call .batom)).take outcome (skipped text)).close (Reading.close .bfactor),
      ((Peg.all [.named "op" (.token "not"),.cut,.named "arg" (.call .batom)]).take outcome (skipped text)).close
        (Reading.close .bfactor)] := by
  rw [outcome_options rfl rfl]
  rfl

theorem bfactor_batom {e : Expr} (read : outcome .batom text = .ok (.expr e) rest cut) :
    outcome .bfactor text = .ok (.expr e) rest false := by
  rw [outcome_bfactor,Peg.take_named,Peg.take_call,outcome_skipped rfl,read]
  rfl

theorem bfactor_not {e : Expr} (other : outcome .batom ("not".toList ++ text) = .fail false)
    (ends : runsOn "not".toList text = false) (read : outcome .batom text = .ok (.expr e) rest cut) :
    outcome .bfactor ("not".toList ++ text) = .ok (.expr (.app .logic "not" [e])) rest false := by
  have front : skipped ("not".toList ++ text) = "not".toList ++ text := skipped_solid (by decide) (by decide) _
  have mark : (Peg.token "not").take outcome ("not".toList ++ text) = .ok { last := some (.text "not") } text false :=
    take_token "not" front ends
  rw [outcome_bfactor,front]
  simp only [Peg.all,Peg.take_seq,Peg.take_named,Peg.take_call,Peg.take_cut,other,mark,read,Taken.map_fail,Taken.map_ok,
    Taken.andThen_ok,Taken.behindCut_ok,Bool.false_or,Bool.true_or]
  rfl

end Conditions

section Lists

variable {separator item : List Char → Taken (Parts Reading)} {text mid after rest : List Char} {cut before : Bool}
  {mark value : Parts Reading}

theorem gatherTake_end (ends : separator text = .fail false) (fuel : Nat) :
    gatherTake separator item fuel text = .ok [] text false := by
  cases fuel with
  | zero => rfl
  | succ fuel => simp [gatherTake,ends]

theorem gatherTake_step (marked : separator text = .ok mark mid before) (valued : item mid = .ok value after cut)
    (fuel : Nat) : gatherTake separator item (fuel + 1) text =
      (gatherTake separator item fuel after).map ((mark,value) :: ·) := by
  simp [gatherTake,marked,valued]

/-- The rule reads a chain of operands with one connective between them. -/
structure Connective (lower upper : Rule) (op : String) : Prop where
  skips : upper.skips = true
  lowerSkips : lower.skips = true
  solid : (Peg.token op).solid = true
  body : upper.body = .gather (.named "op" (.token op)) (.named "args" (.call lower))
  closes : ∀ p, Reading.ofParts? upper p = Reading.chain p

namespace Connective

variable {lower upper : Rule} {op : String} (connective : Connective lower upper op) {lhs rhs : Expr}

include connective

theorem outcome_operand (read : outcome lower text = .ok (.expr lhs) rest false)
    (ends : (Peg.token op).take outcome rest = .fail false) : outcome upper text = .ok (.expr lhs) rest false := by
  have other : upper ≠ .number := by rintro rfl; cases connective.body
  have stops : (Peg.named "op" (.token op)).take outcome rest = .fail false := by rw [Peg.take_named,ends]; rfl
  rw [outcome_body connective.skips,connective.body,Peg.take_gather,Peg.take_named,Peg.take_call,
    outcome_skipped connective.lowerSkips,read]
  simp only [Taken.map_ok,Taken.andThen_ok,gatherTake_end stops,Taken.behindCut_ok,Bool.or_false]
  exact Taken.close_ok _ _ _ _ ((close_eq_ok other).mpr (by rw [connective.closes,chain_eq op lhs [] rfl]; rfl))

theorem outcome_both (first : outcome lower text = .ok (.expr lhs) mid false)
    (marked : (Peg.token op).take outcome mid = .ok { last := some (.text op) } after false)
    (second : outcome lower after = .ok (.expr rhs) rest cut)
    (ends : (Peg.token op).take outcome rest = .fail false) :
    outcome upper text = .ok (.expr (.app .logic op [lhs,rhs])) rest false := by
  have other : upper ≠ .number := by rintro rfl; cases connective.body
  have stops : (Peg.named "op" (.token op)).take outcome rest = .fail false := by rw [Peg.take_named,ends]; rfl
  have mark : (Peg.named "op" (.token op)).take outcome mid =
      .ok { last := some (.text op), fields := [("op",.text op)] } after false := by
    rw [Peg.take_named,marked]
    rfl
  have value : (Peg.named "args" (.call lower)).take outcome after =
      .ok { last := some (.expr rhs), fields := [("args",.expr rhs)] } rest cut := by
    rw [Peg.take_named,Peg.take_call,second]
    rfl
  have shorter := (Peg.take_forward outcome_forward _ marked).2 connective.solid
  obtain ⟨size,known⟩ := Nat.exists_eq_add_one_of_ne_zero (Nat.ne_zero_of_lt shorter)
  rw [outcome_body connective.skips,connective.body,Peg.take_gather,Peg.take_named,Peg.take_call,
    outcome_skipped connective.lowerSkips,first]
  simp only [Taken.map_ok,Taken.andThen_ok,known,gatherTake_step mark value,gatherTake_end stops,Taken.behindCut_ok,
    Bool.or_false]
  exact Taken.close_ok _ _ _ _ ((close_eq_ok other).mpr (by rw [connective.closes,chain_eq op lhs [rhs] rfl]; rfl))

end Connective

theorem conjunction : Connective .bfactor .bterm "and" := ⟨rfl,rfl,rfl,rfl,fun _ => rfl⟩

theorem disjunction : Connective .bterm .bexp "or" := ⟨rfl,rfl,rfl,rfl,fun _ => rfl⟩

end Lists

end WhileExec.Grammar
