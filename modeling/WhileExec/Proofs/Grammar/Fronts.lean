import Mathlib
import WhileExec.Proofs.Grammar.Junctions
import WhileExec.Proofs.Grammar.Statements

/-!
# What readings begin with

Facts about any text at which a rule succeeds: what it begins with, how it goes on behind its first operand, and that
options which are tried before the one that succeeds fail there. No rule begins with a mark that stands behind an
expression or a statement, `outcome_begins`. A condition in brackets is tried as a term first; that fails, or reads all
of it, `TermEnd`.
-/

namespace WhileExec.Grammar

section Inversion

variable {r : Rule} {text mid rest : List Char} {value : Reading} {cut : Bool}

theorem Taken.of_map_fail {α β : Type} {x : Taken α} {f : α → β} (failed : x.map f = .fail cut) : x = .fail cut := by
  cases x with
  | ok | stop => cases failed
  | fail => cases failed; rfl

theorem outcome_reads (skips : r.skips = true) (read : outcome r text = .ok value rest cut) :
    ∃ p, r.body.Reads (fun _ _ _ _ => True) (skipped text) p rest ∧ Reading.close r p = .ok value := by
  rw [outcome_body skips] at read
  cases body : r.body.take outcome (skipped text) with
  | ok p next passed =>
    rw [body] at read
    simp only [Taken.close] at read
    split at read
    next closed =>
      cases read
      exact ⟨p,Peg.reads_any body,closed⟩
    · cases read
  | fail | stop => rw [body] at read; cases read

theorem firstTaken_cut {xs : List (Taken Reading)} (read : firstTaken xs = .ok value rest cut) : cut = false := by
  induction xs with
  | nil => cases read
  | cons x xs ih =>
    rcases Taken.orElse_eq_ok.mp read with ⟨done,-⟩ | ⟨-,later⟩
    · exact done
    · exact ih later

theorem options_cut {message : String} {options : List Peg} (skips : r.skips = true)
    (body : r.body = .firstOf message options) (read : outcome r text = .ok value rest cut) : cut = false := by
  rw [outcome_options skips body] at read
  exact firstTaken_cut read

/-- The rule reads expressions and leaves no cut. -/
def Yields (r : Rule) : Prop :=
  ∀ text value rest cut, outcome r text = .ok value rest cut → cut = false ∧ ∃ e, value = .expr e

theorem factor_yields : Yields .factor := by
  intro text value rest cut read
  obtain ⟨e,same,-⟩ := outcome_shape read
  exact ⟨options_cut rfl rfl read,e,same⟩

theorem term_yields : Yields .term := by
  intro text value rest cut read
  obtain ⟨e,same,-⟩ := outcome_shape read
  exact ⟨options_cut rfl rfl read,e,same⟩

theorem aexp_yields : Yields .aexp := by
  intro text value rest cut read
  obtain ⟨e,same,-⟩ := outcome_shape read
  exact ⟨options_cut rfl rfl read,e,same⟩

end Inversion

section Beginnings

variable {text rest : List Char}

theorem stops_of_token {word : String} (found : tokenRest? word.toList (skipped text) = some rest) {c : Char}
    (first : word.toList.head? = some c) {chars : List Char} (apart : c ∉ chars) : Stops chars text := by
  intro d head
  rw [(tokenRest?_eq_some.mp found).1,List.head?_append,first] at head
  cases head
  exact apart

theorem fail_of_token {word other : String} (found : tokenRest? word.toList (skipped text) = some rest) {c d : Char}
    (first : word.toList.head? = some c) (second : other.toList.head? = some d) (apart : c ≠ d) :
    (Peg.token other).take outcome text = .fail false := by
  have stops : Stops [d] text := stops_of_token found first (by simpa using apart)
  exact stops.token d second (by simp)

theorem take_found {word : String} (found : tokenRest? word.toList (skipped text) = some rest) :
    (Peg.token word).take outcome text = .ok { last := some (.text word) } rest false := by
  obtain ⟨front,ends⟩ := tokenRest?_eq_some.mp found
  exact take_token word front ends

/-- The marks behind expressions and statements. -/
def marks : List Char :=
  [':',')','<','=','>','+','*','/',';',',','\x7d']

/-- The tokens, patterns and rules that reading begins with. -/
def Peg.front : Peg → List Peg
  | .token word => [.token word]
  | .pattern p => [.pattern p]
  | .call r => [.call r]
  | .named _ e | .keep e => e.front
  | .seq a _ => a.front
  | .orElse a b => a.front ++ b.front
  | .gather _ item => item.front
  | .cut | .fail _ | .optional _ => []

/-- Reading begins with a part that reads something. -/
def Peg.leads : Peg → Bool
  | .token _ | .pattern _ | .call _ | .fail _ => true
  | .named _ e | .keep e => e.leads
  | .seq a _ => a.leads
  | .orElse a b => a.leads && b.leads
  | .gather _ item => item.leads
  | .cut | .optional _ => false

theorem Peg.Reads.front {Q : Rule → List Char → Reading → List Char → Prop} {e : Peg} {p : Parts Reading}
    (reads : e.Reads Q text p rest) (leads : e.leads = true) : ∃ a ∈ e.front, ∃ q u, a.Reads Q text q u := by
  induction e generalizing p rest with
  | token word => exact ⟨_,by simp [Peg.front],p,rest,reads⟩
  | pattern q => exact ⟨_,by simp [Peg.front],p,rest,reads⟩
  | call r => exact ⟨_,by simp [Peg.front],p,rest,reads⟩
  | cut | optional => cases leads
  | fail => exact reads.elim
  | named field e ih =>
    obtain ⟨q,inner,-⟩ := reads
    exact ih inner leads
  | keep e ih =>
    obtain ⟨q,inner,-⟩ := reads
    exact ih inner leads
  | seq a b first _ =>
    obtain ⟨x,mid,y,now,-⟩ := reads
    exact first now leads
  | orElse a b first second =>
    rw [Peg.leads,Bool.and_eq_true] at leads
    rcases reads with now | ⟨-,later⟩
    · obtain ⟨c,member,found⟩ := first now leads.1
      exact ⟨c,by simp [Peg.front,member],found⟩
    · obtain ⟨c,member,found⟩ := second later leads.2
      exact ⟨c,by simp [Peg.front,member],found⟩
  | gather separator item _ items =>
    obtain ⟨x,mid,entries,now,-⟩ := reads
    exact items now leads

/-- The rule reads an expression, a statement or a list of them, or a part of one that can stand in front. -/
def Rule.opens : Rule → Bool
  | .rop | .integerText | .nameText | .newlineText => false
  | _ => true

/-- The token or the rule does not begin with a mark. -/
def Peg.opens : Peg → Bool
  | .token word => word.toList.head?.any fun c => !marks.contains c
  | .call r => r.opens || r == .integerText || r == .nameText
  | _ => false

theorem Rule.body_opens {r : Rule} (opens : r.opens = true) :
    r.body.leads = true ∧ r.body.front.all Peg.opens = true := by
  cases r <;> first | contradiction | exact ⟨rfl,by decide +kernel⟩

theorem isWordChar_of_take {p : Pattern} (known : p = .integer ∨ p = .word) (taken : p.take text ≠ []) {c : Char}
    (first : text.head? = some c) : Text.isWordChar c = true := by
  obtain ⟨more,rfl⟩ : ∃ more, text = c :: more := by
    cases text with
    | nil => cases first
    | cons d more => cases first; exact ⟨more,rfl⟩
  have run {q : Char → Bool} (narrow : q c = true → Text.isWordChar c = true) (ran : (c :: more).takeWhile q ≠ []) :
      Text.isWordChar c = true := by
    by_contra other
    have none : q c = false := by
      by_contra known
      exact other (narrow (by simpa using known))
    exact ran (by simp [List.takeWhile,none])
  rcases known with rfl | rfl
  · simp only [Pattern.take] at taken
    split at taken
    next same => cases same; decide
    · exact run Text.isWordChar_of_isDigit taken
  · simp only [Pattern.take] at taken
    split at taken
    · contradiction
    · exact run id taken

/-- What a reading begins with, for the rules that open an expression or a statement and for words and numbers. -/
def Begins : Rule → List Char → Prop
  | .integerText, text | .nameText, text => ∀ c ∈ text.head?, Text.isWordChar c = true
  | r, text => r.opens = true → Stops marks text

theorem stops_of_word {chars : List Char} (apart : chars.any Text.isWordChar = false)
    (word : ∀ c ∈ (skipped text).head?, Text.isWordChar c = true) : Stops chars text := by
  intro c first member
  have other := List.any_eq_false.mp apart c member
  exact other (word c first)

theorem begins_of_opens {r : Rule} (begins : r.opens = true → Stops marks text) (other : r.skips = true) :
    Begins r text := by
  cases r <;> first | exact begins | cases other

theorem Begins.stops {r : Rule} (begins : Begins r (skipped text)) (opens : (Peg.call r).opens = true) :
    Stops marks text := by
  cases r <;> first
    | exact Stops.skipped.mp (begins rfl)
    | exact stops_of_word (by decide) begins
    | cases opens

theorem outcome_begins {r : Rule} (opens : r.opens = true) {value : Reading} {cut : Bool}
    (read : outcome r text = .ok value rest cut) : Stops marks text := by
  have begins : Begins r text := by
    refine outcome_induction (Q := fun r text _ _ => Begins r text) ?_ read
    intro r text value rest p reads _
    by_cases skips : r.skips = true
    · refine begins_of_opens (fun opens => ?_) skips
      rw [if_pos skips] at reads
      obtain ⟨leads,all⟩ := Rule.body_opens opens
      obtain ⟨a,member,q,u,now⟩ := reads.front leads
      have known := List.all_eq_true.mp all a member
      cases a with
      | token word =>
        obtain ⟨found,-⟩ := now
        rw [skipped_skipped] at found
        obtain ⟨c,first,apart⟩ := (Option.any_eq_true _ _).mp known
        exact stops_of_token found first (by simpa using apart)
      | call s =>
        obtain ⟨_,_,_,begins,-⟩ := now
        exact begins.stops known
      | pattern | cut | named | keep | seq | orElse | fail | optional | gather => cases known
    · rw [if_neg skips] at reads
      cases r <;> first | (exact absurd rfl skips) | skip
      · obtain ⟨taken,-⟩ := reads
        exact fun c first => isWordChar_of_take (.inl rfl) taken first
      · obtain ⟨taken,-⟩ := reads
        exact fun c first => isWordChar_of_take (.inr rfl) taken first
      · intro opens
        cases opens
  cases r <;> first | exact begins rfl | cases opens

end Beginnings

section Operands

variable {r left right lower first second upper : Rule} {form : Form} {mark : Peg} {a b : String}
  {text t mid after rest : List Char} {value : Reading} {cut : Bool}

theorem Operates.reads (operates : Operates r form left mark right) (read : outcome r text = .ok value rest cut) :
    ∃ v mid c p after w d, outcome left text = .ok v mid c ∧ mark.Reads (fun _ _ _ _ => True) mid p after ∧
      outcome right after = .ok w rest d := by
  obtain ⟨p,reads,-⟩ := outcome_reads operates.skips read
  rw [operates.body] at reads
  obtain ⟨_,mid,_,one,⟨_,_,_,⟨q,marked,-⟩,⟨_,_,_,⟨-,rfl⟩,two,-⟩,-⟩,-⟩ := reads
  obtain ⟨v,c,lhs,-,-⟩ := reads_named_call.mp one
  obtain ⟨w,d,rhs,-,-⟩ := reads_named_call.mp two
  rw [outcome_skipped operates.leftSkips] at lhs
  exact ⟨v,mid,c,q,_,w,d,lhs,marked,rhs⟩

/-- Behind its operator an operation does not fail for another option to be tried. -/
theorem Operates.mark_of_fail (operates : Operates r form left (.token a) right)
    (failed : outcome r text = .fail false) (read : outcome left text = .ok value mid false) :
    (Peg.token a).take outcome mid = .fail false := by
  cases found : tokenRest? a.toList (skipped mid) with
  | none =>
    unfold Peg.take
    rw [found]
  | some after =>
    rw [outcome_body operates.skips,operates.body] at failed
    simp only [Peg.all,Peg.take_seq,Peg.take_named,Peg.take_call,Peg.take_cut,outcome_skipped operates.leftSkips,read,
      take_found found,Taken.map_ok,Taken.andThen_ok] at failed
    cases second : outcome right after with
    | ok w rest e =>
      rw [second] at failed
      simp only [Taken.map_ok,Taken.behindCut_ok,Taken.close] at failed
      split at failed <;> cases failed
    | fail c => rw [second] at failed; cases failed
    | stop => rw [second] at failed; cases failed

/-- The two operators of a level begin differently, and its operands are expressions. -/
structure Level.Apart (lower upper : Rule) (a b : String) : Prop where
  heads : ∃ c d, a.toList.head? = some c ∧ b.toList.head? = some d ∧ c ≠ d
  lowerYields : Yields lower
  upperYields : Yields upper

theorem termApart : Level.Apart .factor .term "*" "/" :=
  ⟨⟨_,_,rfl,rfl,by decide⟩,factor_yields,term_yields⟩

theorem sumApart : Level.Apart .term .aexp "+" "-" :=
  ⟨⟨_,_,rfl,rfl,by decide⟩,term_yields,aexp_yields⟩

namespace Level

variable (level : Level lower first second upper a b) (apart : Apart lower upper a b)

include level apart

theorem first_fails (read : outcome second text = .ok value rest cut) : outcome first text = .fail false := by
  obtain ⟨v,mid,c,p,after,w,d,operand,⟨found,-⟩,-⟩ := level.two.reads read
  obtain ⟨c,d,one,two,other⟩ := apart.heads
  rw [(apart.lowerYields _ _ _ _ operand).1] at operand
  exact level.one.fail_mark operand (fail_of_token found two one (Ne.symm other))

/-- What is read on a level: an operand with nothing behind it, or one with an operator and more. -/
theorem outcome_cases (read : outcome upper text = .ok value rest cut) :
    ∃ lhs mid, outcome lower text = .ok (.expr lhs) mid false ∧
      ((rest = mid ∧ (Peg.token a).take outcome mid = .fail false ∧ (Peg.token b).take outcome mid = .fail false) ∨
        ∃ op ∈ [a,b], ∃ after rhs, tokenRest? op.toList (skipped mid) = some after ∧
          outcome upper after = .ok (.expr rhs) rest false) := by
  have operation {r : Rule} {op : String} (operates : Operates r .arith lower (.token op) upper) (known : op ∈ [a,b])
      {c : Bool} (read : outcome r text = .ok value rest c) :
      ∃ lhs mid, outcome lower text = .ok (.expr lhs) mid false ∧
        ((rest = mid ∧ (Peg.token a).take outcome mid = .fail false ∧ (Peg.token b).take outcome mid = .fail false) ∨
          ∃ op ∈ [a,b], ∃ after rhs, tokenRest? op.toList (skipped mid) = some after ∧
            outcome upper after = .ok (.expr rhs) rest false) := by
    obtain ⟨v,mid,c,p,after,w,d,operand,⟨found,-⟩,more⟩ := operates.reads read
    obtain ⟨rfl,lhs,rfl⟩ := apart.lowerYields _ _ _ _ operand
    obtain ⟨rfl,rhs,rfl⟩ := apart.upperYields _ _ _ _ more
    exact ⟨lhs,mid,operand,.inr ⟨op,known,after,rhs,found,more⟩⟩
  rw [level.choice] at read
  rcases Taken.orElse_eq_ok.mp read with ⟨-,_,now⟩ | ⟨noFirst,later⟩
  · exact operation level.one (by simp) now
  · rcases Taken.orElse_eq_ok.mp later with ⟨-,_,now⟩ | ⟨noSecond,last⟩
    · exact operation level.two (by simp) now
    · rcases Taken.orElse_eq_ok.mp last with ⟨-,_,now⟩ | ⟨-,none⟩
      · obtain ⟨rfl,lhs,rfl⟩ := apart.lowerYields _ _ _ _ now
        exact ⟨lhs,rest,now,.inl ⟨rfl,level.one.mark_of_fail noFirst now,level.two.mark_of_fail noSecond now⟩⟩
      · cases none

/-- Reading goes on in the same way behind any operand. -/
theorem outcome_behind {lhs other : Expr} (read : outcome upper text = .ok value rest cut)
    (one : outcome lower text = .ok (.expr lhs) mid false) (two : outcome lower t = .ok (.expr other) mid false) :
    ∃ e, outcome upper t = .ok (.expr e) rest false := by
  obtain ⟨_,_,operand,more⟩ := level.outcome_cases apart read
  cases operand.symm.trans one
  obtain ⟨c,d,ahead,behind,different⟩ := apart.heads
  rcases more with ⟨rfl,noFirst,noSecond⟩ | ⟨op,known,after,rhs,found,more⟩
  · exact ⟨other,level.outcome_operand two noFirst noSecond⟩
  · simp only [List.mem_cons,List.not_mem_nil,or_false] at known
    rcases known with rfl | rfl
    · exact ⟨_,level.outcome_first two (take_found found) more⟩
    · exact ⟨_,level.outcome_second two (fail_of_token found behind ahead (Ne.symm different)) (take_found found) more⟩

end Level

/-- As `Level.outcome_behind`, over both levels. -/
theorem aexp_behind {lhs other : Expr} (read : outcome .aexp text = .ok value rest cut)
    (one : outcome .factor text = .ok (.expr lhs) mid false) (two : outcome .factor t = .ok (.expr other) mid false) :
    ∃ e, outcome .aexp t = .ok (.expr e) rest false := by
  obtain ⟨_,_,operand,-⟩ := sumLevel.outcome_cases sumApart read
  obtain ⟨_,again⟩ := termLevel.outcome_behind termApart operand one two
  exact sumLevel.outcome_behind sumApart read operand again

/-- Behind the first factor of a term nothing stands, or an operator. -/
theorem stops_behind_factor {lhs : Expr} (read : outcome .aexp text = .ok value rest cut)
    (factor : outcome .factor text = .ok (.expr lhs) mid false) {chars : List Char}
    (operators : ∀ c ∈ ['+','-','*','/'], c ∉ chars) (stops : Stops chars rest) : Stops chars mid := by
  have marked {op : String} {u v : List Char} (known : op ∈ ["+","-","*","/"])
      (found : tokenRest? op.toList (skipped u) = some v) : Stops chars u := by
    simp only [List.mem_cons,List.not_mem_nil,or_false] at known
    rcases known with rfl | rfl | rfl | rfl <;> exact stops_of_token found rfl (operators _ (by decide))
  obtain ⟨_,u,operand,last⟩ := sumLevel.outcome_cases sumApart read
  obtain ⟨_,_,again,more⟩ := termLevel.outcome_cases termApart operand
  cases again.symm.trans factor
  have behind : Stops chars u := by
    rcases last with ⟨rfl,-⟩ | ⟨op,known,after,rhs,found,-⟩
    · exact stops
    · exact marked (List.mem_append_left ["*","/"] known) found
  rcases more with ⟨rfl,-⟩ | ⟨op,known,after,rhs,found,-⟩
  · exact behind
  · exact marked (List.mem_append_right ["+","-"] known) found

end Operands

section Conditions

variable {text t mid after rest : List Char} {value : Reading} {cut : Bool}

/-- Where neither a constant nor a bracket stands, a condition is a comparison. -/
theorem rexp_of_batom (read : outcome .batom text = .ok value rest cut) (stops : Stops ['t','f','('] text) :
    ∃ c, outcome .rexp text = .ok value rest c := by
  rw [outcome_batom] at read
  rcases Taken.orElse_eq_ok.mp read with ⟨-,now⟩ | ⟨-,later⟩
  · exact now
  · rw [boolConst_fail (stops.mono (by simp)),bracketed_fail (Stops.skipped.mpr (stops.mono (by simp)))] at later
    cases later

theorem rexp_reads (read : outcome .rexp text = .ok value rest cut) :
    ∃ lhs mid op after rhs, outcome .aexp text = .ok (.expr lhs) mid false ∧
      outcome .rop mid = .ok (.text op) after false ∧ outcome .aexp after = .ok (.expr rhs) rest false := by
  obtain ⟨v,mid,c,p,after,w,d,lhs,⟨sign,e,marked,-,-⟩,rhs⟩ := comparison.reads read
  obtain ⟨rfl,_,rfl⟩ := aexp_yields _ _ _ _ lhs
  obtain ⟨rfl,_,rfl⟩ := aexp_yields _ _ _ _ rhs
  obtain ⟨op,-,rfl⟩ := outcome_shape marked
  cases options_cut rfl rfl marked
  exact ⟨_,mid,op,after,_,lhs,marked,rhs⟩

theorem stops_of_rop (read : outcome .rop text = .ok value rest cut) {chars : List Char}
    (apart : ∀ c ∈ ['<','=','>'], c ∉ chars) : Stops chars text := by
  obtain ⟨p,reads,-⟩ := outcome_reads rfl read
  obtain ⟨e,member,reads⟩ := firstOf_reads reads
  simp only [List.mem_cons,List.not_mem_nil,or_false] at member
  have token {word : String} {c : Char} (first : word.toList.head? = some c) (known : c ∈ ['<','=','>'])
      (reads : (Peg.token word).Reads (fun _ _ _ _ => True) (skipped text) p rest) : Stops chars text := by
    obtain ⟨found,-⟩ := reads
    rw [skipped_skipped] at found
    exact stops_of_token found first (apart c known)
  rcases member with rfl | rfl | rfl | rfl | rfl
  · exact token rfl (by decide) reads
  · exact token rfl (by decide) reads
  · exact token rfl (by decide) reads
  · exact token rfl (by decide) reads
  · exact token rfl (by decide) reads

/-- A comparison does not depend on the text of its left side, only on where that ends. -/
theorem batom_behind {lhs other : Expr} (read : outcome .rexp text = .ok value rest cut)
    (one : outcome .aexp text = .ok (.expr lhs) mid false) (two : outcome .aexp t = .ok (.expr other) mid false) :
    outcome .batom t ≠ .fail false := by
  obtain ⟨_,_,op,after,rhs,first,sign,second⟩ := rexp_reads read
  cases first.symm.trans one
  have marked : (Peg.call .rop).take outcome mid = .ok { last := some (.text op) } after false := by
    rw [Peg.take_call,sign]
    rfl
  rw [batom_rexp (comparison.outcome_ok two marked second)]
  rintro ⟨⟩

theorem IsWord.glued {word : List Char} (isWord : IsWord word) (more : text.head? = some '_') :
    ∃ name rest, text = name ++ rest ∧ IsWord name ∧ IsWord (word ++ name) ∧ WordEnd rest := by
  have begun : Pattern.word.take text ≠ [] := by
    cases text with
    | nil => cases more
    | cons c text =>
      cases more
      simp [Pattern.take,List.takeWhile,show Text.isDecimalDigit '_' = false by decide,
        show Text.isWordChar '_' = true by decide]
  obtain ⟨name,ends,whole⟩ := isWord_of_take begun
  refine ⟨_,_,whole,name,?_,ends⟩
  obtain ⟨c,tail,rfl,digit,letters⟩ := isWord
  obtain ⟨-,-,-,-,others⟩ := name
  refine ⟨c,tail ++ Pattern.word.take text,rfl,digit,fun d member => ?_⟩
  rcases List.mem_append.mp member with inside | inside
  · exact letters d inside
  · exact others d inside

/-- Behind a token of letters and digits that does not run on, the only part of a word is an underscore. -/
theorem wordEnd_or_glued {word : List Char} (letters : word.all Text.isAlphanumeric = true)
    (ends : runsOn word text = false) : WordEnd text ∨ text.head? = some '_' := by
  cases text with
  | nil => exact .inl .nil
  | cons c text =>
    simp only [runsOn,letters,Bool.true_and,List.head?_cons,Option.map_some,Option.getD_some] at ends
    by_cases line : c = '_'
    · exact .inr (by rw [line]; rfl)
    · exact .inl (.cons (by simp [Text.isWordChar,line,ends]) _)

theorem stops_underscore (first : text.head? = some '_') {chars : List Char} (apart : '_' ∉ chars) :
    Stops chars text := by
  cases text with
  | nil => cases first
  | cons c text =>
    cases first
    exact .solid (by decide) (by decide) apart _

/-- A negative number and what stands behind its sign end at the same place. -/
theorem negative_ends {e : Expr} (front : skipped text = '-' :: t)
    (read : outcome .factor text = .ok (.expr e) mid false) : ∃ n, outcome .factor t = .ok (.expr n) mid false := by
  have minus : ∀ c ∈ (skipped text).head?, c = '-' := by
    intro c first
    rw [front] at first
    cases first
    rfl
  have noAtom : outcome .atom text = .fail false := atom_fail fun c first => by rw [minus c first]; decide
  have noBracket : Stops ['('] (skipped text) := Stops.skipped.mpr fun c first => by rw [minus c first]; decide
  rw [outcome_factor,noAtom,bracketed_fail noBracket] at read
  rcases Taken.orElse_eq_ok.mp read with ⟨-,_,none⟩ | ⟨-,later⟩
  · cases none
  rcases Taken.orElse_eq_ok.mp later with ⟨-,_,now⟩ | ⟨-,none⟩
  · obtain ⟨p,reads,-⟩ := outcome_reads rfl now
    obtain ⟨_,after,_,⟨found,-⟩,⟨_,_,_,⟨-,same⟩,⟨_,⟨v,c,number,-,-⟩,-⟩,-⟩,-⟩ := reads
    rw [skipped_skipped,front] at found
    have behind : t = after := (List.cons.inj (tokenRest?_eq_some.mp found).1).2
    rw [same,← behind] at number
    have digit : ∀ c ∈ (skipped t).head?, c.isDigit = true := by
      intro c first
      by_contra other
      rw [Bool.not_eq_true] at other
      rw [number_fail fun d known => Option.mem_unique known first ▸ other] at number
      cases number
    have noName : outcome .name t = .fail false :=
      name_fail fun c first => .inr (Text.isDecimalDigit_of_isDigit (digit c first))
    obtain ⟨n,rfl⟩ := outcome_shape number
    refine ⟨.int n,?_⟩
    rw [outcome_factor,outcome_atom,noName,number]
    rfl
  · cases none

/-- The operand of a `not` does not continue a term that begins with that word: if it did, the whole would have been
read as a comparison. -/
theorem not_operand (failed : outcome .batom ("not".toList ++ text) = .fail false)
    (ends : runsOn "not".toList text = false) (read : outcome .batom text = .ok value rest cut) :
    WordEnd text ∧ Stops ['-'] text := by
  have word : WordEnd text := by
    rcases wordEnd_or_glued (by decide) ends with word | line
    · exact word
    · obtain ⟨c,compared⟩ := rexp_of_batom read (stops_underscore line (by decide))
      obtain ⟨lhs,mid,-,-,-,term,-,-⟩ := rexp_reads compared
      obtain ⟨name,after,rfl,single,double,stop⟩ := isWord_not.glued line
      have whole := factor_word double stop
      rw [List.append_assoc] at whole
      obtain ⟨e,again⟩ := aexp_behind term (factor_word single stop) whole
      exact absurd failed (batom_behind compared term again)
  refine ⟨word,?_⟩
  intro c first member
  cases List.mem_singleton.mp member
  obtain ⟨after,front⟩ : ∃ after, skipped text = '-' :: after := by
    cases behind : skipped text with
    | nil => rw [behind] at first; cases first
    | cons d after => rw [behind] at first; cases first; exact ⟨after,rfl⟩
  have minus {chars : List Char} (apart : '-' ∉ chars) : Stops chars text := by
    intro d known
    cases known.symm.trans first
    exact apart
  obtain ⟨d,compared⟩ := rexp_of_batom read (minus (by decide))
  obtain ⟨lhs,mid,-,-,-,term,-,-⟩ := rexp_reads compared
  obtain ⟨_,_,product,-⟩ := sumLevel.outcome_cases sumApart term
  obtain ⟨_,_,factor,-⟩ := termLevel.outcome_cases termApart product
  obtain ⟨n,positive⟩ := negative_ends front factor
  obtain ⟨e,again⟩ := aexp_behind term factor positive
  have left : outcome .term ("not".toList ++ text) = .ok (.expr (.var "not")) text false :=
    term_of_factor (factor_word isWord_not word) (minus (by decide))
  have sign : (Peg.token "-").take outcome text = .ok { last := some (.text "-") } after false :=
    take_token "-" front (runsOn_symbol (by decide) _)
  have whole := sumLevel.outcome_second left ((minus (by decide : '-' ∉ ['+'])).token '+' rfl (by decide)) sign again
  exact absurd failed (batom_behind compared term whole)

/-- A term is tried at a condition that is followed by `rest`: it fails, or it is followed by something other than a
closing bracket, or it is the whole condition. -/
def TermEnd (text rest : List Char) : Prop :=
  outcome .aexp text = .fail false ∨
    ∃ v u, outcome .aexp text = .ok v u false ∧ (Stops [')'] u ∨ u = rest)

theorem TermEnd.before (ended : TermEnd text mid) (stops : Stops [')'] mid) : TermEnd text rest := by
  rcases ended with failed | ⟨v,u,read,other | rfl⟩
  · exact .inl failed
  · exact .inr ⟨v,u,read,.inl other⟩
  · exact .inr ⟨v,u,read,.inl stops⟩

theorem bracketed_read {r : Rule} (read : outcome r text = .ok value mid cut)
    (closing : tokenRest? ")".toList (skipped mid) = some rest) :
    (bracketed r).take outcome ('(' :: text) = .ok ⟨some (.text ")"),some value,[]⟩ rest cut := by
  simp only [bracketed,Peg.all,Peg.take_seq,Peg.take_keep,Peg.take_call,open_bracket,read,take_found closing,
    Taken.map_ok,Taken.andThen_ok,Taken.behindCut_ok,Bool.false_or,Bool.or_false]
  rfl

/-- What a term comes to at a condition in brackets. -/
theorem TermEnd.bracketed (ended : TermEnd text mid) (closing : tokenRest? ")".toList (skipped mid) = some rest) :
    outcome .factor ('(' :: text) = .fail false ∨ ∃ v, outcome .factor ('(' :: text) = .ok v rest false := by
  rcases ended with failed | ⟨v,u,read,other | rfl⟩
  · exact .inl (factor_fail_inside (.inl failed))
  · exact .inl (factor_fail_inside (.inr ⟨v,u,read,other⟩))
  · refine .inr ⟨v,?_⟩
    rw [factor_open,bracketed_read read closing]
    rfl

/-- The characters that a term could go on with. -/
def termMarks : List Char :=
  ['_','+','-','*','/']

theorem wordEnd_of_stops {word : List Char} (letters : word.all Text.isAlphanumeric = true)
    (ends : runsOn word text = false) (stops : Stops ['_'] text) : WordEnd text := by
  rcases wordEnd_or_glued letters ends with word | line
  · exact word
  · exact absurd line (stops.head (by decide) (by decide) (by decide))

theorem Stops.both {chars others : List Char} (one : Stops chars text) (two : Stops others text) :
    Stops (chars ++ others) text := by
  intro c first member
  rcases List.mem_append.mp member with inside | inside
  · exact one c first inside
  · exact two c first inside

theorem isWord_constant {word : String} (known : word = "true" ∨ word = "false") : IsWord word.toList := by
  rcases known with rfl | rfl
  · exact isWord_truthText true
  · exact isWord_truthText false

theorem boolConst_reads (read : outcome .boolConst text = .ok value rest cut) :
    ∃ word : String, (word = "true" ∨ word = "false") ∧ tokenRest? word.toList (skipped text) = some rest := by
  obtain ⟨p,reads,-⟩ := outcome_reads rfl read
  obtain ⟨e,member,reads⟩ := firstOf_reads reads
  simp only [List.mem_cons,List.not_mem_nil,or_false] at member
  rcases member with rfl | rfl
  · obtain ⟨found,-⟩ := reads
    rw [skipped_skipped] at found
    exact ⟨_,.inl rfl,found⟩
  · obtain ⟨found,-⟩ := reads
    rw [skipped_skipped] at found
    exact ⟨_,.inr rfl,found⟩

/-- A constant is a term too, as far as words go. -/
theorem aexp_constant {word : String} (known : word = "true" ∨ word = "false")
    (found : tokenRest? word.toList (skipped text) = some rest) (stops : Stops termMarks rest) :
    ∃ v, outcome .aexp text = .ok v rest false := by
  obtain ⟨front,ends⟩ := tokenRest?_eq_some.mp found
  have letters : word.toList.all Text.isAlphanumeric = true := by rcases known with rfl | rfl <;> decide
  have read := factor_word (isWord_constant known) (wordEnd_of_stops letters ends (stops.mono (by decide)))
  rw [← front,outcome_skipped rfl] at read
  exact ⟨_,aexp_of_factor read (stops.mono (by decide))⟩

/-- The word `not` is a term before the operand of a negation. -/
theorem aexp_not (failed : outcome .batom text = .fail false)
    (found : tokenRest? "not".toList (skipped text) = some rest) {after : List Char}
    (read : outcome .batom rest = .ok value after cut) :
    outcome .aexp text = .ok (.expr (.var "not")) rest false ∧ WordEnd rest ∧ Stops ('-' :: marks) rest := by
  obtain ⟨front,ends⟩ := tokenRest?_eq_some.mp found
  rw [← outcome_skipped rfl,front] at failed
  obtain ⟨word,minus⟩ := not_operand failed ends read
  have stops : Stops ('-' :: marks) rest := minus.both (outcome_begins rfl read)
  refine ⟨?_,word,stops⟩
  rw [← outcome_skipped rfl,front]
  exact aexp_of_factor (factor_word isWord_not word) (stops.mono (by decide))

/-- As `TermEnd`, for the rules that read conditions. -/
def EndsTerm : Rule → List Char → List Char → Prop
  | .batom, text, rest | .bfactor, text, rest | .bterm, text, rest | .bexp, text, rest =>
      Stops termMarks rest → TermEnd text rest
  | _, _, _ => True

theorem TermEnd.skipped (ended : TermEnd (skipped text) rest) : TermEnd text rest := by
  unfold TermEnd at ended ⊢
  rwa [outcome_skipped rfl] at ended

theorem termEnd_chain {op : String} {r : Rule} {p : Parts Reading} {c : Char} (first : op.toList.head? = some c)
    (apart : c ∉ ')' :: termMarks) (known : ∀ t u, EndsTerm r t u → Stops termMarks u → TermEnd t u)
    (reads : (Peg.gather (.named "op" (.token op)) (.named "args" (.call r))).Reads
      (fun r t _ u => EndsTerm r t u) text p rest) (stops : Stops termMarks rest) : TermEnd text rest := by
  obtain ⟨_,mid,entries,operand,more,-⟩ := reads
  obtain ⟨_,_,_,ended,-⟩ := reads_named_call.mp operand
  cases entries with
  | nil =>
    cases more
    exact known _ _ ended stops
  | cons entry entries =>
    obtain ⟨_,_,mark,-,-⟩ := more
    obtain ⟨found,-⟩ := reads_named_token.mp mark
    have behind : Stops (')' :: termMarks) mid := stops_of_token found first apart
    exact (known _ _ ended (behind.mono (by simp))).before (behind.mono (by simp))

theorem outcome_endsTerm {r : Rule} (read : outcome r text = .ok value rest cut) : EndsTerm r text rest := by
  refine outcome_induction (Q := fun r t _ u => EndsTerm r t u) ?_ read
  intro r text value rest p reads _
  cases r with
  | batom =>
    intro stops
    refine TermEnd.skipped ?_
    rcases reads with ⟨_,_,compared,-,-⟩ | ⟨-,⟨_,_,constant,-,-⟩ | ⟨-,enclosed | ⟨-,none⟩⟩⟩
    · obtain ⟨lhs,mid,_,_,_,term,sign,-⟩ := rexp_reads compared
      exact .inr ⟨_,mid,term,.inl (stops_of_rop sign (by simp))⟩
    · obtain ⟨word,known,found⟩ := boolConst_reads constant
      obtain ⟨v,term⟩ := aexp_constant known found stops
      exact .inr ⟨v,rest,term,.inr rfl⟩
    · obtain ⟨_,inner,_,⟨opening,-⟩,⟨_,mid,_,⟨_,⟨_,_,_,ended,-⟩,-⟩,⟨closing,-⟩,-⟩,-⟩ := enclosed
      change tokenRest? _ (skipped (skipped text)) = _ at opening
      rw [skipped_skipped] at opening
      have ended := ended (stops_of_token closing rfl (by decide))
      have front : skipped text = '(' :: inner := (tokenRest?_eq_some.mp opening).1
      change TermEnd (skipped text) rest
      rw [front]
      rcases ended.bracketed closing with failed | ⟨v,factor⟩
      · exact .inl (aexp_fail failed)
      · exact .inr ⟨v,rest,aexp_of_factor factor (stops.mono (by decide)),.inr rfl⟩
    · exact none.elim
  | bfactor =>
    intro stops
    refine TermEnd.skipped ?_
    rcases reads with positive | ⟨failed,negated | ⟨-,none⟩⟩
    · obtain ⟨_,_,_,ended,-⟩ := reads_named_call.mp positive
      exact ended stops
    · obtain ⟨_,_,_,mark,⟨_,_,_,⟨-,rfl⟩,operand,-⟩,-⟩ := negated
      obtain ⟨found,-⟩ := reads_named_token.mp mark
      obtain ⟨_,_,read,-,-⟩ := reads_named_call.mp operand
      obtain ⟨term,-,stops⟩ := aexp_not (Taken.of_map_fail (Taken.of_map_fail failed)) found read
      exact .inr ⟨_,_,term,.inl (stops.mono (by decide))⟩
    · exact none.elim
  | bterm =>
    intro stops
    exact (termEnd_chain (r := .bfactor) rfl (by decide) (fun _ _ ended => ended) reads stops).skipped
  | bexp =>
    intro stops
    exact (termEnd_chain (r := .bterm) rfl (by decide) (fun _ _ ended => ended) reads stops).skipped
  | start | stmtList | stmt | asgnStmt | blockStmt | skipStmt | printStateStmt | ifStmt | whileStmt | assertStmt
  | assumeStmt | havocStmt | varList | boolConst | rexp | rop | aexp | addition | subtraction | term | mult | division
  | factor | negNumber | atom | name | number | integerText | nameText | newlineText => trivial

end Conditions

section Statements

variable {text mid rest : List Char} {value : Reading} {cut : Bool} {word : List Char}

theorem Connective.first_read {lower upper : Rule} {op : String} (connective : Connective lower upper op)
    (read : outcome upper text = .ok value rest cut) : ∃ v u c, outcome lower text = .ok v u c := by
  obtain ⟨_,reads,-⟩ := outcome_reads connective.skips read
  rw [connective.body] at reads
  obtain ⟨_,_,_,operand,-,-⟩ := reads
  obtain ⟨v,c,first,-,-⟩ := reads_named_call.mp operand
  rw [outcome_skipped connective.lowerSkips] at first
  exact ⟨v,_,c,first⟩

theorem batom_of_bfactor (read : outcome .bfactor text = .ok value rest cut) (stops : Stops ['n'] text) :
    ∃ v c, outcome .batom text = .ok v rest c := by
  obtain ⟨_,reads,-⟩ := outcome_reads rfl read
  rcases reads with positive | ⟨-,negated | ⟨-,none⟩⟩
  · obtain ⟨v,c,read,-,-⟩ := reads_named_call.mp positive
    rw [outcome_skipped rfl] at read
    exact ⟨v,c,read⟩
  · obtain ⟨_,_,_,mark,-⟩ := negated
    obtain ⟨found,-⟩ := reads_named_token.mp mark
    have failed : (Peg.token "not").take outcome (skipped text) = .fail false :=
      (Stops.skipped.mpr stops).token 'n' rfl (by decide)
    rw [take_found found] at failed
    cases failed
  · exact none.elim

/-- A condition that begins with a name has an operator or a comparison behind it. -/
theorem stops_behind_name {name : List Char} (read : outcome .bexp (name ++ rest) = .ok value mid cut)
    (isWord : IsWord name) (first : (name ++ rest).head? = some '_') (ends : WordEnd rest) : Stops [':'] rest := by
  obtain ⟨_,_,_,disjunct⟩ := disjunction.first_read read
  obtain ⟨_,_,_,conjunct⟩ := conjunction.first_read disjunct
  obtain ⟨_,_,atom⟩ := batom_of_bfactor conjunct (stops_underscore first (by decide))
  obtain ⟨_,compared⟩ := rexp_of_batom atom (stops_underscore first (by decide))
  obtain ⟨_,_,_,_,_,term,sign,-⟩ := rexp_reads compared
  exact stops_behind_factor term (factor_word isWord ends) (by simp) (stops_of_rop sign (by simp))

theorem asgnStmt_fail_condition (isWord : IsWord word) (letters : word.all Text.isAlphanumeric = true)
    (ends : runsOn word text = false) (read : outcome .bexp text = .ok value rest cut) :
    outcome .asgnStmt (word ++ text) = .fail false := by
  rcases wordEnd_or_glued letters ends with apart | line
  · exact asgnStmt_fail isWord apart ((outcome_begins rfl read).mono (by decide))
  · obtain ⟨name,after,rfl,single,double,stop⟩ := isWord.glued line
    rw [← List.append_assoc]
    exact asgnStmt_fail double stop (stops_behind_name read single line stop)

/-- A word in front of names is not assigned to, unless something is assigned to the last of them. -/
theorem asgnStmt_fail_names (isWord : IsWord word) (letters : word.all Text.isAlphanumeric = true)
    (ends : runsOn word text = false) (read : outcome .varList text = .ok value rest cut) (stops : Stops [':'] rest) :
    outcome .asgnStmt (word ++ text) = .fail false := by
  rcases wordEnd_or_glued letters ends with apart | line
  · exact asgnStmt_fail isWord apart ((outcome_begins rfl read).mono (by decide))
  · obtain ⟨name,after,rfl,single,double,stop⟩ := isWord.glued line
    rw [← List.append_assoc]
    refine asgnStmt_fail double stop ?_
    obtain ⟨_,reads,-⟩ := outcome_reads rfl read
    rw [single.skipped] at reads
    obtain ⟨_,_,entries,⟨_,_,first,-,-⟩,more,-⟩ := reads
    cases first.symm.trans (name_ok single stop)
    cases entries with
    | nil => cases more; exact stops
    | cons entry entries =>
      obtain ⟨_,_,⟨found,-⟩,-,-⟩ := more
      exact stops_of_token found rfl (by decide)

/-- No keyword begins another one, whatever follows. -/
theorem keyword_differs {r s : Rule} (one : r ∈ .skipStmt :: worded) (two : s ∈ worded) (other : r ≠ s)
    (front : skipped text = s.keyword.toList ++ rest) : (Peg.token r.keyword).take outcome text = .fail false := by
  have apart : ∀ r ∈ .skipStmt :: worded, ∀ s ∈ worded, r ≠ s →
      ¬ r.keyword.toList <+: s.keyword.toList ∧ ¬ s.keyword.toList <+: r.keyword.toList := by decide +kernel
  obtain ⟨first,second⟩ := apart r one s two other
  refine fail_token _ fun more same => ?_
  have whole := same.symm.trans front
  have fronts := List.prefix_or_prefix_of_prefix (List.prefix_append _ more) (whole ▸ List.prefix_append _ rest)
  rcases fronts with shorter | longer
  · exact absurd shorter first
  · exact absurd longer second

/-- A statement that begins with a keyword is read by the rule of that keyword, unless it is an assignment. -/
theorem stmt_of_keyword {r : Rule} (known : r ∈ worded) (front : skipped text = r.keyword.toList ++ mid)
    (noAssign : outcome .asgnStmt text = .fail false) (read : outcome r text = .ok value rest cut) :
    outcome .stmt text = .ok value rest false := by
  have noBrace : Stops ['\x7b'] text := by
    rw [← Stops.skipped,front]
    exact (isWord_keyword known).stops (by decide) mid
  rw [outcome_stmt]
  refine firstTaken_only (by simp only [worded] at known; simp [known]) read fun s member other => ?_
  change s ∈ .skipStmt :: .asgnStmt :: .blockStmt :: worded at member
  simp only [List.mem_cons] at member
  rcases member with rfl | rfl | rfl | member
  · exact keyword_fail (by decide) (keyword_differs (by decide) known other front)
  · exact noAssign
  · exact keyword_fail (by decide) (noBrace.token '\x7b' rfl (by decide))
  · exact keyword_fail (by simp [member]) (keyword_differs (by simp [member]) known other front)

end Statements

end WhileExec.Grammar
