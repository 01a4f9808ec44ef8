import Mathlib
import WhileExec.Proofs.Grammar.Carrying

/-!
# What may follow what has been read

For each rule, the texts before which it reads again what it has read, `Follow`, and for terms and conditions that it
does. For statements this is more than a matter of first characters: an `else` belongs to an open statement only if a
statement stands behind it, and what begins with `print_state` may be an assignment.
-/

namespace WhileExec

/-- The statement ends with the word that prints the state. -/
def Stmt.endsPrinting : Stmt → Bool
  | .printState => true
  | .ifElse _ _ no => no.endsPrinting
  | .ifOnly _ yes => yes.endsPrinting
  | .loop _ body _ => body.endsPrinting
  | _ => false

namespace Grammar

/-- The characters that a comparison or a constant could go on with. -/
def testMarks : List Char :=
  '<' :: '=' :: '>' :: termMarks

/-- The characters that a statement could go on with, but for what follows an `else`. -/
def stmtMarks : List Char :=
  ',' :: ':' :: 'o' :: 'a' :: testMarks

/-- What can follow a statement. -/
structure MayFollow (v : Reading) (text : List Char) : Prop where
  stops : Stops stmtMarks text
  noElse : ∀ s, v = .stmt s → s.isOpen = true → elsePart.take outcome text = .fail false
  noAssign : ∀ s, v = .stmt s → s.endsPrinting = true → outcome .asgnStmt ("print_state".toList ++ text) = .fail false

theorem MayFollow.part {s last : Stmt} {text : List Char} (follows : MayFollow (.stmt s) text)
    (opens : last.isOpen = true → s.isOpen = true) (prints : last.endsPrinting = true → s.endsPrinting = true) :
    MayFollow (.stmt last) text where
  stops := follows.stops
  noElse := by
    rintro _ ⟨⟩ isOpen
    exact follows.noElse s rfl (opens isOpen)
  noAssign := by
    rintro _ ⟨⟩ ends
    exact follows.noAssign s rfl (prints ends)

/-- What can follow any statement. -/
structure Apart (text : List Char) : Prop where
  ends : WordEnd text
  stops : Stops ('e' :: stmtMarks) text

/-- What can follow the value that a rule has read. -/
def Follow : Rule → Reading → List Char → Prop
  | .rop, _, text => Stops ['='] text
  | .mult, _, text | .division, _, text | .term, _, text => Stops ['*','/'] text
  | .addition, _, text | .subtraction, _, text | .aexp, _, text | .rexp, _, text => Stops ['+','-','*','/'] text
  | .batom, _, text | .bfactor, _, text => Stops testMarks text
  | .bterm, _, text => Stops ('a' :: testMarks) text
  | .bexp, _, text => Stops ('o' :: 'a' :: testMarks) text
  | .varList, _, text => Stops [','] text
  | .stmtList, _, text | .start, _, text => Apart text ∧ Stops [';'] text
  | .stmt, v, text | .asgnStmt, v, text | .blockStmt, v, text | .skipStmt, v, text | .printStateStmt, v, text
  | .ifStmt, v, text | .whileStmt, v, text | .assertStmt, v, text | .assumeStmt, v, text | .havocStmt, v, text =>
      MayFollow v text
  | .boolConst, _, _ | .factor, _, _ | .negNumber, _, _ | .atom, _, _ | .name, _, _ | .number, _, _ | .integerText, _, _
  | .nameText, _, _ | .newlineText, _, _ => True

/-- What was read carries over to other texts. -/
def Local (r : Rule) (text : List Char) (value : Reading) (rest : List Char) : Prop :=
  r.skips = true → Carries (outcome r) (Follow r value) text value rest

section Parts

variable {r : Rule} {field : String} {text rest : List Char} {p : Parts Reading} {F : List Char → Prop}

/-- A value that one rule takes over from another. -/
theorem Local.passes {s : Rule} {value : Reading} (known : Local s (skipped text) value rest) (skips : s.skips = true)
    (entered : r.skips = true) (weaker : ∀ other, F other → Follow s value other)
    (same : ∀ next other cut, outcome s next = .ok value other cut → F other → outcome r next = .ok value other false) :
    Carries (outcome r) F text value rest := by
  refine Carries.of_skipped ?_ (outcome_skipped entered)
  exact Carries.lift (known skips) weaker fun next other cut again follows => ⟨false,same next other cut again follows⟩

theorem carries_named_call (skips : r.skips = true) (reads : (Peg.named field (.call r)).Reads Local text p rest)
    (fits : ∀ v cut, outcome r text = .ok v rest cut → ∀ other, F other → Follow r v other) :
    Carries ((Peg.named field (.call r)).take outcome) F text p rest := by
  obtain ⟨v,cut,read,known,rfl⟩ := reads_named_call.mp reads
  have carries := ((known skips).mono (fits v cut read)).map fun value => ({ last := some value } : Parts Reading)
  exact carries.map fun p => { p with fields := p.fields ++ p.last.toList.map (field,·) }

theorem carries_named_token {word : String} (reads : (Peg.named field (.token word)).Reads Local text p rest)
    (written : word.toList ≠ []) :
    Carries ((Peg.named field (.token word)).take outcome) (fun _ => True) text p rest := by
  obtain ⟨found,rfl⟩ := reads_named_token.mp reads
  exact (carries_token found written).map fun p => { p with fields := p.fields ++ p.last.toList.map (field,·) }

theorem carries_enclosed {before after : String} (skips : r.skips = true) (opening : before.toList ≠ [])
    (closing : after.toList ≠ []) (fits : ∀ v next u, tokenRest? after.toList (skipped next) = some u → Follow r v next)
    (reads : (Peg.all [.token before,.keep (.call r),.token after]).Reads Local text p rest) :
    Carries ((Peg.all [.token before,.keep (.call r),.token after]).take outcome) (fun _ => True) text p rest := by
  obtain ⟨_,_,_,⟨opened,rfl⟩,⟨_,_,_,⟨_,⟨v,_,_,known,rfl⟩,rfl⟩,⟨closed,rfl⟩,rfl⟩,rfl⟩ := reads
  have inner := ((known skips).map fun value => ({ last := some value } : Parts Reading)).map
    fun p => { p with kept := p.last }
  refine carries_seq (carries_token opened opening) (carries_seq inner (carries_token closed closing) ?_)
    fun _ _ _ _ _ => trivial
  intro next u cut _ read
  have reads := Peg.reads_any read
  exact fits v next u reads.1

end Parts

section Terms

variable {text rest : List Char} {value : Reading} {p : Parts Reading} {cut : Bool}

theorem local_name (read : outcome .nameText (skipped text) = .ok value rest cut) :
    ∃ word, value = .text (String.ofList word) ∧
      Carries (outcome .name) (fun _ => True) text (.expr (.var (String.ofList word))) rest := by
  obtain ⟨word,rfl,isWord,ends,front⟩ := outcome_shape read
  have some : word ≠ [] := by
    obtain ⟨c,more,rfl,-⟩ := isWord
    simp
  obtain ⟨part,same,piece⟩ := exists_piece front some
  refine ⟨word,rfl,part,word,same,piece,fun other junction _ => ⟨false,?_⟩⟩
  rw [piece.outcome_eq rfl,name_ok isWord (junction.wordEnd ends)]

theorem carries_integer (read : outcome .integerText (skipped text) = .ok value rest cut) :
    Carries (outcome .integerText) (fun _ => True) (skipped text) value rest := by
  rw [outcome_pattern rfl rfl fun _ => rfl] at read
  split at read
  · cases read
  next taken =>
    cases read
    have front := integer_take_append (skipped text)
    obtain ⟨part,same,piece⟩ := exists_piece ((skipped_skipped text).trans front) taken
    have bare : part = Pattern.integer.take (skipped text) := List.append_cancel_right (same.symm.trans front)
    refine ⟨part,_,same,piece,fun other junction _ => ⟨false,?_⟩⟩
    have again := integer_take_before taken (front ▸ rfl) junction
    rw [bare,outcome_pattern rfl rfl fun _ => rfl,again,if_neg taken,List.drop_left]

theorem name_fail_of_number (read : outcome .number text = .ok value rest cut) : outcome .name text = .fail false := by
  refine name_fail fun c first => .inr ?_
  by_contra other
  have digit : c.isDigit = false := by
    by_contra digit
    exact other (Text.isDecimalDigit_of_isDigit (by simpa using digit))
  rw [number_fail fun d known => Option.mem_unique known first ▸ digit] at read
  cases read

theorem negNumber_front (read : outcome .negNumber text = .ok value rest cut) : ∃ more, skipped text = '-' :: more := by
  obtain ⟨_,⟨_,more,_,⟨found,-⟩,-⟩,-⟩ := outcome_reads rfl read
  rw [skipped_skipped] at found
  exact ⟨more,(tokenRest?_eq_some.mp found).1⟩

theorem open_front {a b : Peg} (read : (Peg.all [.token "(",a,b]).take outcome text = .ok p rest cut) :
    ∃ inner, skipped text = '(' :: inner := by
  have reads := Peg.reads_any read
  obtain ⟨_,inner,_,⟨found,-⟩,-⟩ := reads
  exact ⟨inner,(tokenRest?_eq_some.mp found).1⟩

theorem atom_fail_front {c : Char} {more : List Char} (front : skipped text = c :: more)
    (other : Text.isWordChar c = false) : outcome .atom text = .fail false := by
  refine atom_fail fun d first => ?_
  rw [front] at first
  cases first
  exact other

theorem carries_operation {left right : Rule} {op : String} (chars others : List Char) (leftSkips : left.skips = true)
    (rightSkips : right.skips = true) (written : op.toList ≠ [])
    (one : ∀ v other, Stops chars other → Follow left v other) (avoids : (Peg.token op).avoids chars = true)
    (two : ∀ v other, Stops others other → Follow right v other)
    (reads : (Rule.operation left op right).Reads Local text p rest) :
    Carries ((Rule.operation left op right).take outcome) (Stops others) text p rest := by
  obtain ⟨_,_,_,first,⟨_,_,_,mark,⟨_,_,_,⟨rfl,rfl⟩,second,rfl⟩,rfl⟩,rfl⟩ := reads
  have lhs := carries_named_call (F := Stops chars) leftSkips first fun v _ _ => one v
  have rhs := carries_named_call (F := Stops others) rightSkips second fun v _ _ => two v
  refine carries_seq lhs (carries_seq (carries_named_token mark written) (carries_cut rhs) fun _ _ _ _ _ => trivial) ?_
  intro next u cut _ read
  exact stops_of_take rfl (by simpa [Peg.all,Peg.front] using avoids) read

/-- A level carries over if its operations and its operands do. -/
theorem carries_level {lower first second upper : Rule} {a b : String} {F G : List Char → Prop}
    (level : Level lower first second upper a b) (apart : Level.Apart lower upper a b)
    (weaker : ∀ other, G other → F other)
    (ends : ∀ other, G other → (Peg.token a).take outcome other = .fail false ∧
      (Peg.token b).take outcome other = .fail false)
    (known : Carries (outcome first) G text value rest ∨ Carries (outcome second) G text value rest ∨
      Carries (outcome lower) F text value rest) : Carries (outcome upper) G text value rest := by
  rcases known with known | known | known
  · refine known.lift (fun _ => id) fun next other c read _ => ⟨false,?_⟩
    rw [level.choice,firstTaken_cons,read]
    rfl
  · refine known.lift (fun _ => id) fun next other c read _ => ⟨false,?_⟩
    rw [level.choice,firstTaken_cons,level.first_fails apart read,Taken.orElse_fail,firstTaken_cons,read]
    rfl
  · refine known.lift weaker fun next other c read follows => ⟨false,?_⟩
    obtain ⟨noFirst,noSecond⟩ := ends other follows
    rw [(apart.lowerYields _ _ _ _ read).1] at read
    exact level.outcome_operand read noFirst noSecond

theorem level_reads {first second lower : Rule} {message : String}
    (reads : (Peg.firstOf message [.call first,.call second,.call lower]).Reads Local text p rest)
    (closed : p.single? = some value) : Local first text value rest ∨ Local second text value rest ∨
      Local lower text value rest := by
  rcases reads with ⟨_,_,_,known,rfl⟩ | ⟨-,⟨_,_,_,known,rfl⟩ | ⟨-,⟨_,_,_,known,rfl⟩ | ⟨-,none⟩⟩⟩
  · cases closed; exact .inl known
  · cases closed; exact .inr (.inl known)
  · cases closed; exact .inr (.inr known)
  · exact none.elim

end Terms

section Conditions

variable {text rest next other mid : List Char} {value : Reading} {p : Parts Reading} {cut : Bool}

/-- A comparison that could be longer is not, unless the sign of equality follows. -/
theorem longer_fails {c : Char} (word : String) (written : word.toList = [c,'=']) (front : skipped next = c :: other)
    (stops : Stops ['='] other) : (Peg.token word).take outcome next = .fail false := by
  refine fail_token word fun more same => ?_
  rw [written,front] at same
  have follows : other = '=' :: more := (List.cons.inj same).2
  refine absurd ?_ (stops.head (c := '=') (by decide) (by decide) (by decide))
  rw [follows]
  rfl

theorem rop_body {op : String} (known : op ∈ ["<=","<","=",">=",">"])
    (found : tokenRest? op.toList (skipped next) = some other) (stops : Stops ['='] other) :
    (Rule.body .rop).take outcome next = .ok { last := some (.text op) } other false := by
  have front := (tokenRest?_eq_some.mp found).1
  have fails (word : String) {c d : Char} (first : op.toList.head? = some c) (second : word.toList.head? = some d)
      (apart : c ≠ d) : (Peg.token word).take outcome next = .fail false := fail_of_token found first second apart
  simp only [List.mem_cons,List.not_mem_nil,or_false] at known
  simp only [Rule.body,Peg.firstOf,Peg.take_orElse]
  rcases known with rfl | rfl | rfl | rfl | rfl
  · rw [take_found found,Taken.orElse_ok]
  · rw [longer_fails "<=" rfl front stops,Taken.orElse_fail,take_found found,Taken.orElse_ok]
  · rw [fails "<=" rfl rfl (by decide),fails "<" rfl rfl (by decide),Taken.orElse_fail,
      Taken.orElse_fail,take_found found,Taken.orElse_ok]
  · rw [fails "<=" rfl rfl (by decide),fails "<" rfl rfl (by decide),
      fails "=" rfl rfl (by decide),Taken.orElse_fail,Taken.orElse_fail,Taken.orElse_fail,take_found found,
      Taken.orElse_ok]
  · rw [fails "<=" rfl rfl (by decide),fails "<" rfl rfl (by decide),
      fails "=" rfl rfl (by decide),longer_fails ">=" rfl front stops,Taken.orElse_fail,
      Taken.orElse_fail,Taken.orElse_fail,Taken.orElse_fail,take_found found,Taken.orElse_ok]

theorem carries_rop (reads : (Rule.body .rop).Reads Local text p rest) :
    Carries ((Rule.body .rop).take outcome) (Stops ['=']) text p rest := by
  change (Peg.firstOf _ (["<=","<","=",">=",">"].map .token)).Reads Local text p rest at reads
  obtain ⟨e,member,reads⟩ := firstOf_reads reads
  obtain ⟨op,known,rfl⟩ := List.mem_map.mp member
  obtain ⟨found,rfl⟩ := reads
  have written : op.toList ≠ [] := by
    simp only [List.mem_cons,List.not_mem_nil,or_false] at known
    rcases known with rfl | rfl | rfl | rfl | rfl <;> decide
  refine (carries_token found written).lift (fun _ _ => trivial) fun next other c read stops => ⟨false,?_⟩
  have again := Peg.reads_any read
  exact rop_body known again.1 stops

theorem carries_rexp (reads : (Rule.body .rexp).Reads Local text p rest) :
    Carries ((Rule.body .rexp).take outcome) (Stops ['+','-','*','/']) text p rest := by
  obtain ⟨_,_,_,first,⟨_,_,_,sign,⟨_,_,_,⟨rfl,rfl⟩,second,rfl⟩,rfl⟩,rfl⟩ := reads
  have lhs := carries_named_call (F := Stops ['+','-','*','/']) rfl first fun _ _ _ _ => id
  have op := carries_named_call (F := Stops ['=']) rfl sign fun _ _ _ _ => id
  have rhs := carries_named_call (F := Stops ['+','-','*','/']) rfl second fun _ _ _ _ => id
  refine carries_seq lhs (carries_seq op (carries_cut rhs) ?_) ?_
  · intro next u cut _ read
    obtain ⟨_,_,_,_,none,later,-⟩ := Taken.andThen_eq_ok.mp read
    cases none
    obtain ⟨_,later,-⟩ := Taken.map_eq_ok.mp later
    exact stops_of_take rfl (by decide) later
  · intro next u cut _ read
    exact stops_of_take rfl (by decide) read

theorem carries_boolConst (reads : (Rule.body .boolConst).Reads Local text p rest) :
    Carries ((Rule.body .boolConst).take outcome) (fun _ => True) text p rest := by
  rcases reads with ⟨found,rfl⟩ | ⟨-,⟨found,rfl⟩ | ⟨-,none⟩⟩
  · refine (carries_token found (by decide)).lift (fun _ => id) fun next other c read _ => ⟨false,?_⟩
    simp only [Rule.body,Peg.firstOf,Peg.take_orElse,read,Taken.orElse_ok]
  · refine (carries_token found (by decide)).lift (fun _ => id) fun next other c read _ => ⟨false,?_⟩
    have stops : Stops ['t'] next := stops_of_take rfl (by decide) read
    have noTrue : (Peg.token "true").take outcome next = .fail false := stops.token 't' rfl (by decide)
    simp only [Rule.body,Peg.firstOf,Peg.take_orElse,noTrue,read,Taken.orElse_fail,Taken.orElse_ok]
  · exact none.elim

/-- A constant is not the left side of a comparison, unless one follows. -/
theorem rexp_fail_constant (read : outcome .boolConst next = .ok value other cut) (stops : Stops testMarks other) :
    outcome .rexp next = .fail false := by
  obtain ⟨word,known,found⟩ := boolConst_reads read
  obtain ⟨v,term⟩ := aexp_constant known found (stops.mono (by decide))
  exact rexp_fail (.inr ⟨v,other,term,stops.mono (by decide)⟩)

/-- Neither is a condition in brackets. -/
theorem rexp_fail_bracketed (read : (bracketed .bexp).take outcome next = .ok p other cut)
    (stops : Stops testMarks other) : outcome .rexp next = .fail false := by
  have reads := Peg.reads_any read
  obtain ⟨_,inner,_,⟨opening,-⟩,⟨_,mid,_,⟨_,⟨_,_,condition,-,-⟩,-⟩,⟨closing,-⟩,-⟩,-⟩ := reads
  have front : skipped next = '(' :: inner := (tokenRest?_eq_some.mp opening).1
  have ended : TermEnd inner mid := outcome_endsTerm condition (stops_of_token closing rfl (by decide))
  rw [← outcome_skipped rfl,front]
  rcases ended.bracketed closing with failed | ⟨v,factor⟩
  · exact rexp_fail (.inl (aexp_fail failed))
  · exact rexp_fail (.inr ⟨v,other,aexp_of_factor factor (stops.mono (by decide)),stops.mono (by decide)⟩)

/-- The word `not` before an operand is not a condition by itself. -/
theorem batom_fail_not (front : skipped next = "not".toList ++ mid) (word : WordEnd mid)
    (stops : Stops ('-' :: marks) mid) : outcome .batom next = .fail false := by
  have term : outcome .aexp ("not".toList ++ mid) = .ok (.expr (.var "not")) mid false :=
    aexp_of_factor (factor_word isWord_not word) (stops.mono (by decide))
  rw [← outcome_skipped rfl,front]
  exact batom_fail (rexp_fail (.inr ⟨_,_,term,stops.mono (by decide)⟩))
    (.solid (by decide) (by decide) (by decide) _)

theorem stops_front {c : Char} {more chars : List Char} (front : skipped next = c :: more) (apart : c ∉ chars) :
    Stops chars next := by
  intro d first
  rw [front] at first
  cases first
  exact apart

theorem carries_factor_enclosed (reads : (bracketed .aexp).Reads Local text p rest) :
    Carries ((Rule.body .factor).take outcome) (fun _ => True) text p rest := by
  have closes (v : Reading) (next u : List Char) (closing : tokenRest? ")".toList (skipped next) = some u) :
      Stops ['+','-','*','/'] next := stops_of_token closing rfl (by decide)
  have enclosed := carries_enclosed (r := .aexp) rfl (by decide) (by decide) closes reads
  refine enclosed.lift (fun _ => id) fun next other c read _ => ⟨false,?_⟩
  obtain ⟨inner,front⟩ := open_front read
  have noAtom := atom_fail_front front (by decide)
  have noMinus := negNumber_fail (stops_front front (by decide))
  simp only [Rule.body,Peg.firstOf,Peg.take_orElse,Peg.take_call,noAtom,noMinus,read,Taken.map_fail,Taken.orElse_fail,
    Taken.orElse_ok]

theorem carries_batom_enclosed (reads : (bracketed .bexp).Reads Local text p rest) :
    Carries ((Rule.body .batom).take outcome) (Stops testMarks) text p rest := by
  have closes (v : Reading) (next u : List Char) (closing : tokenRest? ")".toList (skipped next) = some u) :
      Stops ('o' :: 'a' :: testMarks) next := stops_of_token closing rfl (by decide)
  have enclosed := carries_enclosed (r := .bexp) rfl (by decide) (by decide) closes reads
  refine enclosed.lift (fun _ _ => trivial) fun next other c read stops => ⟨false,?_⟩
  obtain ⟨inner,front⟩ := open_front read
  have noTest := rexp_fail_bracketed read stops
  have noConstant := boolConst_fail (stops_front front (by decide))
  simp only [Rule.body,Peg.firstOf,Peg.take_orElse,Peg.take_call,noTest,noConstant,read,Taken.map_fail,
    Taken.orElse_fail,Taken.orElse_ok]

theorem carries_positive (reads : (Peg.named "arg" (.call .batom)).Reads Local text p rest) :
    Carries ((Rule.body .bfactor).take outcome) (Stops testMarks) text p rest := by
  refine (carries_named_call (F := Stops testMarks) rfl reads fun _ _ _ _ => id).lift (fun _ => id)
    fun next other c read _ => ⟨false,?_⟩
  simp only [Rule.body,Peg.firstOf,Peg.take_orElse,read,Taken.orElse_ok]

/-- A condition that is negated. What stands behind the word begins as it did, so that the word is not a part of it. -/
theorem carries_negated (failed : outcome .batom text = .fail false)
    (reads : (Peg.all [.named "op" (.token "not"),.cut,.named "arg" (.call .batom)]).Reads Local text p rest) :
    Carries ((Rule.body .bfactor).take outcome) (Stops testMarks) text p rest := by
  obtain ⟨_,_,_,mark,⟨_,_,_,⟨rfl,rfl⟩,arg,rfl⟩,rfl⟩ := reads
  obtain ⟨found,-⟩ := reads_named_token.mp mark
  obtain ⟨_,_,operand,-,-⟩ := reads_named_call.mp arg
  obtain ⟨-,word,stops⟩ := aexp_not failed found operand
  obtain ⟨one,bare,rfl,piece,marked⟩ := carries_named_token mark (by decide)
  obtain ⟨two,core,rfl,inner,valued⟩ := carries_named_call (F := Stops testMarks) rfl arg fun _ _ _ _ => id
  refine ⟨one ++ two,bare ++ two,by simp,piece.append two,fun other junction follows => ⟨false,?_⟩⟩
  have behind := junction.append two
  obtain ⟨c,now⟩ := marked _ behind trivial
  obtain ⟨d,later⟩ := valued other junction follows
  have again := Peg.reads_any now
  obtain ⟨again,-⟩ := reads_named_token.mp again
  have noAtom : outcome .batom (one ++ (two ++ other)) = .fail false := by
    refine batom_fail_not (tokenRest?_eq_some.mp again).1 (behind.wordEnd word) fun c first => stops c ?_
    rw [inner.skipped_head] at first ⊢
    exact first
  have tried : (Peg.named "arg" (.call .batom)).take outcome (one ++ (two ++ other)) = .fail false := by
    rw [Peg.take_named,Peg.take_call,noAtom]
    rfl
  rw [List.append_assoc]
  simp only [Rule.body,Peg.firstOf,Peg.all,Peg.take_orElse,tried,Taken.orElse_fail]
  rw [Peg.take_seq,now,Taken.andThen_ok,Peg.take_seq,Peg.take_cut,Taken.andThen_ok,later]
  rfl

theorem carries_chain {op : String} {r : Rule} {chars : List Char} {c : Char} (skips : r.skips = true)
    (first : op.toList.head? = some c) (apart : c ∉ chars) (known : ∀ v other, Stops chars other → Follow r v other)
    (reads : (Peg.gather (.named "op" (.token op)) (.named "args" (.call r))).Reads Local text p rest) :
    Carries ((Peg.gather (.named "op" (.token op)) (.named "args" (.call r))).take outcome) (Stops (c :: chars)) text p
      rest := by
  have written : op.toList ≠ [] := by
    intro none
    rw [none] at first
    cases first
  refine carries_gather (F := Stops chars) (by simpa [Peg.solid] using written)
    (fun _ _ _ mark => carries_named_token mark written)
    (fun _ _ _ value => carries_named_call skips value fun v _ _ => known v) ?_ ?_ reads
  · intro next q u cut read
    have again := Peg.reads_any read
    obtain ⟨found,-⟩ := reads_named_token.mp again
    exact stops_of_token found first apart
  · intro other stops
    refine ⟨stops.mono (by simp),?_⟩
    rw [Peg.take_named,stops.token c first (by simp)]
    rfl

end Conditions

section Between

variable {text rest next mid : List Char} {value : Reading} {p q : Parts Reading} {cut last : Bool} {yes : Stmt}

theorem isWord_printState : IsWord "print_state".toList :=
  isWord_keyword (r := .printStateStmt) (by decide)

theorem isWord_printStateElse : IsWord ("print_state".toList ++ "else".toList) :=
  ⟨'p',"rint_stateelse".toList,rfl,by decide,List.all_eq_true.mp rfl⟩

theorem Apart.mayFollow (apart : Apart text) (v : Reading) : MayFollow v text where
  stops := apart.stops.mono (by simp)
  noElse _ _ _ := elsePart_fail (apart.stops.mono (by simp))
  noAssign _ _ _ := asgnStmt_fail isWord_printState apart.ends (apart.stops.mono (by decide))

/-- Layout or another character stands where no word goes on behind layout. -/
theorem wordEnd_front {c : Char} {more : List Char} (front : skipped text = c :: more)
    (other : Text.isWordChar c = false) : WordEnd text := by
  intro d first
  by_contra word
  rw [Bool.not_eq_false] at word
  cases text with
  | nil => cases first
  | cons e text =>
    cases first
    rw [skipped_word word] at front
    rw [(List.cons.inj front).1,other] at word
    contradiction

theorem Apart.of_front {c : Char} {more : List Char} (front : skipped text = c :: more)
    (other : Text.isWordChar c = false) (apart : c ∉ 'e' :: stmtMarks) : Apart text :=
  ⟨wordEnd_front front other,stops_front front apart⟩

/-- A statement that begins with an underscore is an assignment, and so it is with a word in front of it. -/
theorem asgnStmt_glued {word : List Char} (isWord : IsWord word) (line : text.head? = some '_')
    (read : outcome .stmt text = .ok value rest cut) : outcome .asgnStmt (word ++ text) ≠ .fail false := by
  have fails (r : Rule) (known : r ∈ .skipStmt :: .blockStmt :: worded) : outcome r text = .fail false := by
    have heads : ∀ r ∈ Rule.skipStmt :: .blockStmt :: worded, ∃ c, r.keyword.toList.head? = some c ∧ '_' ≠ c := by
      intro r known
      simp only [worded,List.mem_cons,List.not_mem_nil,or_false] at known
      rcases known with rfl | rfl | rfl | rfl | rfl | rfl | rfl | rfl <;> exact ⟨_,rfl,by decide⟩
    obtain ⟨c,first,other⟩ := heads r known
    have stops : Stops [c] text := stops_underscore line (by simpa using other)
    exact keyword_fail known (stops.token c first (by simp))
  have assigned : ∃ v c, outcome .asgnStmt text = .ok v rest c := by
    rw [outcome_stmt] at read
    simp only [List.map_cons,List.map_nil,firstTaken_cons,firstTaken_nil,fails .skipStmt (by decide),
      fails .blockStmt (by decide),fails .ifStmt (by decide),fails .whileStmt (by decide),fails .assertStmt (by decide),
      fails .assumeStmt (by decide),fails .havocStmt (by decide),fails .printStateStmt (by decide),
      Taken.orElse_fail] at read
    rcases Taken.orElse_eq_ok.mp read with ⟨-,c,now⟩ | ⟨-,none⟩
    · exact ⟨_,c,now⟩
    · cases none
  obtain ⟨v,c,assigned⟩ := assigned
  obtain ⟨name,after,rfl,single,double,stop⟩ := isWord.glued line
  obtain ⟨_,reads,-⟩ := outcome_reads rfl assigned
  rw [single.skipped] at reads
  obtain ⟨_,_,_,lhs,⟨_,_,_,⟨found,-⟩,rhs,-⟩,-⟩ := reads
  obtain ⟨_,_,named,-,-⟩ := reads_named_call.mp lhs
  obtain ⟨_,d,term,-,-⟩ := reads_named_call.mp rhs
  cases named.symm.trans (name_ok single stop)
  obtain ⟨e,rfl,-⟩ := outcome_shape term
  rw [← List.append_assoc,outcome_body rfl]
  simp only [Rule.body,Peg.all,Peg.take_seq,Peg.take_named,Peg.take_call,outcome_skipped (r := .name) rfl,
    name_ok double stop,take_found found,term,Taken.map_ok,Taken.andThen_ok,Taken.behindCut_ok]
  rintro ⟨⟩

theorem elsePart_front (read : elsePart.take outcome text = .ok p rest cut) :
    ∃ t v c, tokenRest? "else".toList (skipped text) = some t ∧ outcome .stmt t = .ok v rest c := by
  have reads := Peg.reads_any read
  obtain ⟨_,t,_,⟨found,-⟩,later,-⟩ := reads
  obtain ⟨v,c,branch,-,-⟩ := reads_named_call.mp later
  exact ⟨t,v,c,found,branch⟩

/-- Where an `else` is grown together with the word before it, it is not grown together with the word behind it too:
that would be an assignment. -/
theorem else_ends (failed : outcome .asgnStmt ("print_state".toList ++ text) = .fail false)
    (read : elsePart.take outcome text = .ok p rest cut) :
    WordEnd text ∨ ∃ t, text = "else".toList ++ t ∧ WordEnd t := by
  obtain ⟨t,v,c,found,branch⟩ := elsePart_front read
  obtain ⟨front,ends⟩ := tokenRest?_eq_some.mp found
  by_cases word : WordEnd text
  · exact .inl word
  right
  have glued : text = "else".toList ++ t := by
    cases text with
    | nil => exact absurd WordEnd.nil word
    | cons d text =>
      have letter : Text.isWordChar d = true := by
        by_contra other
        exact word (.cons (by simpa using other) text)
      rwa [skipped_word letter] at front
  refine ⟨t,glued,?_⟩
  rcases wordEnd_or_glued (by decide) ends with apart | line
  · exact apart
  · rw [glued,← List.append_assoc] at failed
    exact absurd failed (asgnStmt_glued isWord_printStateElse line branch)

/-- An `else` can follow a statement that it does not belong to. -/
theorem mayFollow_else (closed : yes.isOpen = false)
    (prints : yes.endsPrinting = true → outcome .asgnStmt ("print_state".toList ++ mid) = .fail false)
    (read : elsePart.take outcome mid = .ok p rest cut) (junction : Junction mid next) {u : List Char}
    (again : elsePart.take outcome next = .ok q u last) : MayFollow (.stmt yes) next := by
  have stops : Stops stmtMarks next := stops_of_take rfl (by decide) again
  refine ⟨stops,by rintro _ ⟨⟩; simp [closed],?_⟩
  rintro _ ⟨⟩ ends
  rcases else_ends (prints ends) read with word | ⟨t,rfl,word⟩
  · exact asgnStmt_fail isWord_printState (junction.wordEnd word) (stops.mono (by decide))
  · obtain ⟨after,v,c,found,branch⟩ := elsePart_front again
    rcases junction.head with apart | same
    · exact asgnStmt_fail isWord_printState apart (stops.mono (by decide))
    · have glued : next = "else".toList ++ after := by
        rw [← (tokenRest?_eq_some.mp found).1]
        cases next with
        | nil => cases same
        | cons d next => cases same; exact (skipped_word (by decide) next).symm
      rw [glued] at junction
      have behind := junction.of_append (List.all_eq_true.mp rfl)
      rw [glued,← List.append_assoc]
      exact asgnStmt_fail isWord_printStateElse (behind.wordEnd word) ((outcome_begins rfl branch).mono (by decide))

end Between

end Grammar

end WhileExec
