import Mathlib
import WhileExec.Proofs.Grammar.Following
import WhileExec.Proofs.Grammar.Table

/-!
# Reading depends on what is read

Whatever a rule has read, it reads again from the same part of the text before any other text that does not go on with
it, `outcome_local`. So the result of reading a text does not depend on what is left of it.
-/

namespace WhileExec.Grammar

section Printing

variable {text rest : List Char} {value : Reading} {p : Parts Reading} {cut : Bool}
  {Q : Rule → List Char → Reading → List Char → Prop}

/-- What was read as the statement that prints the state is no assignment. -/
def Prints : Rule → Reading → List Char → Prop
  | .stmt, v, rest | .ifStmt, v, rest | .whileStmt, v, rest =>
      ∀ s, v = .stmt s → s.endsPrinting = true → outcome .asgnStmt ("print_state".toList ++ rest) = .fail false
  | _, _, _ => True

theorem ifStmt_reads (reads : (Rule.body .ifStmt).Reads Q text p rest) (closed : Reading.close .ifStmt p = .ok value) :
    ∃ cond yes t mid, Q .stmt t (.stmt yes) mid ∧
      ((∃ no u, Q .stmt u (.stmt no) rest ∧ value = .stmt (.ifElse cond yes no)) ∨
        (rest = mid ∧ value = .stmt (.ifOnly cond yes))) := by
  obtain ⟨_,_,_,⟨-,rfl⟩,⟨_,_,_,⟨rfl,rfl⟩,⟨_,_,_,test,⟨_,_,_,⟨-,rfl⟩,⟨_,_,_,branch,last,rfl⟩,rfl⟩,rfl⟩,rfl⟩,rfl⟩ := reads
  obtain ⟨_,_,condition,-,rfl⟩ := reads_named_call.mp test
  obtain ⟨_,_,first,known,rfl⟩ := reads_named_call.mp branch
  obtain ⟨cond,rfl,-⟩ := outcome_shape condition
  obtain ⟨yes,rfl,-⟩ := outcome_shape first
  have closed := (close_eq_ok (by decide)).mp closed
  rcases last with ⟨_,_,_,⟨-,rfl⟩,other,rfl⟩ | ⟨-,rfl,rfl⟩
  · obtain ⟨_,_,second,also,rfl⟩ := reads_named_call.mp other
    obtain ⟨no,rfl,-⟩ := outcome_shape second
    cases closed
    exact ⟨cond,yes,_,_,known,.inl ⟨no,_,also,rfl⟩⟩
  · cases closed
    exact ⟨cond,yes,_,_,known,.inr ⟨rfl,rfl⟩⟩

theorem whileStmt_reads (reads : (Rule.body .whileStmt).Reads Q text p rest)
    (closed : Reading.close .whileStmt p = .ok value) :
    ∃ cond body inv t, Q .stmt t (.stmt body) rest ∧ value = .stmt (.loop cond body inv) := by
  obtain ⟨_,_,_,⟨-,rfl⟩,⟨_,_,_,test,⟨_,_,_,kept,⟨_,_,_,⟨-,rfl⟩,inner,rfl⟩,rfl⟩,rfl⟩,rfl⟩ := reads
  obtain ⟨_,_,condition,-,rfl⟩ := reads_named_call.mp test
  obtain ⟨_,_,inside,known,rfl⟩ := reads_named_call.mp inner
  obtain ⟨cond,rfl,-⟩ := outcome_shape condition
  obtain ⟨body,rfl,-⟩ := outcome_shape inside
  have closed := (close_eq_ok (by decide)).mp closed
  rcases kept with ⟨_,_,_,⟨-,rfl⟩,inv,rfl⟩ | ⟨-,rfl,rfl⟩
  · obtain ⟨_,_,invariant,-,rfl⟩ := reads_named_call.mp inv
    obtain ⟨e,rfl,-⟩ := outcome_shape invariant
    cases closed
    exact ⟨cond,body,some e,_,known,rfl⟩
  · cases closed
    exact ⟨cond,body,none,_,known,rfl⟩

theorem stmt_reads (reads : (Rule.body .stmt).Reads Q text p rest) (closed : Reading.close .stmt p = .ok value) :
    ∃ r cut, outcome r text = .ok value rest cut ∧ Q r text value rest ∧
      (r = .skipStmt ∨ outcome .skipStmt text = .fail false ∧
        (r = .asgnStmt ∨ outcome .asgnStmt text = .fail false ∧ r ∈ .blockStmt :: worded)) := by
  have closed := (close_eq_ok (by decide)).mp closed
  have called {r : Rule} (reads : (Peg.call r).Reads Q text p rest) :
      ∃ cut, outcome r text = .ok value rest cut ∧ Q r text value rest := by
    obtain ⟨_,cut,read,known,rfl⟩ := reads
    cases closed
    exact ⟨cut,read,known⟩
  rcases reads with now | ⟨noSkip,now | ⟨noAssign,later⟩⟩
  · obtain ⟨cut,read,known⟩ := called now
    exact ⟨_,cut,read,known,.inl rfl⟩
  · obtain ⟨cut,read,known⟩ := called now
    exact ⟨_,cut,read,known,.inr ⟨Taken.of_map_fail noSkip,.inl rfl⟩⟩
  · obtain ⟨e,member,now⟩ := firstOf_reads later
    obtain ⟨r,among,rfl⟩ : ∃ r ∈ Rule.blockStmt :: worded, e = .call r := by
      simp only [List.mem_cons,List.not_mem_nil,or_false] at member
      rcases member with rfl | rfl | rfl | rfl | rfl | rfl | rfl <;> exact ⟨_,by decide,rfl⟩
    obtain ⟨cut,read,known⟩ := called now
    exact ⟨r,cut,read,known,.inr ⟨Taken.of_map_fail noSkip,.inr ⟨Taken.of_map_fail noAssign,among⟩⟩⟩

theorem not_endsPrinting {r : Rule} {s : Stmt}
    (known : r ∈ [Rule.skipStmt,.asgnStmt,.blockStmt,.assertStmt,.assumeStmt,.havocStmt])
    (read : outcome r text = .ok (.stmt s) rest cut) : s.endsPrinting = false := by
  simp only [List.mem_cons,List.not_mem_nil,or_false] at known
  rcases known with rfl | rfl | rfl | rfl | rfl | rfl
  · obtain ⟨_,-,closed⟩ := outcome_reads rfl read
    cases (close_eq_ok (by decide)).mp closed
    rfl
  · obtain ⟨_,_,_,same,-⟩ := outcome_shape read
    cases same
    rfl
  · obtain ⟨_,same,-⟩ := outcome_shape read
    cases same
    rfl
  all_goals
    obtain ⟨_,⟨_,_,_,⟨-,rfl⟩,part,rfl⟩,closed⟩ := outcome_reads rfl read
    obtain ⟨_,_,inner,-,rfl⟩ := reads_named_call.mp part
    obtain ⟨_,rfl,-⟩ := outcome_shape inner
    cases (close_eq_ok (by decide)).mp closed
    rfl

theorem printState_front (read : outcome .printStateStmt text = .ok value rest cut) :
    skipped text = "print_state".toList ++ rest := by
  obtain ⟨_,⟨found,-⟩,-⟩ := outcome_reads rfl read
  rw [skipped_skipped] at found
  exact (tokenRest?_eq_some.mp found).1

theorem outcome_prints {r : Rule} (read : outcome r text = .ok value rest cut) : Prints r value rest := by
  refine outcome_induction (Q := fun r _ v u => Prints r v u) ?_ read
  intro r text value rest p reads closed
  cases r with
  | ifStmt =>
    obtain ⟨cond,yes,t,mid,left,⟨no,u,right,rfl⟩ | ⟨rfl,rfl⟩⟩ := ifStmt_reads reads closed
    · rintro _ ⟨⟩ ends
      exact right no rfl ends
    · rintro _ ⟨⟩ ends
      exact left yes rfl ends
  | whileStmt =>
    obtain ⟨cond,body,inv,t,inner,rfl⟩ := whileStmt_reads reads closed
    rintro _ ⟨⟩ ends
    exact inner body rfl ends
  | stmt =>
    rintro s rfl ends
    have plain {r : Rule} {c : Bool}
        (known : r ∈ [Rule.skipStmt,.asgnStmt,.blockStmt,.assertStmt,.assumeStmt,.havocStmt])
        (read : outcome r (skipped text) = .ok (.stmt s) rest c) :
        outcome .asgnStmt ("print_state".toList ++ rest) = .fail false := by
      rw [not_endsPrinting known read] at ends
      contradiction
    obtain ⟨r,c,read,known,rfl | ⟨-,rfl | ⟨noAssign,among⟩⟩⟩ := stmt_reads reads closed
    · exact plain (by decide) read
    · exact plain (by decide) read
    · simp only [worded,List.mem_cons,List.not_mem_nil,or_false] at among
      rcases among with rfl | rfl | rfl | rfl | rfl | rfl | rfl
      · exact plain (by decide) read
      · exact known s rfl ends
      · exact known s rfl ends
      · exact plain (by decide) read
      · exact plain (by decide) read
      · exact plain (by decide) read
      · rwa [← printState_front read,outcome_skipped rfl]
  | start | stmtList | asgnStmt | blockStmt | skipStmt | printStateStmt | assertStmt | assumeStmt | havocStmt | varList
  | bexp | bterm | bfactor | batom | boolConst | rexp | rop | aexp | addition | subtraction | term | mult | division
  | factor | negNumber | atom | name | number | integerText | nameText | newlineText => trivial

end Printing

section Statements

variable {text rest next other : List Char} {value : Reading} {p : Parts Reading} {cut : Bool}

theorem carries_asgnStmt (reads : (Rule.body .asgnStmt).Reads Local text p rest) :
    Carries ((Rule.body .asgnStmt).take outcome) (Stops ['+','-','*','/']) text p rest := by
  obtain ⟨_,_,_,lhs,⟨_,_,_,⟨found,rfl⟩,rhs,rfl⟩,rfl⟩ := reads
  have name := carries_named_call (F := fun _ => True) rfl lhs fun _ _ _ _ => id
  have term := carries_named_call (F := Stops ['+','-','*','/']) rfl rhs fun _ _ _ _ => id
  exact carries_seq name (carries_seq (carries_token found (by decide)) term fun _ _ _ _ _ => trivial)
    fun _ _ _ _ _ => trivial

theorem carries_keyword {word field : String} {r : Rule} {chars : List Char} (written : word.toList ≠ [])
    (skips : r.skips = true) (known : ∀ v other, Stops chars other → Follow r v other)
    (reads : (Peg.seq (.token word) (.named field (.call r))).Reads Local text p rest) :
    Carries ((Peg.seq (.token word) (.named field (.call r))).take outcome) (Stops chars) text p rest := by
  obtain ⟨_,_,_,⟨found,rfl⟩,inner,rfl⟩ := reads
  exact carries_seq (carries_token found written) (carries_named_call skips inner fun v _ _ => known v)
    fun _ _ _ _ _ => trivial

theorem elsePart_take {t : List Char} (found : tokenRest? "else".toList (skipped text) = some t)
    (branch : outcome .stmt t = .ok value rest cut) :
    elsePart.take outcome text = .ok ⟨some value,none,[("else_stmt",value)]⟩ rest cut := by
  simp only [elsePart,Peg.take_seq,take_found found,Peg.take_named,Peg.take_call,branch,Taken.map_ok,Taken.andThen_ok,
    Taken.behindCut_ok,Bool.false_or]
  rfl

/-- A conditional statement. An `else` that was read keeps its place, and one that is missing stays missing. -/
theorem carries_ifStmt (reads : (Rule.body .ifStmt).Reads Local text p rest)
    (closed : Reading.close .ifStmt p = .ok value) :
    Carries ((Rule.body .ifStmt).take outcome) (MayFollow value) text p rest := by
  obtain ⟨_,_,_,⟨begun,rfl⟩,⟨_,_,_,⟨rfl,rfl⟩,⟨_,_,_,test,going,rfl⟩,rfl⟩,rfl⟩ := reads
  obtain ⟨_,_,_,⟨going,rfl⟩,⟨_,mid,_,branch,last,rfl⟩,rfl⟩ := going
  have condition := carries_named_call (F := Stops ('o' :: 'a' :: testMarks)) rfl test fun _ _ _ _ => id
  obtain ⟨_,_,tested,-,rfl⟩ := reads_named_call.mp test
  obtain ⟨cond,rfl,-⟩ := outcome_shape tested
  obtain ⟨_,_,first,known,rfl⟩ := reads_named_call.mp branch
  obtain ⟨yes,rfl,-,dangling⟩ := outcome_shape first
  have left := carries_named_call (F := MayFollow (.stmt yes)) rfl branch fun v _ read other follows => by
    cases first.symm.trans read
    exact follows
  have closed := (close_eq_ok (by decide)).mp closed
  refine carries_seq (carries_token begun (by decide)) (carries_cut (carries_seq condition
    (carries_seq (carries_token going (by decide)) ?_ fun _ _ _ _ _ => trivial)
    fun _ _ _ _ read => stops_of_take rfl (by decide) read)) fun _ _ _ _ _ => trivial
  rcases last with ⟨_,_,_,⟨found,rfl⟩,second,rfl⟩ | ⟨missing,rfl,rfl⟩
  · obtain ⟨_,_,branched,-,rfl⟩ := reads_named_call.mp second
    obtain ⟨no,rfl,-⟩ := outcome_shape branched
    cases closed
    have right := carries_named_call (F := MayFollow (.stmt (.ifElse cond yes no))) rfl second
        fun v _ read other follows => by
      cases branched.symm.trans read
      exact follows.part id id
    have whole := elsePart_take found branched
    have shut : yes.isOpen = false := by
      by_contra isOpen
      rw [dangling (by simpa using isOpen)] at whole
      cases whole
    refine carries_seq left (carries_optional (carries_seq (carries_token found (by decide)) right
      fun _ _ _ _ _ => trivial)) fun next u c junction read => ?_
    change (elsePart.take outcome next).orElse (.ok {} next false) = _ at read
    rcases Taken.orElse_eq_ok.mp read with ⟨-,_,again⟩ | ⟨-,none⟩
    · exact mayFollow_else shut (outcome_prints first yes rfl) whole junction again
    · cases none
  · cases closed
    refine carries_seq_missing left fun other follows => ?_
    exact ⟨follows.part (fun _ => rfl) id,follows.noElse _ rfl rfl⟩

theorem carries_whileStmt (reads : (Rule.body .whileStmt).Reads Local text p rest)
    (closed : Reading.close .whileStmt p = .ok value) :
    Carries ((Rule.body .whileStmt).take outcome) (MayFollow value) text p rest := by
  obtain ⟨_,_,_,⟨begun,rfl⟩,⟨_,_,_,test,⟨_,_,_,kept,⟨_,_,_,⟨going,rfl⟩,body,rfl⟩,rfl⟩,rfl⟩,rfl⟩ := reads
  have condition := carries_named_call (F := Stops ('o' :: 'a' :: testMarks)) rfl test fun _ _ _ _ => id
  obtain ⟨_,_,tested,-,rfl⟩ := reads_named_call.mp test
  obtain ⟨cond,rfl,-⟩ := outcome_shape tested
  obtain ⟨_,_,inside,-,rfl⟩ := reads_named_call.mp body
  obtain ⟨inner,rfl,-⟩ := outcome_shape inside
  have closed := (close_eq_ok (by decide)).mp closed
  have loop (inv : Option Expr) (same : value = .stmt (.loop cond inner inv)) :=
    carries_named_call (F := MayFollow value) rfl body fun v _ read other follows => by
      cases inside.symm.trans read
      rw [same] at follows
      exact follows.part id id
  refine carries_seq (carries_token begun (by decide)) (carries_seq condition ?_ ?_) fun _ _ _ _ _ => trivial
  · rcases kept with ⟨_,_,_,⟨found,rfl⟩,invariant,rfl⟩ | ⟨missing,rfl,rfl⟩
    · have kept := carries_named_call (F := Stops ('o' :: 'a' :: testMarks)) rfl invariant fun _ _ _ _ => id
      obtain ⟨_,_,read,-,rfl⟩ := reads_named_call.mp invariant
      obtain ⟨inv,rfl,-⟩ := outcome_shape read
      have value : value = .stmt (.loop cond inner (some inv)) := by
        cases closed
        rfl
      have invariant := carries_seq (carries_token found (by decide)) kept fun _ _ _ _ _ => trivial
      have body := carries_seq (carries_token going (by decide)) (loop _ value) fun _ _ _ _ _ => trivial
      refine carries_seq (carries_optional invariant) body ?_
      exact fun _ _ _ _ read => stops_of_take rfl (by decide) read
    · have value : value = .stmt (.loop cond inner none) := by
        cases closed
        rfl
      refine carries_missing_seq (carries_seq (carries_token going (by decide)) (loop _ value) fun _ _ _ _ _ => trivial)
        fun next u c read => ?_
      have stops : Stops ['i'] next := stops_of_take rfl (by decide) read
      rw [Peg.take_seq,stops.token 'i' rfl (by decide)]
      rfl
  · intro next u c _ read
    obtain ⟨_,_,_,_,first,later,-⟩ := Taken.andThen_eq_ok.mp read
    obtain ⟨_,behind,-⟩ := Taken.map_eq_ok.mp later
    rw [Peg.take_optional] at first
    rcases Taken.orElse_eq_ok.mp first with ⟨-,_,invariant⟩ | ⟨-,none⟩
    · exact stops_of_take rfl (by decide) invariant
    · cases none
      exact stops_of_take rfl (by decide) behind

theorem carries_items {word : String} {r : Rule} {c : Char} {F : List Char → Prop} (skips : r.skips = true)
    (first : word.toList.head? = some c) (before : ∀ next u, tokenRest? word.toList (skipped next) = some u → F next)
    (known : ∀ v other, F other → Follow r v other)
    (reads : (Peg.gather (.token word) (.call r)).Reads Local text p rest) :
    Carries ((Peg.gather (.token word) (.call r)).take outcome) (fun other => F other ∧ Stops [c] other) text p
      rest := by
  have written : word.toList ≠ [] := by
    intro none
    rw [none] at first
    cases first
  refine carries_gather (F := F) (by simpa [Peg.solid] using written) ?_ ?_ ?_ ?_ reads
  · rintro _ _ _ ⟨found,rfl⟩
    exact carries_token found written
  · rintro _ _ _ ⟨v,_,_,inner,rfl⟩
    exact ((inner skips).mono (known v)).map _
  · intro next q u cut read
    have again := Peg.reads_any read
    exact before next u again.1
  · rintro other ⟨follows,stops⟩
    exact ⟨follows,stops.token c first (by simp)⟩

/-- A statement with a condition behind its keyword is not an assignment. -/
theorem conditional_front {r : Rule} (known : r ∈ [Rule.ifStmt,.whileStmt,.assertStmt,.assumeStmt])
    (read : outcome r next = .ok value other cut) :
    (∃ mid, skipped next = r.keyword.toList ++ mid) ∧ outcome .asgnStmt next = .fail false := by
  have begun {word : String} {mid u : List Char} {v : Reading} {c : Bool} (isWord : IsWord word.toList)
      (letters : word.toList.all Text.isAlphanumeric = true)
      (found : tokenRest? word.toList (skipped (skipped next)) = some mid) (test : outcome .bexp mid = .ok v u c) :
      (∃ mid, skipped next = word.toList ++ mid) ∧ outcome .asgnStmt next = .fail false := by
    rw [skipped_skipped] at found
    obtain ⟨front,ends⟩ := tokenRest?_eq_some.mp found
    refine ⟨⟨mid,front⟩,?_⟩
    rw [← outcome_skipped rfl,front]
    exact asgnStmt_fail_condition isWord letters ends test
  simp only [List.mem_cons,List.not_mem_nil,or_false] at known
  rcases known with rfl | rfl | rfl | rfl
  · obtain ⟨_,⟨_,_,_,⟨found,-⟩,⟨_,_,_,⟨-,rfl⟩,⟨_,_,_,test,-⟩,-⟩,-⟩,-⟩ := outcome_reads rfl read
    obtain ⟨_,_,tested,-,-⟩ := reads_named_call.mp test
    exact begun (isWord_keyword (r := .ifStmt) (by decide)) (by decide) found tested
  · obtain ⟨_,⟨_,_,_,⟨found,-⟩,⟨_,_,_,test,-⟩,-⟩,-⟩ := outcome_reads rfl read
    obtain ⟨_,_,tested,-,-⟩ := reads_named_call.mp test
    exact begun (isWord_keyword (r := .whileStmt) (by decide)) (by decide) found tested
  · obtain ⟨_,⟨_,_,_,⟨found,-⟩,test,-⟩,-⟩ := outcome_reads rfl read
    obtain ⟨_,_,tested,-,-⟩ := reads_named_call.mp test
    exact begun (isWord_keyword (r := .assertStmt) (by decide)) (by decide) found tested
  · obtain ⟨_,⟨_,_,_,⟨found,-⟩,test,-⟩,-⟩ := outcome_reads rfl read
    obtain ⟨_,_,tested,-,-⟩ := reads_named_call.mp test
    exact begun (isWord_keyword (r := .assumeStmt) (by decide)) (by decide) found tested

theorem havocStmt_front (read : outcome .havocStmt next = .ok value other cut) (stops : Stops [':'] other) :
    (∃ mid, skipped next = "havoc".toList ++ mid) ∧ outcome .asgnStmt next = .fail false := by
  obtain ⟨_,⟨_,mid,_,⟨found,-⟩,vars,-⟩,-⟩ := outcome_reads rfl read
  obtain ⟨_,_,names,-,-⟩ := reads_named_call.mp vars
  rw [skipped_skipped] at found
  obtain ⟨front,ends⟩ := tokenRest?_eq_some.mp found
  refine ⟨⟨mid,front⟩,?_⟩
  rw [← outcome_skipped rfl,front]
  exact asgnStmt_fail_names (isWord_keyword (r := .havocStmt) (by decide)) (by decide) ends names stops

theorem stmt_again {r : Rule} (among : r ∈ worded) (read : outcome r next = .ok value other cut)
    (follows : MayFollow value other) : outcome .stmt next = .ok value other false := by
  by_cases conditional : r ∈ [Rule.ifStmt,.whileStmt,.assertStmt,.assumeStmt]
  · obtain ⟨⟨mid,front⟩,noAssign⟩ := conditional_front conditional read
    exact stmt_of_keyword among front noAssign read
  have others : r = .havocStmt ∨ r = .printStateStmt := by
    simp only [worded,List.mem_cons,List.not_mem_nil,or_false] at among conditional
    tauto
  rcases others with rfl | rfl
  · obtain ⟨⟨mid,front⟩,noAssign⟩ := havocStmt_front read (follows.stops.mono (by decide))
    exact stmt_of_keyword among front noAssign read
  · have front := printState_front read
    obtain ⟨_,-,closed⟩ := outcome_reads rfl read
    cases (close_eq_ok (by decide)).mp closed
    have noAssign := follows.noAssign _ rfl rfl
    rw [← front,outcome_skipped rfl] at noAssign
    exact stmt_of_keyword among front noAssign read

/-- An assignment that was not read as `skip` is not read so before another text. -/
theorem skipStmt_fail_assign {u : List Char} {c : Bool} (failed : outcome .skipStmt text = .fail false)
    (read : outcome .asgnStmt text = .ok value rest cut) (again : outcome .asgnStmt next = .ok value u c) :
    outcome .skipStmt next = .fail false := by
  obtain ⟨name,rhs,after,rfl,-,-,ends,front⟩ := outcome_shape read
  obtain ⟨_,_,behind,same,-,-,stop,further⟩ := outcome_shape again
  cases same
  have before := skipStmt_failed failed
  rw [front] at before
  have letters : "skip".toList.all Text.isWordChar = true := by decide
  have after := (tokenRest?_append letters stop _).mpr ((tokenRest?_append letters ends _).mp before)
  have skip : (Peg.token "skip").take outcome next = .fail false := by
    unfold Peg.take
    rw [further,after]
  exact keyword_fail (by decide) skip

theorem blockStmt_front (read : outcome .blockStmt next = .ok value other cut) :
    outcome .skipStmt next = .fail false ∧ outcome .asgnStmt next = .fail false := by
  obtain ⟨_,⟨_,inner,_,⟨found,-⟩,-⟩,-⟩ := outcome_reads rfl read
  rw [skipped_skipped] at found
  have front : skipped next = '\x7b' :: inner := (tokenRest?_eq_some.mp found).1
  have noName : outcome .name next = .fail false := by
    refine name_fail fun c first => .inl ?_
    rw [front] at first
    cases first
    decide
  constructor
  · exact keyword_fail (by decide) ((stops_front front (by decide : '\x7b' ∉ ['s'])).token 's' rfl (by decide))
  · rw [outcome_body rfl]
    simp only [Rule.body,Peg.all,Peg.take_seq,Peg.take_named,Peg.take_call,outcome_skipped (r := .name) rfl,noName,
      Taken.map_fail,Taken.andThen_fail,Taken.close_fail]

theorem carries_stmt (reads : (Rule.body .stmt).Reads Local text p rest) (closed : Reading.close .stmt p = .ok value) :
    Carries (outcome .stmt) (MayFollow value) text value rest := by
  obtain ⟨r,c,read,known,rfl | ⟨noSkip,rfl | ⟨-,among⟩⟩⟩ := stmt_reads reads closed
  · refine Carries.lift (known rfl) (fun _ => id) fun next other c again _ => ⟨false,?_⟩
    rw [outcome_stmt,List.map_cons,firstTaken_cons,again]
    rfl
  · refine Carries.lift (known rfl) (fun _ => id) fun next other c again _ => ⟨false,?_⟩
    rw [outcome_stmt,List.map_cons,List.map_cons,firstTaken_cons,skipStmt_fail_assign noSkip read again,
      Taken.orElse_fail,firstTaken_cons,again]
    rfl
  · simp only [worded,List.mem_cons,List.not_mem_nil,or_false] at among
    rcases among with rfl | rfl | rfl | rfl | rfl | rfl | rfl
    · refine Carries.lift (known rfl) (fun _ => id) fun next other c again _ => ⟨false,?_⟩
      obtain ⟨noSkip,noAssign⟩ := blockStmt_front again
      rw [outcome_stmt]
      simp only [List.map_cons,firstTaken_cons,noSkip,noAssign,again,Taken.orElse_fail,Taken.orElse_ok]
    all_goals exact Carries.lift (known rfl) (fun _ => id) fun next other c again follows =>
      ⟨false,stmt_again (by decide) again follows⟩

end Statements

section Rules

variable {r : Rule} {text rest : List Char} {value : Reading} {p : Parts Reading} {cut : Bool}

theorem carries_atom (reads : (Rule.body .atom).Reads Local (skipped text) p rest)
    (closed : Reading.ofParts? .atom p = some value) :
    Carries (outcome .atom) (Follow .atom value) text value rest := by
  rcases reads with ⟨_,_,_,known,rfl⟩ | ⟨-,⟨_,_,_,known,rfl⟩ | ⟨-,none⟩⟩
  · cases closed
    refine known.passes rfl rfl (fun _ => id) fun next other c again _ => ?_
    rw [outcome_atom,again]
    rfl
  · cases closed
    refine known.passes rfl rfl (fun _ => id) fun next other c again _ => ?_
    rw [outcome_atom,name_fail_of_number again,again]
    rfl
  · exact none.elim

theorem carries_factor (reads : (Rule.body .factor).Reads Local (skipped text) p rest)
    (closed : Reading.close .factor p = .ok value) :
    Carries (outcome .factor) (Follow .factor value) text value rest := by
  rcases reads with ⟨_,_,_,known,rfl⟩ | ⟨-,⟨_,_,_,known,rfl⟩ | ⟨-,enclosed | ⟨-,none⟩⟩⟩
  · cases (close_eq_ok (by decide)).mp closed
    refine known.passes rfl rfl (fun _ => id) fun next other c again _ => ?_
    rw [outcome_factor,again]
    rfl
  · cases (close_eq_ok (by decide)).mp closed
    refine known.passes rfl rfl (fun _ => id) fun next other c again _ => ?_
    obtain ⟨more,front⟩ := negNumber_front again
    rw [outcome_factor,atom_fail_front front (by decide),again]
    rfl
  · exact carries_of_body rfl (carries_factor_enclosed enclosed) closed
  · exact none.elim

theorem carries_batom (reads : (Rule.body .batom).Reads Local (skipped text) p rest)
    (closed : Reading.close .batom p = .ok value) :
    Carries (outcome .batom) (Follow .batom value) text value rest := by
  rcases reads with ⟨_,_,_,known,rfl⟩ | ⟨-,⟨_,_,_,known,rfl⟩ | ⟨-,enclosed | ⟨-,none⟩⟩⟩
  · cases (close_eq_ok (by decide)).mp closed
    exact known.passes rfl rfl (fun _ stops => Stops.mono stops (by decide)) fun _ _ _ again _ => batom_rexp again
  · cases (close_eq_ok (by decide)).mp closed
    refine known.passes rfl rfl (fun _ _ => trivial) fun next other c again stops => ?_
    rw [outcome_batom,rexp_fail_constant again stops,again]
    rfl
  · exact carries_of_body rfl (carries_batom_enclosed enclosed) closed
  · exact none.elim

/-- Whatever was read is read again before any other text that may follow it. -/
theorem outcome_local (read : outcome r text = .ok value rest cut) : Local r text value rest := by
  refine outcome_induction (Q := Local) ?_ read
  intro r text value rest p reads closed skips
  cases r with
  | integerText | nameText | newlineText => cases skips
  | name =>
    obtain ⟨_,_,called,-,rfl⟩ := reads
    obtain ⟨word,rfl,carries⟩ := local_name called
    cases (close_eq_ok (by decide)).mp closed
    exact carries
  | number =>
    obtain ⟨_,_,called,-,rfl⟩ := reads
    exact carries_of_body rfl ((carries_integer called).map _) closed
  | negNumber =>
    obtain ⟨_,_,_,⟨found,rfl⟩,⟨_,_,_,⟨rfl,rfl⟩,⟨_,⟨v,_,_,known,rfl⟩,rfl⟩,rfl⟩,rfl⟩ := reads
    have number := ((known rfl).map fun value => ({ last := some value } : Parts Reading)).map
      fun p => { p with kept := p.last }
    exact carries_of_body rfl (carries_seq (carries_token found (by decide)) (carries_cut number)
      fun _ _ _ _ _ => trivial) closed
  | atom => exact carries_atom reads ((close_eq_ok (by decide)).mp closed)
  | factor => exact carries_factor reads closed
  | mult | division =>
    exact carries_of_body rfl (carries_operation [] ['*','/'] rfl rfl (by decide) (fun _ _ _ => trivial) rfl
      (fun _ _ => id) reads) closed
  | addition | subtraction =>
    exact carries_of_body rfl (carries_operation ['*','/'] ['+','-','*','/'] rfl rfl (by decide) (fun _ _ => id) rfl
      (fun _ _ => id) reads) closed
  | term =>
    have options := level_reads reads ((close_eq_ok (by decide)).mp closed)
    refine Carries.of_skipped ?_ (outcome_skipped rfl)
    refine carries_level (F := fun _ => True) termLevel termApart (fun _ _ => trivial) (fun other stops => ?_)
      (options.imp (· rfl) (Or.imp (· rfl) (· rfl)))
    exact ⟨stops.token '*' rfl (by decide),stops.token '/' rfl (by decide)⟩
  | aexp =>
    have options := level_reads reads ((close_eq_ok (by decide)).mp closed)
    refine Carries.of_skipped ?_ (outcome_skipped rfl)
    refine carries_level (F := Stops ['*','/']) sumLevel sumApart (fun _ stops => stops.mono (by simp))
      (fun other stops => ?_) (options.imp (· rfl) (Or.imp (· rfl) (· rfl)))
    exact ⟨stops.token '+' rfl (by decide),stops.token '-' rfl (by decide)⟩
  | rop => exact carries_of_body rfl (carries_rop reads) closed
  | rexp => exact carries_of_body rfl (carries_rexp reads) closed
  | boolConst => exact carries_of_body rfl (carries_boolConst reads) closed
  | batom => exact carries_batom reads closed
  | bfactor =>
    rcases reads with positive | ⟨failed,negated | ⟨-,none⟩⟩
    · exact carries_of_body rfl (carries_positive positive) closed
    · exact carries_of_body rfl (carries_negated (Taken.of_map_fail (Taken.of_map_fail failed)) negated) closed
    · exact none.elim
  | bterm => exact carries_of_body rfl (carries_chain (r := .bfactor) rfl rfl (by decide) (fun _ _ => id) reads) closed
  | bexp => exact carries_of_body rfl (carries_chain (r := .bterm) rfl rfl (by decide) (fun _ _ => id) reads) closed
  | varList =>
    have carries := carries_items (F := fun _ => True) rfl rfl (fun _ _ _ => trivial) (fun _ _ => id) reads
    exact carries_of_body rfl (carries.mono fun _ stops => ⟨trivial,stops⟩) closed
  | skipStmt | printStateStmt =>
    obtain ⟨found,rfl⟩ := reads
    exact carries_of_body rfl ((carries_token found (by decide)).mono fun _ _ => trivial) closed
  | asgnStmt =>
    exact carries_of_body rfl ((carries_asgnStmt reads).mono fun other follows => follows.stops.mono (by decide)) closed
  | blockStmt =>
    have closes (v : Reading) (next u : List Char) (closing : tokenRest? "\x7d".toList (skipped next) = some u) :
        Apart next ∧ Stops [';'] next :=
      ⟨.of_front (tokenRest?_eq_some.mp closing).1 (by decide) (by decide),stops_of_token closing rfl (by decide)⟩
    have enclosed := carries_enclosed (r := .stmtList) rfl (by decide) (by decide) closes reads
    exact carries_of_body rfl (enclosed.mono fun _ _ => trivial) closed
  | assertStmt | assumeStmt | havocStmt =>
    have carries := carries_keyword (by decide) rfl (fun _ _ => id) reads
    exact carries_of_body rfl (carries.mono fun _ follows => follows.stops.mono (by simp [stmtMarks])) closed
  | ifStmt => exact carries_of_body rfl (carries_ifStmt reads closed) closed
  | whileStmt => exact carries_of_body rfl (carries_whileStmt reads closed) closed
  | stmt => exact Carries.of_skipped (carries_stmt reads closed) (outcome_skipped rfl)
  | stmtList =>
    have before (next u : List Char) (found : tokenRest? ";".toList (skipped next) = some u) : Apart next :=
      .of_front (tokenRest?_eq_some.mp found).1 (by decide) (by decide)
    exact carries_of_body rfl (carries_items rfl rfl before (fun v _ apart => apart.mayFollow v) reads) closed
  | start =>
    obtain ⟨_,_,_,known,rfl⟩ := reads
    exact carries_of_body rfl ((known rfl).map _) closed

end Rules

end WhileExec.Grammar
