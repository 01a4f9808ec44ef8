import Mathlib
import WhileExec.Proofs.Grammar.Layout
import WhileExec.Proofs.Grammar.Remainders

/-!
# Lists of statements one behind the other

Two texts that are lists of statements make one list with a semicolon between them. Every statement of the first text is
read as before, though something follows now: before a semicolon a statement is always read again, as is what was tried
in vain at its end.
-/

namespace WhileExec.Grammar

section Semicolons

variable {text mid rest joint : List Char} {value : Reading} {values others : List Reading} {cut : Bool}

/-- Before a semicolon a statement is read again, whatever follows the semicolon. -/
theorem stmt_before_semicolon {more : List Char} (read : outcome .stmt text = .ok value mid cut)
    (front : skipped (mid ++ joint) = ';' :: more) :
    ∃ cut, outcome .stmt (text ++ joint) = .ok value (mid ++ joint) cut := by
  have apart : Apart (mid ++ joint) := .of_front front (by decide) (by decide)
  obtain ⟨part,_,rfl,-,again⟩ := outcome_local read rfl
  rw [List.append_assoc]
  exact again _ (.of_wordEnd mid apart.ends) (apart.mayFollow value)

theorem Listing.front {word : String} {r : Rule} (listing : Listing word r text (value :: values) rest) :
    ∃ more, tokenRest? word.toList (skipped text) = some more := by
  cases listing with
  | more marked =>
    have reads := Peg.reads_any marked
    exact ⟨_,reads.1⟩

theorem semicolon_again {more : List Char} (found : tokenRest? ";".toList (skipped text) = some more)
    (joint : List Char) : tokenRest? ";".toList (skipped (text ++ joint)) = some (more ++ joint) := by
  obtain ⟨part,rfl,piece⟩ := exists_piece (tokenRest?_eq_some.mp found).1 (by decide)
  rw [List.append_assoc,piece.skips]
  exact tokenRest?_eq_some.mpr ⟨rfl,runsOn_symbol (by decide) _⟩

theorem Listing.append (listing : Listing ";" .stmt text values rest)
    (later : Listing ";" .stmt (rest ++ joint) (value :: others) mid) :
    Listing ";" .stmt (text ++ joint) (values ++ value :: others) mid := by
  induction listing with
  | done => exact later
  | @more text inner after rest v values cut marked read next ih =>
    have behind := ih later
    have reads := Peg.reads_any marked
    obtain ⟨more,found⟩ : ∃ more, tokenRest? ";".toList (skipped (after ++ joint)) = some more := by
      cases values <;> exact behind.front
    obtain ⟨c,again⟩ := stmt_before_semicolon read (tokenRest?_eq_some.mp found).1
    exact .more (take_found (semicolon_again reads.1 joint)) again behind

theorem stmtList_append {items others : List Stmt} {next : List Char} {last : Bool} (gap : Gap mid)
    (one : outcome .stmtList text = .ok (.stmt (.block items)) mid cut)
    (two : outcome .stmtList next = .ok (.stmt (.block others)) rest last) :
    outcome .stmtList (text ++ ';' :: '\n' :: next) = .ok (.stmt (.block (items ++ others))) rest false := by
  obtain ⟨s,items,inner,same,first,listing⟩ := stmtList_listing one
  cases same
  obtain ⟨t,others,behind,same,second,further⟩ := stmtList_listing two
  cases same
  have front : skipped (mid ++ ';' :: '\n' :: next) = ';' :: '\n' :: next := by
    rw [gap.skipped]
    exact skipped_solid (by decide) (by decide) _
  have found : tokenRest? ";".toList (skipped (mid ++ ';' :: '\n' :: next)) = some ('\n' :: next) :=
    tokenRest?_eq_some.mpr ⟨front,runsOn_symbol (by decide) _⟩
  have later : Listing ";" .stmt (mid ++ ';' :: '\n' :: next) (.stmt t :: others.map .stmt) rest :=
    .more (take_found found) (by rw [outcome_blank rfl (by decide),second]) further
  have whole := listing.append later
  obtain ⟨more,start⟩ : ∃ more, tokenRest? ";".toList (skipped (inner ++ ';' :: '\n' :: next)) = some more := by
    cases items <;> exact whole.front
  obtain ⟨c,again⟩ := stmt_before_semicolon first (tokenRest?_eq_some.mp start).1
  cases options_cut rfl rfl again
  rw [List.cons_append]
  exact stmtList_ok again (by rw [List.map_append]; exact whole)

end Semicolons

/-- The text ends with a comment whose line is not ended. -/
def EndsInComment (text : List Char) : Prop :=
  ∃ before words, text = before ++ '#' :: words ∧ ∀ d ∈ words, endsLine d = false

theorem LastGap.gap {gap before : List Char} (isGap : LastGap gap) (closed : ¬ EndsInComment (before ++ gap)) :
    Gap gap := by
  cases isGap with
  | closed isGap => exact isGap
  | @comment gap words isGap inside => exact absurd ⟨before ++ gap,words,by simp,inside⟩ closed

theorem not_endsInComment {text : List Char} {c : Char} (last : text.getLast? = some c) (ends : endsLine c = true) :
    ¬ EndsInComment text := by
  rintro ⟨before,words,rfl,inside⟩
  rw [List.getLast?_append_of_ne_nil _ (by simp)] at last
  rcases List.mem_cons.mp (List.mem_of_getLast? last) with rfl | member
  · exact absurd ends (by decide)
  · rw [inside c member] at ends
    contradiction

/-- Joining two lists of statements by a semicolon gives the statements of the first and then those of the second, and
reading stops where it stops in the second. -/
theorem read_joined {one two : String} {items others : List Stmt} {stop last : Nat}
    (first : Reading.read "stmt_list" one = .ok (.stmt (.block items),stop)) (left : LastGap (one.toList.drop stop))
    (closed : ¬ EndsInComment one.toList)
    (second : Reading.read "stmt_list" two = .ok (.stmt (.block others),last)) :
    Reading.read "stmt_list" (one ++ ";\n" ++ two) = .ok (.stmt (.block (items ++ others)),one.length + 2 + last) := by
  obtain ⟨mid,_,read,-,rfl⟩ := (Reading.read_eq_ok (r := .stmtList)).mp first
  obtain ⟨rest,_,again,within,rfl⟩ := (Reading.read_eq_ok (r := .stmtList)).mp second
  rw [← List.take_append_drop stop one.toList] at closed
  have whole := stmtList_append (left.gap closed) read again
  have text : (one ++ ";\n" ++ two).toList = one.toList ++ [';','\n'] ++ two.toList := by simp
  have place : one.length + 2 = (one.toList ++ [';','\n']).length := by simp [← String.length_toList]
  refine (Reading.read_eq_ok (r := .stmtList)).mpr ?_
  rw [text,place]
  refine ⟨two.toList.drop last,false,?_,?_,(List.drop_length_add_append last).symm⟩
  · rw [List.append_assoc]
    exact whole
  · simp only [List.length_append] at within ⊢
    omega

/-- Sets a variable, and copies it if it is positive. -/
def copying : List Stmt :=
  [.assign "x" (.int 1),.ifOnly (.app .compare ">" [.var "x",.int 0]) (.assign "y" (.var "x"))]

set_option maxRecDepth 2000 in
/-- A comment stands behind the first list, and a word is left of the second one. -/
theorem read_joined_commented :
    Reading.read "stmt_list" "x := 1; if x > 0 then y := x # no\n" = .ok (.stmt (.block copying),28) ∧
      Reading.read "stmt_list" "skip; havoc z else" = .ok (.stmt (.block [.skip,.havoc ["z"]]),13) ∧
      Reading.read "stmt_list" ("x := 1; if x > 0 then y := x # no\n" ++ ";\n" ++ "skip; havoc z else") =
        .ok (.stmt (.block (copying ++ [.skip,.havoc ["z"]])),49) := by
  have first : Reading.read "stmt_list" "x := 1; if x > 0 then y := x # no\n" = .ok (.stmt (.block copying),28) :=
    (Reading.read_eq_ok (r := .stmtList)).mpr ⟨_,_,rfl,by decide,rfl⟩
  have second : Reading.read "stmt_list" "skip; havoc z else" = .ok (.stmt (.block [.skip,.havoc ["z"]]),13) :=
    (Reading.read_eq_ok (r := .stmtList)).mpr ⟨_,_,rfl,by decide,rfl⟩
  have inside : ∀ d ∈ [' ','n','o'], endsLine d = false := by simp [endsLine]
  have comment : Gap (' ' :: '#' :: ([' ','n','o'] ++ ['\n'])) :=
    .blank (by decide) (.comment inside (by decide) .none)
  have left : "x := 1; if x > 0 then y := x # no\n".toList.drop 28 = ' ' :: '#' :: ([' ','n','o'] ++ ['\n']) := by decide
  have last : "x := 1; if x > 0 then y := x # no\n".toList.getLast? = some '\n' := by decide
  exact ⟨first,second,read_joined first (left ▸ .closed comment) (not_endsInComment last (by decide)) second⟩

end WhileExec.Grammar
