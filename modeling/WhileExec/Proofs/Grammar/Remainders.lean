import Mathlib
import WhileExec.Proofs.Grammar.Locality

/-!
# What is left of a text

Reading a program does not go on to the end of the text. What was read is read in the same way without the rest, which
can be exchanged for any text that no program goes on with; and the rest begins neither with a semicolon nor, if the
last statement could take it, with an `else` and a statement.
-/

namespace WhileExec

/-- The program that statements in a row make: a single one stands for itself. -/
def Stmt.inRow : List Stmt → Stmt
  | [s] => s
  | items => .block items

namespace Grammar

/-- A text that no program goes on with: no word runs into it, and behind its layout begins no sign or word that could
follow within a program. -/
structure Foreign (text : List Char) : Prop where
  ends : WordEnd text
  stops : Stops (';' :: 'e' :: stmtMarks) text

theorem Foreign.nil : Foreign [] where
  ends := WordEnd.nil
  stops := by
    intro c first
    cases first

theorem Foreign.follow {text : List Char} (foreign : Foreign text) (value : Reading) : Follow .start value text where
  left := ⟨foreign.ends,foreign.stops.mono (by simp)⟩
  right := foreign.stops.mono (by simp)

/-- A program is read from the text up to `stop`, and what is left there is dropped. -/
structure Leaves (text : String) (program : Reading) (stop : Nat) : Prop where
  read : readText Reading.builder true .start text = .ok (program,stop)
  within : stop ≤ text.toList.length
  alone : readText Reading.builder true .start (String.ofList (text.toList.take stop)) = .ok (program,stop)
  exchanged : ∀ other, Foreign other →
    readText Reading.builder true .start (String.ofList (text.toList.take stop ++ other)) = .ok (program,stop)
  noSeparator : Stops [';'] (text.toList.drop stop)
  /-- The last statement ends there. If it could take an `else`, none with a statement behind it follows. -/
  last : ∃ items last start, program = .stmt (.inRow items) ∧ items.getLast? = some last ∧ start ≤ stop ∧
    readText Reading.builder true .stmt (String.ofList (text.toList.drop start)) = .ok (.stmt last,stop - start) ∧
    (last.isOpen = true → ∀ branch, tokenRest? "else".toList (skipped (text.toList.drop stop)) = some branch →
      ∀ v, readText Reading.builder true .stmt (String.ofList branch) ≠ .ok v)

section Ends

variable {text mid rest : List Char} {value : Reading} {cut : Bool}

theorem listing_of_gatherTake {word : String} {r : Rule} (written : word.toList ≠ []) {fuel : Nat}
    {entries : List (Parts Reading × Parts Reading)} (enough : text.length ≤ fuel)
    (read : gatherTake ((Peg.token word).take outcome) ((Peg.call r).take outcome) fuel text = .ok entries rest cut) :
    Listing word r text (entries.flatMap (·.2.last.toList)) rest := by
  induction fuel generalizing text entries with
  | zero =>
    cases read
    obtain ⟨c,more,front⟩ := List.exists_cons_of_ne_nil written
    have empty : rest = [] := List.eq_nil_of_length_eq_zero (by omega)
    subst empty
    exact .done ((Stops.nil [c]).token c (by rw [front]; rfl) (by simp))
  | succ fuel ih =>
    unfold gatherTake at read
    split at read
    next marked =>
      split at read
      next valued =>
        obtain ⟨more,later,rfl⟩ := Taken.map_eq_ok.mp read
        obtain ⟨v,called,rfl⟩ := Taken.map_eq_ok.mp valued
        have shorter := outcome_forward _ _ _ _ _ called
        have least := (Peg.take_forward outcome_forward _ marked).1
        have reads := Peg.reads_any marked
        exact .more (take_found reads.1) called (ih (by omega) later)
      · cases read
    next failed => cases read; exact .done failed
    · cases read

theorem Listing.ends {word : String} {r : Rule} {values : List Reading} (listing : Listing word r text values rest) :
    (Peg.token word).take outcome rest = .fail false := by
  induction listing with
  | done ends => exact ends
  | more _ _ _ ih => exact ih

theorem Listing.statements {word : String} {values : List Reading} (listing : Listing word .stmt text values rest) :
    ∃ items : List Stmt, values = items.map .stmt := by
  induction listing with
  | done => exact ⟨[],rfl⟩
  | more _ read _ ih =>
    obtain ⟨items,rfl⟩ := ih
    obtain ⟨s,rfl,-⟩ := outcome_shape read
    exact ⟨s :: items,rfl⟩

/-- A separator that is a mark is missing only where another character stands. -/
theorem stops_of_missing {word : String} {c : Char} (single : word.toList = [c])
    (symbol : Text.isAlphanumeric c = false) (failed : (Peg.token word).take outcome text = .fail false) :
    Stops [c] text := by
  intro d first member
  cases List.mem_singleton.mp member
  cases front : skipped text with
  | nil => rw [front] at first; cases first
  | cons e more =>
    rw [front] at first
    cases first
    have found : (Peg.token word).take outcome text = .ok _ more false :=
      take_token word (by rw [front,single]; rfl) (runsOn_symbol (by simp [single,symbol]) more)
    rw [found] at failed
    cases failed

theorem skipped_suffix (text : List Char) : skipped text <:+ text := by
  cases front : skipped text with
  | nil => exact List.nil_suffix
  | cons c more =>
    obtain ⟨layout,rfl,-⟩ := exists_layout front
    exact List.suffix_append layout (c :: more)

theorem suffix_of_token {word : String} (found : tokenRest? word.toList (skipped text) = some rest) :
    rest <:+ text := by
  have behind : rest <:+ skipped text := by
    rw [(tokenRest?_eq_some.mp found).1]
    exact List.suffix_append word.toList rest
  exact behind.trans (skipped_suffix text)

theorem suffix_of_outcome {r : Rule} (read : outcome r text = .ok value rest cut) : rest <:+ text := by
  obtain ⟨stop,-,rfl⟩ := outcome_suffix read
  exact List.drop_suffix stop text

theorem stmtList_listing (read : outcome .stmtList text = .ok value rest cut) :
    ∃ s items mid, value = .stmt (.block (s :: items)) ∧ outcome .stmt text = .ok (.stmt s) mid false ∧
      Listing ";" .stmt mid (items.map .stmt) rest := by
  rw [outcome_body rfl] at read
  cases body : (Rule.body .stmtList).take outcome (skipped text) with
  | ok p next passed =>
    rw [body] at read
    obtain ⟨_,mid,_,_,one,later,-⟩ := Taken.andThen_eq_ok.mp body
    obtain ⟨entries,gathers,rfl⟩ := Taken.map_eq_ok.mp later
    obtain ⟨v,first,rfl⟩ := Taken.map_eq_ok.mp one
    rw [outcome_skipped rfl] at first
    cases options_cut rfl rfl first
    obtain ⟨s,rfl,-⟩ := outcome_shape first
    have listing := listing_of_gatherTake (by decide) le_rfl gathers
    obtain ⟨items,same⟩ := listing.statements
    simp only [Taken.close] at read
    split at read
    next closed =>
      cases read
      have closed := (close_eq_ok (by decide)).mp closed
      simp only [Reading.ofParts?,Parts.single?,gathered,same,Reading.items] at closed
      have block : value = .stmt (.block (((s :: items).map Reading.stmt).filterMap Reading.stmt?)) :=
        (Option.some.inj closed).symm
      rw [filterMap_items] at block
      rw [same] at listing
      exact ⟨s,items,mid,block,first,listing⟩
    · cases read
  | fail | stop => rw [body] at read; cases read

theorem stmtList_stops (read : outcome .stmtList text = .ok value rest cut) : Stops [';'] rest := by
  obtain ⟨_,_,_,-,-,listing⟩ := stmtList_listing read
  exact stops_of_missing rfl (by decide) listing.ends

theorem Listing.last {s : Stmt} {items : List Stmt} (first : outcome .stmt text = .ok (.stmt s) mid cut)
    (listing : Listing ";" .stmt mid (items.map .stmt) rest) :
    ∃ last t c, (s :: items).getLast? = some last ∧ t <:+ text ∧ outcome .stmt t = .ok (.stmt last) rest c := by
  induction items generalizing text mid s cut with
  | nil =>
    cases listing
    exact ⟨s,text,cut,rfl,List.suffix_rfl,first⟩
  | cons next items ih =>
    cases listing with
    | more marked read later =>
      obtain ⟨last,t,c,ends,inner,known⟩ := ih read later
      have reads := Peg.reads_any marked
      have within : t <:+ text := inner.trans ((suffix_of_token reads.1).trans (suffix_of_outcome first))
      exact ⟨last,t,c,by rw [List.getLast?_cons_cons]; exact ends,within,known⟩

/-- The list is made of the statements that were read, the last of which ends where the list does. -/
theorem stmtList_last (read : outcome .stmtList text = .ok value rest cut) :
    ∃ items last t c, value = .stmt (.block items) ∧ items.getLast? = some last ∧ t <:+ text ∧
      outcome .stmt t = .ok (.stmt last) rest c := by
  obtain ⟨s,items,mid,rfl,first,listing⟩ := stmtList_listing read
  obtain ⟨last,t,c,ends,within,known⟩ := Listing.last first listing
  exact ⟨s :: items,last,t,c,rfl,ends,within,known⟩

/-- A program is made of statements in a row, and no semicolon follows the last of them. -/
theorem start_last (read : outcome .start text = .ok value rest cut) :
    ∃ items last t c, value = .stmt (.inRow items) ∧ items.getLast? = some last ∧ t <:+ text ∧
      outcome .stmt t = .ok (.stmt last) rest c ∧ Stops [';'] rest := by
  obtain ⟨p,⟨v,c,list,-,rfl⟩,closed⟩ := outcome_reads rfl read
  obtain ⟨items,last,t,d,rfl,ends,within,known⟩ := stmtList_last list
  refine ⟨items,last,t,d,?_,ends,within.trans (skipped_suffix text),known,stmtList_stops list⟩
  have closed := (close_eq_ok (by decide)).mp closed
  rcases items with _ | ⟨s,_ | ⟨next,items⟩⟩
  · cases ends
  · cases closed
    rfl
  · cases closed
    rfl

theorem readText_append {r : Rule} {part : List Char} (read : outcome r (part ++ rest) = .ok value rest cut) :
    readText Reading.builder true r (String.ofList (part ++ rest)) = .ok (value,part.length) := by
  rw [readText_eq_ok,String.toList_ofList]
  exact ⟨rest,cut,read,by simp,List.drop_left.symm⟩

/-- An `else` that was not read has no statement behind it. -/
theorem no_branch {branch : List Char} (missing : elsePart.take outcome rest = .fail false)
    (found : tokenRest? "else".toList (skipped rest) = some branch) (v : Reading × Nat) :
    readText Reading.builder true .stmt (String.ofList branch) ≠ .ok v := by
  intro read
  obtain ⟨u,c,taken,-⟩ := readText_eq_ok.mp read
  rw [String.toList_ofList] at taken
  rw [elsePart_take found taken] at missing
  cases missing

/-- Whatever a text goes on with, reading stops behind the last statement of a program. The same program is read from
what stands in front of that place, alone or before any text that no program goes on with. -/
theorem parse_leaves {text : String} {program : Reading} (read : parse text = .ok program) :
    ∃ stop, Leaves text program stop := by
  obtain ⟨rest,cut,read⟩ := parse_eq_ok.mp read
  obtain ⟨items,last,t,c,row,ends,⟨front,whole⟩,known,stops⟩ := start_last read
  obtain ⟨_,same,-,dangling⟩ := outcome_shape known
  cases same
  obtain ⟨part,-,divided,-,again⟩ := outcome_local read rfl
  obtain ⟨inner,rfl⟩ := suffix_of_outcome known
  have joined : front ++ inner = part := by
    rw [divided,← List.append_assoc] at whole
    exact List.append_cancel_right whole
  have taken : text.toList.take part.length = part := by rw [divided,List.take_left]
  have dropped : text.toList.drop part.length = rest := by rw [divided,List.drop_left]
  have exchanged (other : List Char) (foreign : Foreign other) :
      readText Reading.builder true .start (String.ofList (part ++ other)) = .ok (program,part.length) := by
    obtain ⟨d,reads⟩ := again other (.of_wordEnd rest foreign.ends) (foreign.follow program)
    exact readText_append reads
  refine ⟨part.length,?_,by rw [divided,List.length_append]; omega,?_,by rwa [taken],by rwa [dropped],?_⟩
  · rw [divided] at read
    have stopped := readText_append read
    rwa [← divided,String.ofList_toList] at stopped
  · have alone := exchanged [] .nil
    rw [List.append_nil] at alone
    rwa [taken]
  · refine ⟨items,last,front.length,row,ends,?_,?_,fun isOpen branch found => ?_⟩
    · rw [← joined,List.length_append]
      omega
    · rw [← whole,List.drop_left,← joined,List.length_append,Nat.add_sub_cancel_left]
      exact readText_append known
    · rw [dropped] at found
      exact no_branch (dangling isOpen) found

/-- Sets a variable and asks for it. -/
def asking : Stmt :=
  .block [.assign "x" (.int 1),.ifOnly (.app .compare ">" [.var "x",.int 5]) .skip]

theorem foreign_stop : Foreign ".".toList where
  ends := .cons (by decide) []
  stops := by
    rintro c ⟨⟩
    decide

set_option maxRecDepth 2000 in
/-- What follows the `else` is no statement, and so both are dropped. A full stop in their place is dropped as well. -/
theorem parse_leaves_branch :
    parse "x := 1; if x > 5 then skip else false " = .ok (.stmt asking) ∧
      readText Reading.builder true .start "x := 1; if x > 5 then skip else false " = .ok (.stmt asking,26) ∧
      readText Reading.builder true .start "x := 1; if x > 5 then skip." = .ok (.stmt asking,26) := by
  have read : parse "x := 1; if x > 5 then skip else false " = .ok (.stmt asking) := parse_eq_ok.mpr ⟨_,_,rfl⟩
  have place : readText Reading.builder true .start "x := 1; if x > 5 then skip else false " = .ok (.stmt asking,26) :=
    readText_eq_ok.mpr ⟨_,_,rfl,by decide,rfl⟩
  obtain ⟨stop,leaves⟩ := parse_leaves read
  cases leaves.read.symm.trans place
  exact ⟨read,place,leaves.exchanged _ foreign_stop⟩

set_option maxRecDepth 2000 in
/-- The second statement is dropped. -/
theorem second_statement_dropped :
    parse "skip skip" = .ok (.stmt .skip) ∧ readText Reading.builder true .start "skip skip" = .ok (.stmt .skip,4) ∧
      skipped ("skip skip".toList.drop 4) = "skip".toList := by
  exact ⟨parse_eq_ok.mpr ⟨_,_,rfl⟩,readText_eq_ok.mpr ⟨_,_,rfl,by decide,rfl⟩,rfl⟩

end Ends

end Grammar

end WhileExec
