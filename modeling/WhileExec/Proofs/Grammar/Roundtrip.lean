import Mathlib
import WhileExec.Proofs.Grammar.Statements
import WhileExec.Proofs.Grammar.Table
import WhileExec.Proofs.Stripping

/-!
# Programs that were written are read back

A statement is read back from its text, whatever follows that no statement goes on with, but for what its text does not
show. With the shape of what is read, this makes reading undo writing for programs.
-/

namespace WhileExec

namespace Stmt

def chars (indent : Int) (s : Stmt) : List Char :=
  (s.write indent).text.toList

/-- The text of the statements in a block after the first. -/
def restChars (indent : Int) (items : List Stmt) : List Char :=
  (Stmt.writeRest indent items).text.toList

end Stmt

namespace Grammar

section Texts

variable {cond rhs : Expr} {yes no s next : Stmt} {items : List Stmt} (indent : Int)

theorem chars_assign (name : String) :
    (Stmt.assign name rhs).chars indent = name.toList ++ spaced ":=" (rhs.chars true) := by
  simp [Stmt.chars,Stmt.write_assign,Written.text_append,Expr.chars,spaced]

theorem chars_demand {r : Rule} {make : Expr → Stmt} (demands : Demands r make) :
    (make cond).chars indent = r.keyword.toList ++ ' ' :: cond.chars true := by
  cases demands with
  | assert | assume =>
    simp [Stmt.chars,Stmt.write_assert,Stmt.write_assume,Written.text_append,Expr.chars,Rule.keyword]

theorem chars_ifOnly (test : cond.Whole) : (Stmt.ifOnly cond yes).chars indent = "if".toList ++
    ' ' :: (cond.chars true ++ ' ' :: ("then".toList ++ line (indent + 2) (yes.chars (indent + 2)))) := by
  simp [Stmt.chars,Stmt.write_ifOnly,Written.text_append,Expr.chars,line,test true]

theorem chars_ifElse (test : cond.Whole) (left : yes.Whole) : (Stmt.ifElse cond yes no).chars indent = "if".toList ++
    ' ' :: (cond.chars true ++ ' ' :: ("then".toList ++ line (indent + 2) (yes.chars (indent + 2) ++
      line indent ("else".toList ++ line (indent + 2) (no.chars (indent + 2)))))) := by
  simp [Stmt.chars,Stmt.write_ifElse,Written.text_append,Expr.chars,line,test true,left (indent + 2)]

theorem chars_loop (test : cond.Whole) (inv : Option Expr) : (Stmt.loop cond s inv).chars indent = "while".toList ++
    ' ' :: (cond.chars true ++ ' ' :: ("do".toList ++ line (indent + 2) (s.chars (indent + 2)))) := by
  simp [Stmt.chars,Stmt.write_loop,Written.text_append,Expr.chars,line,test true]

theorem chars_lone : (Stmt.block [s]).chars indent = (spaces indent).toList ++ s.chars (indent + 2) := by
  simp [Stmt.chars,Stmt.write_lone,Written.text_append]

theorem restChars_cons (whole : s.Whole) :
    Stmt.restChars indent (s :: items) = ';' :: line indent (s.chars indent ++ Stmt.restChars indent items) := by
  simp [Stmt.chars,Stmt.restChars,Stmt.writeRest_item,Written.text_append,line,whole indent]

theorem chars_block (each : ∀ t ∈ s :: next :: items, t.Whole) :
    (Stmt.block (s :: next :: items)).chars indent = (spaces indent).toList ++ '\x7b' :: line (indent + 2)
      (s.chars (indent + 2) ++ (Stmt.restChars (indent + 2) (next :: items) ++ line indent ['\x7d'])) := by
  have rest := writeRest_fault (indent + 2) fun t member => each t (List.mem_cons_of_mem s member)
  simp [Stmt.chars,Stmt.restChars,Stmt.write_block,Written.text_append,line,each s (by simp) (indent + 2),rest]

end Texts

section Names

variable {name : String} {names : List String} {rest : List Char}

/-- The names of a havoc after the first. -/
def namesText (names : List String) : List Char :=
  names.flatMap fun name => ',' :: ' ' :: name.toList

theorem chars_havoc (indent : Int) :
    (Stmt.havoc (name :: names)).chars indent = "havoc".toList ++ ' ' :: (name.toList ++ namesText names) := by
  have joined (first : String) : (names.foldl (fun text next => text ++ ", " ++ next) first).toList =
      first.toList ++ namesText names := by
    induction names generalizing first with
    | nil => simp [namesText]
    | cons next names ih => simp [namesText,ih]
  simp [Stmt.chars,Stmt.write_havoc,writeNames,Written.text_append,joined]

theorem wordEnd_names (names : List String) (ends : WordEnd rest) : WordEnd (namesText names ++ rest) := by
  cases names with
  | nil => exact ends
  | cons => exact .cons (by decide) _

theorem listing_names (words : ∀ name ∈ names, IsWord name.toList) (ends : WordEnd rest) (stops : Stops [','] rest) :
    Listing "," .name (namesText names ++ rest) (names.map fun name => .expr (.var name)) rest := by
  induction names with
  | nil => exact .done (stops.token ',' rfl (by decide))
  | cons name names ih =>
    have marked : (Peg.token ",").take outcome (namesText (name :: names) ++ rest) =
        .ok { last := some (.text ",") } (' ' :: (name.toList ++ (namesText names ++ rest))) false := by
      refine take_token "," ?_ (runsOn_symbol (by decide) _)
      simpa [namesText] using skipped_solid (by decide) (by decide) _
    have read := name_ok (words name (by simp)) (wordEnd_names names ends)
    rw [String.ofList_toList,← outcome_blank rfl (c := ' ') (by decide)] at read
    exact .more marked read (ih fun other member => words other (by simp [member]))

end Names

/-- What can follow the text of a statement. -/
structure Follows (s : Stmt) (rest : List Char) : Prop where
  ends : WordEnd rest
  stops : Stops ['+','-','*','/','<','=','>','a','o',',',':'] rest
  noElse : s.isOpen = true → Stops ['e'] rest

/-- A statement is read back from its text, but for invariants and needless braces. -/
def ReadBack (s : Stmt) : Prop :=
  ∀ indent rest, Follows s.stripped rest → outcome .stmt (s.chars indent ++ rest) = .ok (.stmt s.stripped) rest false

theorem ReadBack.onLine {s : Stmt} (readBack : ReadBack s) (indent : Int) {rest : List Char}
    (follows : Follows s.stripped rest) :
    outcome .stmt (line indent (s.chars indent ++ rest)) = .ok (.stmt s.stripped) rest false := by
  rw [outcome_line rfl,readBack indent rest follows]

section Simple

variable {cond rhs : Expr}

theorem readBack_assign {name : String} (word : IsWord name.toList)
    (other : tokenRest? "skip".toList name.toList = none) (term : IsTerm rhs) : ReadBack (.assign name rhs) := by
  intro indent rest follows
  have read := stmt_assign word other (term.aexp true follows.ends (follows.stops.mono (by decide)))
  rw [String.ofList_toList] at read
  rwa [chars_assign,List.append_assoc,spaced_append]

theorem readBack_demand {r : Rule} {make : Expr → Stmt} (demands : Demands r make) (test : IsTest cond) :
    ReadBack (make cond) := by
  intro indent rest follows
  have same : (make cond).stripped = make cond := by cases demands <;> rfl
  rw [chars_demand indent demands,List.append_assoc,List.cons_append,same]
  exact stmt_demand demands (test.bexp follows.ends (follows.stops.mono (by decide))) (test.stops true follows.ends)

theorem readBack_havoc {name : String} {names : List String} (words : ∀ x ∈ name :: names, IsWord x.toList) :
    ReadBack (.havoc (name :: names)) := by
  intro indent rest follows
  have word := words name (by simp)
  have first := name_ok word (wordEnd_names names follows.ends)
  rw [String.ofList_toList] at first
  have more := listing_names (fun x member => words x (List.mem_cons_of_mem name member)) follows.ends
    (follows.stops.mono (by decide))
  rw [chars_havoc,List.append_assoc,List.cons_append,List.append_assoc]
  exact stmt_havoc (word.stops (by decide) _) (varList_ok first more)

end Simple

section Compound

variable {cond : Expr} {yes no body : Stmt}

theorem test_before (test : IsTest cond) (word : String) {c : Char} {more : List Char} (front : word.toList = c :: more)
    (solid : Text.isBlank c = false) (other : c ≠ '#') (apart : c ∉ ['+','-','*','/','<','=','>','a','o'])
    (text : List Char) : Stops [':'] (cond.chars true ++ ' ' :: (word.toList ++ text)) ∧
      outcome .bexp (cond.chars true ++ ' ' :: (word.toList ++ text)) =
        .ok (.expr cond) (' ' :: (word.toList ++ text)) false := by
  have ends : WordEnd (' ' :: (word.toList ++ text)) := .cons (by decide) _
  refine ⟨test.stops true ends,test.bexp ends ?_⟩
  rw [front]
  exact (Stops.blank (by decide)).mpr (.solid solid other apart _)

theorem readBack_ifElse (test : IsTest cond) (whole : yes.Whole) (closed : yes.stripped.isOpen = false)
    (first : ReadBack yes) (second : ReadBack no) : ReadBack (.ifElse cond yes no) := by
  intro indent rest follows
  have last := second.onLine (indent + 2) ⟨follows.ends,follows.stops,follows.noElse⟩
  have front : skipped (line indent ("else".toList ++ line (indent + 2) (no.chars (indent + 2) ++ rest))) =
      "else".toList ++ line (indent + 2) (no.chars (indent + 2) ++ rest) := by
    rw [skipped_line]
    exact skipped_solid (by decide) (by decide) _
  have before : Follows yes.stripped
      (line indent ("else".toList ++ line (indent + 2) (no.chars (indent + 2) ++ rest))) :=
    ⟨wordEnd_line _ _,stops_line.mpr (.solid (by decide) (by decide) (by decide) _),by simp [closed]⟩
  obtain ⟨stops,condition⟩ := test_before test "then" rfl (by decide) (by decide) (by decide) (line (indent + 2)
    (yes.chars (indent + 2) ++ line indent ("else".toList ++ line (indent + 2) (no.chars (indent + 2) ++ rest))))
  rw [chars_ifElse indent test.whole whole]
  simp only [List.append_assoc,List.cons_append,line_append]
  exact stmt_ifElse stops condition (wordEnd_line _ _) (first.onLine (indent + 2) before)
    (elsePart_ok front (wordEnd_line _ _) last)

theorem readBack_ifOnly (test : IsTest cond) (inner : ReadBack yes) : ReadBack (.ifOnly cond yes) := by
  intro indent rest follows
  have noElse : Stops ['e'] rest := follows.noElse rfl
  have branch := inner.onLine (indent + 2) ⟨follows.ends,follows.stops,fun _ => noElse⟩
  obtain ⟨stops,condition⟩ := test_before test "then" rfl (by decide) (by decide) (by decide)
    (line (indent + 2) (yes.chars (indent + 2) ++ rest))
  rw [chars_ifOnly indent test.whole]
  simp only [List.append_assoc,List.cons_append,line_append]
  exact stmt_ifOnly stops condition (wordEnd_line _ _) branch (elsePart_fail noElse)

theorem readBack_loop (test : IsTest cond) (inner : ReadBack body) (inv : Option Expr) :
    ReadBack (.loop cond body inv) := by
  intro indent rest follows
  have inside := inner.onLine (indent + 2) ⟨follows.ends,follows.stops,follows.noElse⟩
  obtain ⟨stops,condition⟩ := test_before test "do" rfl (by decide) (by decide) (by decide)
    (line (indent + 2) (body.chars (indent + 2) ++ rest))
  rw [chars_loop indent test.whole inv]
  simp only [List.append_assoc,List.cons_append,line_append]
  exact stmt_loop stops condition (wordEnd_line _ _) inside

end Compound

section Blocks

variable {items : List Stmt} {tail : List Char}

theorem follows_items (indent : Int) (s : Stmt) (whole : ∀ t ∈ items, t.Whole) (last : ∀ t, Follows t tail) :
    Follows s (Stmt.restChars indent items ++ tail) := by
  cases items with
  | nil => exact last s
  | cons t items =>
    rw [restChars_cons indent (whole t (by simp))]
    exact ⟨.cons (by decide) _,.solid (by decide) (by decide) (by decide) _,
      fun _ => .solid (by decide) (by decide) (by decide) _⟩

theorem listing_items (indent : Int) (whole : ∀ s ∈ items, s.Whole) (each : ∀ s ∈ items, ReadBack s)
    (last : ∀ t, Follows t tail) (ends : Stops [';'] tail) :
    Listing ";" .stmt (Stmt.restChars indent items ++ tail) ((items.map Stmt.stripped).map .stmt) tail := by
  induction items with
  | nil => exact .done (ends.token ';' rfl (by decide))
  | cons s items ih =>
    have others : ∀ t ∈ items, t.Whole := fun t member => whole t (by simp [member])
    have marked : (Peg.token ";").take outcome (Stmt.restChars indent (s :: items) ++ tail) =
        .ok { last := some (.text ";") }
          (line indent (s.chars indent ++ (Stmt.restChars indent items ++ tail))) false := by
      refine take_token ";" ?_ (runsOn_symbol (by decide) _)
      rw [restChars_cons indent (whole s (by simp)),List.cons_append,line_append,List.append_assoc]
      exact skipped_solid (by decide) (by decide) _
    have read := each s (by simp) indent _ (follows_items indent s.stripped others last)
    rw [← outcome_line rfl indent] at read
    exact .more marked read (ih others fun t member => each t (by simp [member]))

theorem readBack_block {s next : Stmt} (whole : ∀ t ∈ s :: next :: items, t.Whole)
    (each : ∀ t ∈ s :: next :: items, ReadBack t) : ReadBack (.block (s :: next :: items)) := by
  intro indent rest follows
  have last (t : Stmt) : Follows t (line indent ('\x7d' :: rest)) :=
    ⟨wordEnd_line _ _,stops_line.mpr (.solid (by decide) (by decide) (by decide) _),
      fun _ => stops_line.mpr (.solid (by decide) (by decide) (by decide) _)⟩
  have others : ∀ t ∈ next :: items, t.Whole := fun t member => whole t (List.mem_cons_of_mem s member)
  have first := (each s (by simp)).onLine (indent + 2) (follows_items (indent + 2) s.stripped others last)
  have more := listing_items (indent + 2) others (fun t member => each t (List.mem_cons_of_mem s member)) last
    (stops_line.mpr (.solid (by decide) (by decide) (by decide) _))
  have closing : skipped (line indent ('\x7d' :: rest)) = '\x7d' :: rest := by
    rw [skipped_line]
    exact skipped_solid (by decide) (by decide) _
  rw [chars_block indent whole,Stmt.stripped_block]
  simp only [List.append_assoc,List.cons_append,line_append,List.nil_append]
  rw [outcome_indent rfl]
  exact stmt_block first more closing

end Blocks

theorem IsProgram.readBack {s : Stmt} (program : IsProgram s) (plain : s.every Stmt.testsPlainly = true)
    (kept : s.every Stmt.keepsElse = true) : ReadBack s := by
  induction program with
  | skip => exact fun _ _ follows => stmt_skip follows.ends
  | printState => exact fun _ _ follows => stmt_printState follows.ends (follows.stops.mono (by decide))
  | assign word other term => exact readBack_assign word other term
  | ifElse test left _ _ first second =>
    simp only [Stmt.every,Bool.and_eq_true] at plain kept
    have closed := kept.1.1
    rw [Stmt.keepsElse,Bool.not_eq_true'] at closed
    exact readBack_ifElse (test.isTest plain.1.1) left.whole closed (first plain.1.2 kept.1.2) (second plain.2 kept.2)
  | ifOnly test _ inner =>
    simp only [Stmt.every,Bool.and_eq_true] at plain kept
    exact readBack_ifOnly (test.isTest plain.1) (inner plain.2 kept.2)
  | loop test _ _ inner =>
    simp only [Stmt.every,Bool.and_eq_true] at plain kept
    exact readBack_loop (test.isTest plain.1) (inner plain.2 kept.2) _
  | assert test => exact readBack_demand .assert (test.isTest plain)
  | assume test => exact readBack_demand .assume (test.isTest plain)
  | @havoc names some words =>
    cases names with
    | nil => contradiction
    | cons name names => exact readBack_havoc words
  | @block items some program each =>
    simp only [Stmt.every,Bool.and_eq_true,Stmt.everyOf_iff] at plain kept
    have each (s : Stmt) (member : s ∈ items) : ReadBack s := each s member (plain.2 s member) (kept.2 s member)
    cases items with
    | nil => contradiction
    | cons s items =>
      cases items with
      | nil =>
        intro indent rest follows
        rw [chars_lone,List.append_assoc,outcome_indent rfl]
        exact each s (by simp) (indent + 2) rest follows
      | cons next items => exact readBack_block (fun t member => (program t member).whole) each

section Programs

variable {text : String} {reading : Reading} {a : Stmt}

theorem parse_program (read : parse text = .ok reading) : ∃ a, reading = .stmt a ∧ IsProgram a := by
  obtain ⟨rest,cut,read⟩ := parse_eq_ok.mp read
  exact outcome_shape read

/-- The text of a program is complete, and what is read from it is the program as far as its text shows it. -/
theorem parse_write (program : IsProgram a) (plain : a.every Stmt.testsPlainly = true)
    (kept : a.every Stmt.keepsElse = true) (indent : Int) :
    ∃ written, (a.write indent).toExcept = .ok written ∧ parse written = .ok (.stmt a.stripped) := by
  have follows : Follows a.stripped [] := ⟨.nil,.nil _,fun _ => .nil _⟩
  have read := program.readBack plain kept indent [] follows
  rw [List.append_nil] at read
  refine ⟨(a.write indent).text,?_,parse_eq_ok.mpr ⟨_,_,start_ok read⟩⟩
  simp [Written.toExcept,program.whole indent]

/-- With all braces in the text, no branch could have taken the `else` behind it. -/
theorem IsProgram.every_keepsElse (program : IsProgram a) (free : a.invariantFree = true)
    (braces : a.every Stmt.hasBraces = true) : a.every Stmt.keepsElse = true := by
  induction program with
  | skip | printState | assign | assert | assume | havoc => rfl
  | ifElse _ _ _ closed first second =>
    simp only [Stmt.invariantFree,Stmt.every,Bool.and_eq_true] at free braces ⊢
    have same := Stmt.stripped_eq _ free.1.2 braces.1.2
    exact ⟨⟨by simp [Stmt.keepsElse,same,closed],first free.1.2 braces.1.2⟩,second free.2 braces.2⟩
  | ifOnly _ _ inner =>
    simp only [Stmt.invariantFree,Stmt.every,Bool.and_eq_true] at free braces ⊢
    exact ⟨rfl,inner free.2 braces.2⟩
  | loop _ _ _ inner =>
    simp only [Stmt.invariantFree,Stmt.every,Bool.and_eq_true] at free braces ⊢
    exact ⟨rfl,inner free.2 braces.2⟩
  | block _ _ each =>
    simp only [Stmt.invariantFree,Stmt.every,Bool.and_eq_true,Stmt.everyOf_iff] at free braces ⊢
    exact ⟨rfl,fun s member => each s member (free.2 s member) (braces.2 s member)⟩

/-- Reading undoes writing: a program without invariants, with two statements or more in every block and with plain
conditions is read back from its text as it was. -/
theorem parse_undoes_write (read : parse text = .ok reading) :
    ∃ a, reading = .stmt a ∧ (a.invariantFree = true → a.every Stmt.hasBraces = true →
      a.every Stmt.testsPlainly = true → ∀ indent : Int, ∃ written b, (a.write indent).toExcept = .ok written ∧
        parse written = .ok (.stmt b) ∧ b = a ∧ b.alike a = true) := by
  obtain ⟨a,rfl,program⟩ := parse_program read
  refine ⟨a,rfl,fun free braces plain indent => ?_⟩
  obtain ⟨written,complete,again⟩ := parse_write program plain (program.every_keepsElse free braces) indent
  rw [Stmt.stripped_eq a free braces] at again
  exact ⟨written,a,complete,again,rfl,a.alike_refl⟩

/-- A program with most of the ways to combine conditions, terms and statements. -/
def lowering : Stmt :=
  .ifElse (.app .logic "not" [.app .logic "or" [.app .compare "<=" [.var "x",.int 0],.truth (.bool false)]])
    (.block [
      .assign "x" (.app .arith "*" [.int (-5),.app .arith "+" [.var "y",.int 2]]),
      .havoc ["x","y"]])
    (.loop (.app .compare ">" [.var "x",.int 0]) (.assign "x" (.app .arith "-" [.var "x",.int 1])) none)

set_option maxRecDepth 2000 in
theorem parse_undoes_write_lowering :
    parse "if not (x <= 0 or false) then {x := -5 * (y+2); havoc x,y} else while x > 0 do x := x-1" =
        .ok (.stmt lowering) ∧
      ∀ indent : Int, ∃ written, (lowering.write indent).toExcept = .ok written ∧
        parse written = .ok (.stmt lowering) := by
  have read : parse "if not (x <= 0 or false) then {x := -5 * (y+2); havoc x,y} else while x > 0 do x := x-1" =
      .ok (.stmt lowering) := parse_eq_ok.mpr ⟨[],false,rfl⟩
  obtain ⟨a,same,back⟩ := parse_undoes_write read
  cases same
  refine ⟨read,fun indent => ?_⟩
  obtain ⟨written,b,complete,again,rfl,-⟩ := back rfl rfl rfl indent
  exact ⟨written,complete,again⟩

/-- A program runs in the same way after it was written and read, unless an `else` has changed its place or a condition
cannot be told from its text. -/
theorem parse_write_runs_alike (read : parse text = .ok reading) :
    ∃ a, reading = .stmt a ∧ (a.every Stmt.testsPlainly = true → a.every Stmt.keepsElse = true →
      ∀ indent : Int, ∃ written b, (a.write indent).toExcept = .ok written ∧ parse written = .ok (.stmt b) ∧
        ∀ limit m, b.exec limit m = a.exec limit m) := by
  obtain ⟨a,rfl,program⟩ := parse_program read
  refine ⟨a,rfl,fun plain kept indent => ?_⟩
  obtain ⟨written,complete,again⟩ := parse_write program plain kept indent
  exact ⟨written,a.stripped,complete,again,fun limit m => by rw [Stmt.exec_stripped]⟩

/-- A loop with an invariant, and braces around single statements that do no harm. -/
def guarded : Stmt :=
  .loop (.app .compare ">" [.var "x",.int 0])
    (.block [.ifElse (.app .compare "<" [.var "x",.int 9]) (.block [.assign "x" (.int 0)])
      (.ifOnly (.app .compare "=" [.var "y",.int 1]) .skip)])
    (some (.app .compare ">=" [.var "x",.int 0]))

set_option maxRecDepth 2000 in
theorem parse_write_runs_guarded :
    parse "while x > 0 inv x >= 0 do {if x < 9 then {x := 0} else if y = 1 then skip}" = .ok (.stmt guarded) ∧
      ∃ written b, (guarded.write 0).toExcept = .ok written ∧ parse written = .ok (.stmt b) ∧
        ∀ limit m, b.exec limit m = guarded.exec limit m := by
  have read : parse "while x > 0 inv x >= 0 do {if x < 9 then {x := 0} else if y = 1 then skip}" =
      .ok (.stmt guarded) := parse_eq_ok.mpr ⟨[],false,rfl⟩
  obtain ⟨a,same,alike⟩ := parse_write_runs_alike read
  cases same
  exact ⟨read,alike rfl rfl 0⟩

/-- The program of a text, and what is read from the text that this program is written as. -/
def Reread (text : String) (a b : Stmt) : Prop :=
  ∃ written, parse text = .ok (.stmt a) ∧ (a.write 0).toExcept = .ok written ∧ parse written = .ok (.stmt b)

def machine (x : Int) : Machine where
  store := (((∅ : Store).insert "x" (.int x)).insert "y" (.int 0)).insert "z" (.int 0)

/-- Which of two statements the `else` belongs to is a matter of braces around a single statement. -/
def nested (braces : Bool) : Stmt :=
  if braces then
    .ifElse (.app .compare ">" [.var "x",.int 0])
      (.block [.ifOnly (.app .compare ">" [.var "y",.int 0]) (.assign "z" (.int 1))]) (.assign "z" (.int 2))
  else
    .ifOnly (.app .compare ">" [.var "x",.int 0])
      (.ifElse (.app .compare ">" [.var "y",.int 0]) (.assign "z" (.int 1)) (.assign "z" (.int 2)))

def between : Stmt :=
  .assert (.app .logic "['and', 'and']" [.app .compare "<" [.var "x",.int 1],.app .compare "<" [.var "y",.int 2],
    .app .compare "<" [.var "z",.int 3]])

def refusing : Stmt :=
  .ifElse (.app .compare ">" [.var "x",.int 0]) .skip (.assert (.app .logic "not" [.truth (.bool true)]))

set_option maxRecDepth 2000 in
/-- An `else` goes to the statement in front of it when the braces between them are not written. A chain of three
conditions, and a negated constant, break off the text that is read: what follows them is lost. -/
theorem reread_runs_otherwise :
    (∃ a b final other, Reread "if x > 0 then {if y > 0 then z := 1} else z := 2" a b ∧
      a.exec 0 (machine 1) = .ok () final ∧ b.exec 0 (machine 1) = .ok () other ∧
      final.store["z"]? = some (.int 0) ∧ other.store["z"]? = some (.int 2)) ∧
    (∃ a b fault final other, Reread "assert x < 1 and y < 2 and z < 3" a b ∧
      a.exec 0 (machine 0) = .error fault final ∧ b.exec 0 (machine 0) = .ok () other) ∧
    (∃ a b fault final other, Reread "if x > 0 then skip else assert not true" a b ∧
      a.exec 0 (machine 0) = .error fault final ∧ b.exec 0 (machine 0) = .ok () other) := by
  have dangling : Reread "if x > 0 then {if y > 0 then z := 1} else z := 2" (nested true) (nested false) :=
    ⟨"if x > 0 then\n    if y > 0 then\n      z := 1\nelse\n  z := 2",parse_eq_ok.mpr ⟨_,_,rfl⟩,rfl,
      parse_eq_ok.mpr ⟨_,_,rfl⟩⟩
  have chain : Reread "assert x < 1 and y < 2 and z < 3" between (.assert (.app .compare "<" [.var "x",.int 1])) :=
    ⟨"assert (x < 1) ['and', 'and'] (y < 2) ['and', 'and'] (z < 3)",parse_eq_ok.mpr ⟨_,_,rfl⟩,rfl,
      parse_eq_ok.mpr ⟨_,_,rfl⟩⟩
  have constant : Reread "if x > 0 then skip else assert not true" refusing
      (.ifOnly (.app .compare ">" [.var "x",.int 0]) .skip) :=
    ⟨"if x > 0 then\n  skip\nelse\n  assert nottrue",parse_eq_ok.mpr ⟨_,_,rfl⟩,rfl,parse_eq_ok.mpr ⟨_,_,rfl⟩⟩
  exact ⟨⟨_,_,_,_,dangling,rfl,rfl,rfl,rfl⟩,⟨_,_,_,_,_,chain,rfl,rfl⟩,⟨_,_,_,_,_,constant,rfl,rfl⟩⟩

end Programs

end Grammar

end WhileExec
