import Mathlib
import WhileExec.Proofs.Grammar.Writing

/-!
# How statements are read

For every kind of statement, what its rule comes to at a text that begins with it. The options of a statement are tried
in order and no word is reserved: a statement that begins with a keyword is tried as an assignment to a variable of that
name first, which fails because no `:=` follows.
-/

namespace WhileExec.Grammar

section Layout

variable {text rest : List Char}

/-- A text on a line of its own, indented. -/
def line (indent : Int) (text : List Char) : List Char :=
  '\n' :: ((spaces indent).toList ++ text)

theorem skipped_indent (indent : Int) (text : List Char) : skipped ((spaces indent).toList ++ text) = skipped text := by
  rw [spaces,String.toList_ofList,skipped_spaces]

theorem skipped_line (indent : Int) (text : List Char) : skipped (line indent text) = skipped text := by
  rw [line,skipped_blank (by decide),skipped_indent]

theorem line_append (indent : Int) (text rest : List Char) : line indent text ++ rest = line indent (text ++ rest) := by
  simp [line]

theorem wordEnd_line (indent : Int) (text : List Char) : WordEnd (line indent text) :=
  .cons (by decide) _

theorem stops_line {chars : List Char} {indent : Int} : Stops chars (line indent text) ↔ Stops chars text := by
  rw [Stops,skipped_line,Stops]

theorem outcome_indent {r : Rule} (skips : r.skips = true) (indent : Int) (text : List Char) :
    outcome r ((spaces indent).toList ++ text) = outcome r text := by
  rw [← outcome_skipped skips,skipped_indent,outcome_skipped skips]

theorem outcome_line {r : Rule} (skips : r.skips = true) (indent : Int) (text : List Char) :
    outcome r (line indent text) = outcome r text := by
  rw [← outcome_skipped skips,skipped_line,outcome_skipped skips]

end Layout

section Keywords

variable {text mid after rest : List Char} {value : Reading} {cut : Bool}

/-- The word or the brace that a statement begins with. -/
def Rule.keyword : Rule → String
  | .skipStmt => "skip"
  | .blockStmt => "\x7b"
  | .ifStmt => "if"
  | .whileStmt => "while"
  | .assertStmt => "assert"
  | .assumeStmt => "assume"
  | .havocStmt => "havoc"
  | .printStateStmt => "print_state"
  | _ => ""

/-- The statements that begin with a word that no statement before them begins with. -/
def worded : List Rule :=
  [.ifStmt,.whileStmt,.assertStmt,.assumeStmt,.havocStmt,.printStateStmt]

theorem outcome_stmt (text : List Char) :
    outcome .stmt text = firstTaken ([Rule.skipStmt,.asgnStmt,.blockStmt,.ifStmt,.whileStmt,.assertStmt,.assumeStmt,
      .havocStmt,.printStateStmt].map (outcome · text)) :=
  outcome_choice _ rfl (by decide) rfl (fun _ => rfl) text

theorem take_keyword {word : String} (front : skipped text = word.toList ++ rest) (ends : WordEnd rest) :
    (Peg.token word).take outcome text = .ok { last := some (.text word) } rest false :=
  take_token word front (ends.runsOn _)

theorem keyword_fail {r : Rule} (known : r ∈ .skipStmt :: .blockStmt :: worded)
    (failed : (Peg.token r.keyword).take outcome text = .fail false) : outcome r text = .fail false := by
  have begins (e : Peg) (skips : r.skips = true) (body : r.body = .seq (.token r.keyword) e) :
      outcome r text = .fail false := by
    rw [outcome_body skips,body,Peg.take_seq,take_token_skipped,failed]
    rfl
  have whole (skips : r.skips = true) (body : r.body = .token r.keyword) : outcome r text = .fail false := by
    rw [outcome_body skips,body,take_token_skipped,failed]
    rfl
  simp only [worded,List.mem_cons,List.not_mem_nil,or_false] at known
  rcases known with rfl | rfl | rfl | rfl | rfl | rfl | rfl | rfl
  · exact whole rfl rfl
  · exact begins _ rfl rfl
  · exact begins _ rfl rfl
  · exact begins _ rfl rfl
  · exact begins _ rfl rfl
  · exact begins _ rfl rfl
  · exact begins _ rfl rfl
  · exact whole rfl rfl

theorem isWord_keyword {r : Rule} (known : r ∈ worded) : IsWord r.keyword.toList := by
  simp only [worded,List.mem_cons,List.not_mem_nil,or_false] at known
  rcases known with rfl | rfl | rfl | rfl | rfl | rfl <;>
    exact ⟨_,_,rfl,by decide,List.all_eq_true.mp rfl⟩

theorem keyword_apart {r s : Rule} (first : r ∈ .skipStmt :: worded) (second : s ∈ worded) (other : r ≠ s)
    (ends : WordEnd rest) : (Peg.token r.keyword).take outcome (s.keyword.toList ++ rest) = .fail false := by
  have letters : ∀ r ∈ .skipStmt :: worded, r.keyword.toList.all Text.isWordChar = true := by decide +kernel
  have apart : ∀ r ∈ .skipStmt :: worded, ∀ s ∈ worded, r ≠ s → tokenRest? r.keyword.toList s.keyword.toList = none := by
    decide +kernel
  have none := (tokenRest?_append (letters r first) ends _).mpr (apart r first s second other)
  unfold Peg.take
  rw [(isWord_keyword second).skipped,none]

theorem asgnStmt_fail {word : List Char} (isWord : IsWord word) (ends : WordEnd rest) (stops : Stops [':'] rest) :
    outcome .asgnStmt (word ++ rest) = .fail false := by
  have mark : (Peg.token ":=").take outcome rest = .fail false := stops.token ':' rfl (by decide)
  rw [outcome_body rfl]
  simp only [Rule.body,Peg.all,Peg.take_seq,Peg.take_named,Peg.take_call,outcome_skipped (r := .name) rfl,
    name_ok isWord ends,mark,Taken.map_ok,Taken.map_fail,Taken.andThen_ok,Taken.andThen_fail,Taken.behindCut_fail]
  rfl

theorem firstTaken_only {rules : List Rule} {r : Rule} {f : Rule → Taken Reading} (member : r ∈ rules)
    (read : f r = .ok value rest cut) (others : ∀ s ∈ rules, s ≠ r → f s = .fail false) :
    firstTaken (rules.map f) = .ok value rest false := by
  induction rules with
  | nil => cases member
  | cons s rules ih =>
    rw [List.map_cons,firstTaken_cons]
    by_cases same : s = r
    · rw [same,read]
      rfl
    · have later := (List.mem_cons.mp member).resolve_left (Ne.symm same)
      rw [others s (by simp) same,Taken.orElse_fail,ih later fun t known => others t (by simp [known])]

theorem stmt_keyword {r : Rule} (known : r ∈ worded) (ends : WordEnd rest) (stops : Stops [':'] rest)
    (read : outcome r (r.keyword.toList ++ rest) = .ok value after cut) :
    outcome .stmt (r.keyword.toList ++ rest) = .ok value after false := by
  have isWord := isWord_keyword known
  have noBrace : Stops ['\x7b'] (r.keyword.toList ++ rest) := isWord.stops (by decide) rest
  rw [outcome_stmt]
  refine firstTaken_only (by simp only [worded] at known; simp [known]) read fun s member other => ?_
  change s ∈ .skipStmt :: .asgnStmt :: .blockStmt :: worded at member
  simp only [List.mem_cons] at member
  rcases member with rfl | rfl | rfl | member
  · exact keyword_fail (by decide) (keyword_apart (by decide) known other ends)
  · exact asgnStmt_fail isWord ends stops
  · exact keyword_fail (by decide) (noBrace.token '\x7b' rfl (by decide))
  · exact keyword_fail (by simp [member]) (keyword_apart (by simp [member]) known other ends)

/-- As `stmt_keyword`, by what is read behind the keyword. -/
theorem stmt_begun {r : Rule} (known : r ∈ worded) {e : Peg} {p : Parts Reading}
    (body : r.body = .seq (.token r.keyword) e) (read : e.take outcome rest = .ok p after cut)
    (closes : Reading.ofParts? r (Parts.append { last := some (.text r.keyword) } p) = some value) (ends : WordEnd rest)
    (stops : Stops [':'] rest) : outcome .stmt (r.keyword.toList ++ rest) = .ok value after false := by
  have skips : ∀ r ∈ worded, r.skips = true := by decide
  have other : r ≠ .number := by rintro rfl; exact absurd known (by decide)
  have own : outcome r (r.keyword.toList ++ rest) = .ok value after cut := by
    rw [outcome_body (skips r known),body,Peg.take_seq,take_token_skipped,
      take_keyword ((isWord_keyword known).skipped rest) ends,Taken.andThen_ok,read]
    exact Taken.close_ok _ _ _ _ ((close_eq_ok other).mpr closes)
  exact stmt_keyword known ends stops own

end Keywords

section Statements

variable {text mid after rest : List Char} {value : Reading} {cut last : Bool} {cond rhs : Expr} {yes no body : Stmt}

theorem stmt_skip (ends : WordEnd rest) : outcome .stmt ("skip".toList ++ rest) = .ok (.stmt .skip) rest false := by
  have front : skipped ("skip".toList ++ rest) = "skip".toList ++ rest := skipped_solid (by decide) (by decide) _
  have read : outcome .skipStmt ("skip".toList ++ rest) = .ok (.stmt .skip) rest false := by
    rw [outcome_body rfl,Rule.body,take_token_skipped,take_keyword front ends]
    rfl
  rw [outcome_stmt,List.map_cons,firstTaken_cons,read]
  rfl

theorem stmt_printState (ends : WordEnd rest) (stops : Stops [':'] rest) :
    outcome .stmt ("print_state".toList ++ rest) = .ok (.stmt .printState) rest false := by
  have front : skipped ("print_state".toList ++ rest) = "print_state".toList ++ rest :=
    skipped_solid (by decide) (by decide) _
  have read : outcome .printStateStmt ("print_state".toList ++ rest) = .ok (.stmt .printState) rest false := by
    rw [outcome_body rfl,Rule.body,take_token_skipped,take_keyword front ends]
    rfl
  exact stmt_keyword (r := .printStateStmt) (by decide) ends stops read

/-- An assignment, unless its variable is read as `skip`. -/
theorem stmt_assign {name : List Char} (word : IsWord name) (other : tokenRest? "skip".toList name = none)
    (read : outcome .aexp text = .ok (.expr rhs) rest cut) :
    outcome .stmt (name ++ spaced ":=" text) = .ok (.stmt (.assign (String.ofList name) rhs)) rest false := by
  have ends : WordEnd (spaced ":=" text) := wordEnd_spaced _ _
  have noSkip : (Peg.token "skip").take outcome (name ++ spaced ":=" text) = .fail false := by
    have none := (tokenRest?_append (by decide : "skip".toList.all Text.isWordChar = true) ends name).mpr other
    unfold Peg.take
    rw [word.skipped,none]
  have mark : (Peg.token ":=").take outcome (spaced ":=" text) = .ok { last := some (.text ":=") } (' ' :: text) false :=
    take_spaced (skipped_solid (by decide) (by decide) _)
  have assign : outcome .asgnStmt (name ++ spaced ":=" text) =
      .ok (.stmt (.assign (String.ofList name) rhs)) rest cut := by
    rw [outcome_body rfl]
    simp only [Rule.body,Peg.all,Peg.take_seq,Peg.take_named,Peg.take_call,outcome_skipped (r := .name) rfl,
      name_ok word ends,mark,outcome_blank (r := .aexp) rfl (c := ' ') (by decide),read,Taken.map_ok,Taken.andThen_ok,
      Taken.behindCut_ok,Bool.false_or]
    rfl
  have skip : outcome .skipStmt (name ++ spaced ":=" text) = .fail false := keyword_fail (by decide) noSkip
  rw [outcome_stmt,List.map_cons,List.map_cons,firstTaken_cons,skip,Taken.orElse_fail,firstTaken_cons,assign]
  rfl

theorem take_named_call {r : Rule} {field : String} (skips : r.skips = true)
    (read : outcome r text = .ok value rest cut) : (Peg.named field (.call r)).take outcome (' ' :: text) =
      .ok { last := some value, fields := [(field,value)] } rest cut := by
  rw [Peg.take_named,Peg.take_call,outcome_blank skips (by decide),read]
  rfl

/-- The statements that are a keyword with a condition, by the rules that read them. -/
inductive Demands : Rule → (Expr → Stmt) → Prop
  | assert : Demands .assertStmt .assert
  | assume : Demands .assumeStmt .assume

theorem stmt_demand {r : Rule} {make : Expr → Stmt} (demands : Demands r make)
    (read : outcome .bexp text = .ok (.expr cond) rest cut) (stops : Stops [':'] text) :
    outcome .stmt (r.keyword.toList ++ ' ' :: text) = .ok (.stmt (make cond)) rest false := by
  cases demands with
  | assert | assume =>
    exact stmt_begun (by decide) rfl (take_named_call rfl read) rfl (.cons (by decide) _)
      ((Stops.blank (by decide)).mpr stops)

theorem stmt_havoc {names : List String} (stops : Stops [':'] text)
    (read : outcome .varList text = .ok (.list (names.map fun name => .expr (.var name))) rest cut) :
    outcome .stmt ("havoc".toList ++ ' ' :: text) = .ok (.stmt (.havoc names)) rest false := by
  refine stmt_begun (r := .havocStmt) (by decide) rfl (take_named_call rfl read) ?_ (.cons (by decide) _)
    ((Stops.blank (by decide)).mpr stops)
  change some (Reading.stmt (.havoc ((names.map fun name => Reading.expr (.var name)).filterMap Reading.name?))) = _
  rw [filterMap_names]

theorem take_then (ends : WordEnd mid) : (Peg.token "then").take outcome (' ' :: ("then".toList ++ mid)) =
    .ok { last := some (.text "then") } mid false :=
  take_keyword (by rw [skipped_blank (by decide)]; exact skipped_solid (by decide) (by decide) _) ends

theorem stmt_ifElse (stops : Stops [':'] text)
    (test : outcome .bexp text = .ok (.expr cond) (' ' :: ("then".toList ++ mid)) cut) (ends : WordEnd mid)
    (first : outcome .stmt mid = .ok (.stmt yes) after false)
    (other : elsePart.take outcome after = .ok ⟨some (.stmt no),none,[("else_stmt",.stmt no)]⟩ rest false) :
    outcome .stmt ("if".toList ++ ' ' :: text) = .ok (.stmt (.ifElse cond yes no)) rest false := by
  have condition := (outcome_blank (r := .bexp) rfl (c := ' ') (by decide) text).trans test
  have inner : (Peg.all [.cut,.named "cond" (.call .bexp),.token "then",.named "then_stmt" (.call .stmt),
      .optional elsePart]).take outcome (' ' :: text) = .ok ⟨some (.stmt no),none,
        [("cond",.expr cond),("then_stmt",.stmt yes),("else_stmt",.stmt no)]⟩ rest true := by
    simp only [Peg.all,Peg.take_seq,Peg.take_cut,condition,take_then ends,Peg.take_optional,
      Peg.take_named,Peg.take_call,first,other,Taken.map_ok,Taken.andThen_ok,Taken.orElse_ok,Taken.behindCut_ok,
      Bool.false_or,Bool.true_or]
    rfl
  exact stmt_begun (r := .ifStmt) (by decide) rfl inner rfl (.cons (by decide) _) ((Stops.blank (by decide)).mpr stops)

theorem stmt_ifOnly (stops : Stops [':'] text)
    (test : outcome .bexp text = .ok (.expr cond) (' ' :: ("then".toList ++ mid)) cut) (ends : WordEnd mid)
    (first : outcome .stmt mid = .ok (.stmt yes) rest false) (other : elsePart.take outcome rest = .fail false) :
    outcome .stmt ("if".toList ++ ' ' :: text) = .ok (.stmt (.ifOnly cond yes)) rest false := by
  have condition := (outcome_blank (r := .bexp) rfl (c := ' ') (by decide) text).trans test
  have inner : (Peg.all [.cut,.named "cond" (.call .bexp),.token "then",.named "then_stmt" (.call .stmt),
      .optional elsePart]).take outcome (' ' :: text) = .ok ⟨some (.stmt yes),none,
        [("cond",.expr cond),("then_stmt",.stmt yes)]⟩ rest true := by
    simp only [Peg.all,Peg.take_seq,Peg.take_cut,condition,take_then ends,Peg.take_optional,
      Peg.take_named,Peg.take_call,first,other,Taken.map_ok,Taken.andThen_ok,Taken.orElse_fail,Taken.behindCut_ok,
      Bool.false_or,Bool.true_or]
    rfl
  exact stmt_begun (r := .ifStmt) (by decide) rfl inner rfl (.cons (by decide) _) ((Stops.blank (by decide)).mpr stops)

theorem elsePart_ok (front : skipped after = "else".toList ++ mid) (ends : WordEnd mid)
    (read : outcome .stmt mid = .ok (.stmt no) rest false) :
    elsePart.take outcome after = .ok ⟨some (.stmt no),none,[("else_stmt",.stmt no)]⟩ rest false := by
  simp only [elsePart,Peg.take_seq,take_keyword front ends,Peg.take_named,Peg.take_call,read,Taken.map_ok,
    Taken.andThen_ok,Taken.behindCut_ok,Bool.or_false]
  rfl

theorem elsePart_fail (stops : Stops ['e'] rest) : elsePart.take outcome rest = .fail false := by
  have mark : (Peg.token "else").take outcome rest = .fail false := stops.token 'e' rfl (by decide)
  simp only [elsePart,Peg.take_seq,mark,Taken.andThen_fail]

theorem stmt_loop (stops : Stops [':'] text)
    (test : outcome .bexp text = .ok (.expr cond) (' ' :: ("do".toList ++ mid)) cut) (ends : WordEnd mid)
    (inside : outcome .stmt mid = .ok (.stmt body) rest false) :
    outcome .stmt ("while".toList ++ ' ' :: text) = .ok (.stmt (.loop cond body none)) rest false := by
  have condition := (outcome_blank (r := .bexp) rfl (c := ' ') (by decide) text).trans test
  have front : skipped (' ' :: ("do".toList ++ mid)) = "do".toList ++ mid := by
    rw [skipped_blank (by decide)]
    exact skipped_solid (by decide) (by decide) _
  have noInv : (Peg.token "inv").take outcome (' ' :: ("do".toList ++ mid)) = .fail false :=
    fail_token_head (c := 'i') rfl (by rw [front]; simp)
  have inner : (Peg.all [.named "cond" (.call .bexp),.optional (.seq (.token "inv") (.named "inv" (.call .bexp))),
      .token "do",.named "body" (.call .stmt)]).take outcome (' ' :: text) = .ok ⟨some (.stmt body),none,
        [("cond",.expr cond),("body",.stmt body)]⟩ rest cut := by
    simp only [Peg.all,Peg.take_seq,condition,take_keyword front ends,noInv,
      Peg.take_optional,Peg.take_named,Peg.take_call,inside,Taken.map_ok,Taken.andThen_ok,Taken.andThen_fail,
      Taken.orElse_fail,Taken.behindCut_ok,Bool.or_false]
    rfl
  exact stmt_begun (r := .whileStmt) (by decide) rfl inner rfl (.cons (by decide) _)
    ((Stops.blank (by decide)).mpr stops)

end Statements

section Lists

variable {word : String} {r : Rule} {text mid after rest : List Char} {value : Reading}
  {values : List Reading} {cut : Bool}

/-- What a list goes on with: values that `r` reads, each behind the separator. -/
inductive Listing (word : String) (r : Rule) : List Char → List Reading → List Char → Prop
  | done {text : List Char} (ends : (Peg.token word).take outcome text = .fail false) : Listing word r text [] text
  | more {text mid after rest : List Char} {value : Reading} {values : List Reading} {cut : Bool}
      (marked : (Peg.token word).take outcome text = .ok { last := some (.text word) } mid false)
      (read : outcome r mid = .ok value after cut) (next : Listing word r after values rest) :
      Listing word r text (value :: values) rest

theorem Listing.gatherTake (listing : Listing word r text values rest) {fuel : Nat} (enough : text.length ≤ fuel) :
    gatherTake ((Peg.token word).take outcome) ((Peg.call r).take outcome) fuel text =
      .ok (values.map fun v => ({ last := some (.text word) },{ last := some v })) rest false := by
  induction listing generalizing fuel with
  | done ends => exact gatherTake_end ends fuel
  | @more text mid after rest value values cut marked read next ih =>
    have valued : (Peg.call r).take outcome mid = .ok { last := some value } after cut := by
      rw [Peg.take_call,read]
      rfl
    have shorter := outcome_forward _ _ _ _ _ read
    have least := (Peg.take_forward outcome_forward _ marked).1
    obtain ⟨size,rfl⟩ := Nat.exists_eq_add_one_of_ne_zero (by omega : fuel ≠ 0)
    rw [gatherTake_step marked valued,ih (by omega)]
    rfl

theorem gather_ok (first : outcome r text = .ok value mid false) (more : Listing word r mid values rest) :
    (Peg.gather (.token word) (.call r)).take outcome text =
      .ok { last := some (.list (value :: values)) } rest false := by
  rw [Peg.take_gather,Peg.take_call,first,Taken.map_ok,Taken.andThen_ok,more.gatherTake le_rfl]
  simp [gathered,List.flatMap_map]

theorem varList_ok (first : outcome .name text = .ok value mid false) (more : Listing "," .name mid values rest) :
    outcome .varList text = .ok (.list (value :: values)) rest false := by
  rw [← outcome_skipped rfl] at first
  rw [outcome_body rfl,Rule.body,gather_ok first more]
  rfl

variable {s : Stmt} {items : List Stmt}

theorem stmtList_ok (first : outcome .stmt text = .ok (.stmt s) mid false)
    (more : Listing ";" .stmt mid (items.map .stmt) rest) :
    outcome .stmtList text = .ok (.stmt (.block (s :: items))) rest false := by
  rw [← outcome_skipped rfl] at first
  rw [outcome_body rfl,Rule.body,gather_ok first more]
  refine Taken.close_ok _ _ _ _ ((close_eq_ok (by decide)).mpr ?_)
  change some (Reading.stmt (.block (((s :: items).map Reading.stmt).filterMap Reading.stmt?))) = _
  rw [filterMap_items]

theorem stmt_block (first : outcome .stmt text = .ok (.stmt s) mid false)
    (more : Listing ";" .stmt mid (items.map .stmt) after) (front : skipped after = '\x7d' :: rest) :
    outcome .stmt ('\x7b' :: text) = .ok (.stmt (.block (s :: items))) rest false := by
  have opened : skipped ('\x7b' :: text) = '\x7b' :: text := skipped_solid (by decide) (by decide) _
  have opening : (Peg.token "\x7b").take outcome ('\x7b' :: text) = .ok { last := some (.text "\x7b") } text false :=
    take_token "\x7b" opened (runsOn_symbol (by decide) _)
  have closing : (Peg.token "\x7d").take outcome after = .ok { last := some (.text "\x7d") } rest false :=
    take_token "\x7d" front (runsOn_symbol (by decide) _)
  have block : outcome .blockStmt ('\x7b' :: text) = .ok (.stmt (.block (s :: items))) rest false := by
    rw [outcome_body rfl,opened]
    simp only [Rule.body,Peg.all,Peg.take_seq,Peg.take_keep,Peg.take_call,opening,stmtList_ok first more,closing,
      Taken.map_ok,Taken.andThen_ok,Taken.behindCut_ok,Bool.or_false]
    rfl
  have skip : outcome .skipStmt ('\x7b' :: text) = .fail false :=
    keyword_fail (by decide) (fail_token_head (c := 's') rfl (by rw [opened]; simp))
  have assign : outcome .asgnStmt ('\x7b' :: text) = .fail false := by
    have noName : outcome .name ('\x7b' :: text) = .fail false := by
      refine name_fail fun c first => .inl ?_
      rw [opened] at first
      cases first
      decide
    rw [outcome_body rfl]
    simp only [Rule.body,Peg.all,Peg.take_seq,Peg.take_named,Peg.take_call,outcome_skipped (r := .name) rfl,noName,
      Taken.map_fail,Taken.andThen_fail,Taken.close_fail]
  rw [outcome_stmt]
  simp only [List.map_cons,firstTaken_cons,skip,assign,block,Taken.orElse_fail,Taken.orElse_ok]

theorem start_ok (read : outcome .stmt text = .ok (.stmt s) [] false) :
    outcome .start text = .ok (.stmt s) [] false := by
  have none : Listing ";" .stmt [] (([] : List Stmt).map .stmt) [] := .done ((Stops.nil [';']).token ';' rfl (by decide))
  have whole : outcome .stmtList text = .ok (.stmt (.block [s])) [] false := stmtList_ok read none
  rw [outcome_body rfl,Rule.body,Peg.take_call,outcome_skipped rfl,whole]
  rfl

end Lists

end WhileExec.Grammar
