import Mathlib
import WhileExec.Proofs.Grammar.Induction
import WhileExec.Proofs.Grammar.Lexis

/-!
# What programs look like that were read

The expressions and statements that the rules give: which operators and how many operands they have, and what the
names are made of. Two facts come from the order of the options. No assignment is to a name that is read as `skip`, and
no branch before an `else` could have taken that `else` for itself.
-/

namespace WhileExec

/-- An `else` behind the statement would belong to it. -/
def Stmt.isOpen : Stmt → Bool
  | .ifOnly _ _ => true
  | .ifElse _ _ no => no.isOpen
  | .loop _ body _ => body.isOpen
  | _ => false

namespace Grammar

inductive IsTerm : Expr → Prop
  | int (n : Int) : IsTerm (.int n)
  | var {name : String} (word : IsWord name.toList) : IsTerm (.var name)
  | app {op : String} {lhs rhs : Expr} (known : op ∈ ["+","-","*","/"]) (left : IsTerm lhs) (right : IsTerm rhs) :
      IsTerm (.app .arith op [lhs,rhs])

inductive IsCondition : Expr → Prop
  | truth (b : Bool) : IsCondition (.truth (.bool b))
  | compare {op : String} {lhs rhs : Expr} (known : op ∈ ["<=","<","=",">=",">"]) (left : IsTerm lhs)
      (right : IsTerm rhs) : IsCondition (.app .compare op [lhs,rhs])
  | not {arg : Expr} (inner : IsCondition arg) : IsCondition (.app .logic "not" [arg])
  | chain {op : String} {arg : Expr} {args : List Expr} (known : op ∈ ["and","or"]) (some : args ≠ [])
      (first : IsCondition arg) (rest : ∀ e ∈ args, IsCondition e) :
      IsCondition (.app .logic (Reading.chainOperator (args.map fun _ => op)) (arg :: args))

inductive IsProgram : Stmt → Prop
  | skip : IsProgram .skip
  | printState : IsProgram .printState
  | assign {name : String} {rhs : Expr} (word : IsWord name.toList)
      (other : tokenRest? "skip".toList name.toList = none) (term : IsTerm rhs) : IsProgram (.assign name rhs)
  | ifElse {cond : Expr} {yes no : Stmt} (test : IsCondition cond) (left : IsProgram yes) (right : IsProgram no)
      (closed : yes.isOpen = false) : IsProgram (.ifElse cond yes no)
  | ifOnly {cond : Expr} {yes : Stmt} (test : IsCondition cond) (inner : IsProgram yes) : IsProgram (.ifOnly cond yes)
  | loop {cond : Expr} {body : Stmt} {inv : Option Expr} (test : IsCondition cond) (inner : IsProgram body)
      (kept : ∀ e ∈ inv, IsCondition e) : IsProgram (.loop cond body inv)
  | assert {cond : Expr} (test : IsCondition cond) : IsProgram (.assert cond)
  | assume {cond : Expr} (test : IsCondition cond) : IsProgram (.assume cond)
  | havoc {names : List String} (some : names ≠ []) (words : ∀ name ∈ names, IsWord name.toList) :
      IsProgram (.havoc names)
  | block {items : List Stmt} (some : items ≠ []) (each : ∀ s ∈ items, IsProgram s) : IsProgram (.block items)

/-- The end of a conditional statement. -/
def elsePart : Peg :=
  .seq (.token "else") (.named "else_stmt" (.call .stmt))

/-- What a rule gives at a text, and what it leaves. -/
def Shape : Rule → List Char → Reading → List Char → Prop
  | .integerText, _, v, _ => ∃ s, v = .text s
  | .nameText, text, v, rest => ∃ w, v = .text (String.ofList w) ∧ IsWord w ∧ WordEnd rest ∧ text = w ++ rest
  | .newlineText, _, _, _ => True
  | .name, text, v, rest => ∃ name, v = .expr (.var name) ∧ IsWord name.toList ∧ WordEnd rest ∧
      skipped text = name.toList ++ rest
  | .number, _, v, _ | .negNumber, _, v, _ => ∃ n, v = .expr (.int n)
  | .atom, _, v, _ | .factor, _, v, _ | .mult, _, v, _ | .division, _, v, _ | .term, _, v, _ | .addition, _, v, _
  | .subtraction, _, v, _ | .aexp, _, v, _ => ∃ e, v = .expr e ∧ IsTerm e
  | .rop, _, v, _ => ∃ op ∈ ["<=","<","=",">=",">"], v = .text op
  | .rexp, _, v, _ | .boolConst, _, v, _ | .batom, _, v, _ | .bfactor, _, v, _ | .bterm, _, v, _ | .bexp, _, v, _ =>
      ∃ e, v = .expr e ∧ IsCondition e
  | .varList, _, v, _ => ∃ names : List String, v = .list (names.map fun name => .expr (.var name)) ∧ names ≠ [] ∧
      ∀ name ∈ names, IsWord name.toList
  | .asgnStmt, text, v, _ => ∃ name rhs rest, v = .stmt (.assign name rhs) ∧ IsWord name.toList ∧ IsTerm rhs ∧
      WordEnd rest ∧ skipped text = name.toList ++ rest
  | .stmtList, _, v, _ | .blockStmt, _, v, _ => ∃ items, v = .stmt (.block items) ∧ IsProgram (.block items)
  | .start, _, v, _ => ∃ s, v = .stmt s ∧ IsProgram s
  | .skipStmt, _, v, rest | .printStateStmt, _, v, rest | .ifStmt, _, v, rest | .whileStmt, _, v, rest
  | .assertStmt, _, v, rest | .assumeStmt, _, v, rest | .havocStmt, _, v, rest | .stmt, _, v, rest =>
      ∃ s, v = .stmt s ∧ IsProgram s ∧ (s.isOpen = true → elsePart.take outcome rest = .fail false)

theorem close_eq_ok {r : Rule} (other : r ≠ .number) {p : Parts Reading} {value : Reading} :
    Reading.close r p = .ok value ↔ Reading.ofParts? r p = some value := by
  unfold Reading.close
  split
  · contradiction
  · split <;> simp [*]

section Expressions

variable {Q : Rule → List Char → Reading → List Char → Prop} {text rest : List Char} {p : Parts Reading}
  {value : Reading}

theorem reads_named_call {field : String} {r : Rule} :
    (Peg.named field (.call r)).Reads Q text p rest ↔ ∃ value cut, outcome r text = .ok value rest cut ∧
      Q r text value rest ∧ p = { last := some value, fields := [(field,value)] } := by
  constructor
  · rintro ⟨_,⟨value,cut,read,known,rfl⟩,rfl⟩
    exact ⟨value,cut,read,known,rfl⟩
  · rintro ⟨value,cut,read,known,rfl⟩
    exact ⟨_,⟨value,cut,read,known,rfl⟩,rfl⟩

theorem reads_named_token {field word : String} :
    (Peg.named field (.token word)).Reads Q text p rest ↔ tokenRest? word.toList (skipped text) = some rest ∧
      p = { last := some (.text word), fields := [(field,.text word)] } := by
  constructor
  · rintro ⟨_,⟨found,rfl⟩,rfl⟩
    exact ⟨found,rfl⟩
  · rintro ⟨found,rfl⟩
    exact ⟨_,⟨found,rfl⟩,rfl⟩

theorem operation_parts {left right : Rule} {op : String} {form : Form}
    (lhs : ∀ {t v u}, Shape left t v u → ∃ e, v = .expr e ∧ IsTerm e)
    (rhs : ∀ {t v u}, Shape right t v u → ∃ e, v = .expr e ∧ IsTerm e)
    (reads : (Rule.operation left op right).Reads Shape text p rest) (closed : Reading.operation form p = some value) :
    ∃ a b, value = .expr (.app form op [a,b]) ∧ IsTerm a ∧ IsTerm b := by
  obtain ⟨_,_,_,first,⟨_,_,_,mark,⟨_,_,_,⟨rfl,rfl⟩,second,rfl⟩,rfl⟩,rfl⟩ := reads
  obtain ⟨v,_,_,left,rfl⟩ := reads_named_call.mp first
  obtain ⟨-,rfl⟩ := reads_named_token.mp mark
  obtain ⟨w,_,_,right,rfl⟩ := reads_named_call.mp second
  obtain ⟨a,rfl,one⟩ := lhs left
  obtain ⟨b,rfl,two⟩ := rhs right
  simp only [Reading.operation,Parts.append,Parts.value?,Parts.values,Reading.expr?,Reading.text?] at closed
  exact ⟨a,b,(Option.some.inj closed).symm,one,two⟩

/-- The fields that the operands of a chain after the first are read into. -/
def chainFields (op : String) (args : List Expr) : List (String × Reading) :=
  args.flatMap fun e => [("op",.text op),("args",.expr e)]

theorem chainFields_args (op : String) (args : List Expr) :
    (((chainFields op args).filter (·.1 == "args")).map (·.2)).filterMap Reading.expr? = args := by
  induction args with
  | nil => rfl
  | cons e args ih => simpa [chainFields,List.filter,Reading.expr?] using ih

theorem chainFields_op (op : String) (args : List Expr) :
    (((chainFields op args).filter (·.1 == "op")).map (·.2)).filterMap Reading.text? = args.map fun _ => op := by
  induction args with
  | nil => rfl
  | cons e args ih => simpa [chainFields,List.filter,Reading.text?] using ih

theorem chain_eq (op : String) (arg : Expr) (args : List Expr)
    (fields : p.fields = ("args",.expr arg) :: chainFields op args) :
    Reading.chain p = some (.expr (if args = [] then arg else
      .app .logic (Reading.chainOperator (args.map fun _ => op)) (arg :: args))) := by
  have operands : (p.values "args").filterMap Reading.expr? = arg :: args := by
    simpa [Parts.values,fields,Reading.expr?] using chainFields_args op args
  have operators : (p.values "op").filterMap Reading.text? = args.map fun _ => op := by
    rw [← chainFields_op op args]
    simp [Parts.values,fields]
  unfold Reading.chain
  rw [operands,operators]
  cases args <;> rfl

theorem gathers_chain {op : String} {r : Rule} (known : ∀ {t v u}, Shape r t v u → ∃ e, v = .expr e ∧ IsCondition e)
    {entries : List (Parts Reading × Parts Reading)}
    (reads : Gathers ((Peg.named "op" (.token op)).Reads Shape) ((Peg.named "args" (.call r)).Reads Shape) entries
      text rest) :
    ∃ args : List Expr, (∀ e ∈ args, IsCondition e) ∧
      (entries.flatMap fun entry => entry.1.fields ++ entry.2.fields) = chainFields op args := by
  induction entries generalizing text with
  | nil => exact ⟨[],by simp,rfl⟩
  | cons entry entries ih =>
    obtain ⟨t,u,mark,value,more⟩ := reads
    obtain ⟨args,each,same⟩ := ih more
    obtain ⟨-,mark⟩ := reads_named_token.mp mark
    obtain ⟨v,_,_,shape,value⟩ := reads_named_call.mp value
    obtain ⟨e,rfl,cond⟩ := known shape
    refine ⟨e :: args,by simpa [cond] using each,?_⟩
    rw [List.flatMap_cons,same,mark,value]
    rfl

theorem chain_parts {op : String} (connective : op ∈ ["and","or"]) {r : Rule}
    (known : ∀ {t v u}, Shape r t v u → ∃ e, v = .expr e ∧ IsCondition e)
    (reads : (Peg.gather (.named "op" (.token op)) (.named "args" (.call r))).Reads Shape text p rest)
    (closed : Reading.chain p = some value) : ∃ e, value = .expr e ∧ IsCondition e := by
  obtain ⟨_,_,entries,first,more,rfl⟩ := reads
  obtain ⟨v,_,_,shape,rfl⟩ := reads_named_call.mp first
  obtain ⟨arg,rfl,cond⟩ := known shape
  obtain ⟨args,each,same⟩ := gathers_chain known more
  rw [chain_eq op arg args (by simp [gathered,same])] at closed
  cases closed
  refine ⟨_,rfl,?_⟩
  split
  · exact cond
  next some => exact .chain connective some cond each

theorem firstOf_reads {message : String} {options : List Peg}
    (reads : (Peg.firstOf message options).Reads Q text p rest) : ∃ e ∈ options, e.Reads Q text p rest := by
  induction options with
  | nil => exact reads.elim
  | cons e options ih =>
    rcases reads with now | ⟨-,later⟩
    · exact ⟨e,by simp,now⟩
    · obtain ⟨e,member,reads⟩ := ih later
      exact ⟨e,by simp [member],reads⟩

theorem call_single {r : Rule} (reads : (Peg.call r).Reads Q text p rest) (single : p.single? = some value) :
    Q r text value rest := by
  obtain ⟨_,_,_,known,rfl⟩ := reads
  cases single
  exact known

theorem enclosed_single {before after : String} {r : Rule}
    (reads : (Peg.all [.token before,.keep (.call r),.token after]).Reads Q text p rest)
    (single : p.single? = some value) : ∃ t u, Q r t value u := by
  obtain ⟨_,t,_,⟨-,rfl⟩,⟨_,u,_,⟨_,⟨_,_,_,known,rfl⟩,rfl⟩,⟨-,rfl⟩,rfl⟩,rfl⟩ := reads
  cases single
  exact ⟨t,u,known⟩

theorem number_parts (reads : (Rule.body .number).Reads Shape text p rest)
    (closed : Reading.close .number p = .ok value) : ∃ n, value = .expr (.int n) := by
  obtain ⟨_,_,_,⟨s,rfl⟩,rfl⟩ := reads
  simp only [Reading.close,Parts.single?,Option.or] at closed
  split at closed
  · cases closed; exact ⟨_,rfl⟩
  · cases closed

theorem negNumber_parts (reads : (Rule.body .negNumber).Reads Shape text p rest)
    (closed : Reading.ofParts? .negNumber p = some value) : ∃ n, value = .expr (.int n) := by
  obtain ⟨_,_,_,⟨-,rfl⟩,⟨_,_,_,⟨rfl,rfl⟩,⟨_,⟨_,_,_,⟨n,rfl⟩,rfl⟩,rfl⟩,rfl⟩,rfl⟩ := reads
  cases closed
  exact ⟨_,rfl⟩

theorem atom_parts (reads : (Rule.body .atom).Reads Shape text p rest)
    (closed : Reading.ofParts? .atom p = some value) : ∃ e, value = .expr e ∧ IsTerm e := by
  obtain ⟨e,member,reads⟩ := firstOf_reads reads
  simp only [List.mem_cons,List.not_mem_nil,or_false] at member
  rcases member with rfl | rfl
  · obtain ⟨name,rfl,word,-⟩ := call_single reads closed
    exact ⟨_,rfl,.var word⟩
  · obtain ⟨n,rfl⟩ := call_single reads closed
    exact ⟨_,rfl,.int n⟩

theorem factor_parts (reads : (Rule.body .factor).Reads Shape text p rest)
    (closed : Reading.ofParts? .factor p = some value) : ∃ e, value = .expr e ∧ IsTerm e := by
  obtain ⟨e,member,reads⟩ := firstOf_reads reads
  simp only [List.mem_cons,List.not_mem_nil,or_false] at member
  rcases member with rfl | rfl | rfl
  · exact call_single reads closed
  · obtain ⟨n,rfl⟩ := call_single reads closed
    exact ⟨_,rfl,.int n⟩
  · obtain ⟨_,_,known⟩ := enclosed_single reads closed
    exact known

theorem rop_parts (reads : (Rule.body .rop).Reads Shape text p rest)
    (closed : Reading.ofParts? .rop p = some value) : ∃ op ∈ ["<=","<","=",">=",">"], value = .text op := by
  obtain ⟨e,member,reads⟩ := firstOf_reads reads
  simp only [List.mem_cons,List.not_mem_nil,or_false] at member
  rcases member with rfl | rfl | rfl | rfl | rfl <;> obtain ⟨-,rfl⟩ := reads <;> cases closed <;>
    exact ⟨_,by simp,rfl⟩

theorem rexp_parts (reads : (Rule.body .rexp).Reads Shape text p rest)
    (closed : Reading.ofParts? .rexp p = some value) : ∃ e, value = .expr e ∧ IsCondition e := by
  obtain ⟨_,_,_,first,⟨_,_,_,mark,⟨_,_,_,⟨rfl,rfl⟩,second,rfl⟩,rfl⟩,rfl⟩ := reads
  obtain ⟨_,_,_,⟨a,rfl,left⟩,rfl⟩ := reads_named_call.mp first
  obtain ⟨_,_,_,⟨op,known,rfl⟩,rfl⟩ := reads_named_call.mp mark
  obtain ⟨_,_,_,⟨b,rfl,right⟩,rfl⟩ := reads_named_call.mp second
  cases closed
  exact ⟨_,rfl,.compare known left right⟩

theorem boolConst_parts (reads : (Rule.body .boolConst).Reads Shape text p rest)
    (closed : Reading.ofParts? .boolConst p = some value) : ∃ e, value = .expr e ∧ IsCondition e := by
  obtain ⟨e,member,reads⟩ := firstOf_reads reads
  simp only [List.mem_cons,List.not_mem_nil,or_false] at member
  rcases member with rfl | rfl <;> obtain ⟨-,rfl⟩ := reads <;> cases closed <;> exact ⟨_,rfl,.truth _⟩

theorem batom_parts (reads : (Rule.body .batom).Reads Shape text p rest)
    (closed : Reading.ofParts? .batom p = some value) : ∃ e, value = .expr e ∧ IsCondition e := by
  obtain ⟨e,member,reads⟩ := firstOf_reads reads
  simp only [List.mem_cons,List.not_mem_nil,or_false] at member
  rcases member with rfl | rfl | rfl
  · exact call_single reads closed
  · exact call_single reads closed
  · obtain ⟨_,_,known⟩ := enclosed_single reads closed
    exact known

theorem bfactor_parts (reads : (Rule.body .bfactor).Reads Shape text p rest)
    (closed : Reading.ofParts? .bfactor p = some value) : ∃ e, value = .expr e ∧ IsCondition e := by
  obtain ⟨e,member,reads⟩ := firstOf_reads reads
  simp only [List.mem_cons,List.not_mem_nil,or_false] at member
  rcases member with rfl | rfl
  · obtain ⟨_,_,_,⟨e,rfl,test⟩,rfl⟩ := reads_named_call.mp reads
    cases closed
    exact ⟨e,rfl,test⟩
  · obtain ⟨_,_,_,mark,⟨_,_,_,⟨rfl,rfl⟩,arg,rfl⟩,rfl⟩ := reads
    obtain ⟨-,rfl⟩ := reads_named_token.mp mark
    obtain ⟨_,_,_,⟨e,rfl,test⟩,rfl⟩ := reads_named_call.mp arg
    cases closed
    exact ⟨_,rfl,.not test⟩

end Expressions

section Statements

variable {text rest : List Char} {p : Parts Reading} {value : Reading}

theorem gathers_calls {mark : Peg} {r : Rule} {P : Reading → Prop} (known : ∀ {t v u}, Shape r t v u → P v)
    {entries : List (Parts Reading × Parts Reading)}
    (reads : Gathers (mark.Reads Shape) ((Peg.call r).Reads Shape) entries text rest) :
    ∃ values : List Reading, (∀ v ∈ values, P v) ∧ entries.flatMap (·.2.last.toList) = values := by
  induction entries generalizing text with
  | nil => exact ⟨[],by simp,rfl⟩
  | cons entry entries ih =>
    obtain ⟨t,u,-,⟨v,_,_,shape,value⟩,more⟩ := reads
    obtain ⟨values,each,same⟩ := ih more
    refine ⟨v :: values,by simpa [known shape] using each,?_⟩
    rw [List.flatMap_cons,same,value]
    rfl

theorem gather_reads {mark : Peg} {r : Rule} {P : Reading → Prop} (known : ∀ {t v u}, Shape r t v u → P v)
    (reads : (Peg.gather mark (.call r)).Reads Shape text p rest) :
    ∃ values : List Reading, p.single? = some (.list values) ∧ values ≠ [] ∧ ∀ v ∈ values, P v := by
  obtain ⟨_,_,entries,⟨v,_,_,shape,rfl⟩,more,rfl⟩ := reads
  obtain ⟨values,each,same⟩ := gathers_calls known more
  refine ⟨v :: values,?_,by simp,by simpa [known shape] using each⟩
  simp [gathered,Parts.single?,same]

theorem skipStmt_failed (failed : outcome .skipStmt text = .fail false) :
    tokenRest? "skip".toList (skipped text) = none := by
  rw [outcome_eq] at failed
  by_contra found
  obtain ⟨rest,found⟩ := Option.ne_none_iff_exists'.mp found
  have body : (Peg.token "skip").take outcome (skipped text) = .ok { last := some (.text "skip") } rest false := by
    unfold Peg.take
    rw [skipped_skipped,found]
  change ((Peg.token "skip").take outcome (skipped text)).close _ = _ at failed
  rw [body] at failed
  cases failed

/-- The end of a conditional statement is there, so it did not fail. -/
theorem elsePart_reads (reads : elsePart.Reads Shape text p rest) :
    elsePart.take outcome text ≠ .fail false ∧
      ∃ no, p = { last := some (.stmt no), fields := [("else_stmt",.stmt no)] } ∧ IsProgram no ∧
        (no.isOpen = true → elsePart.take outcome rest = .fail false) := by
  obtain ⟨_,t,_,⟨found,rfl⟩,last,rfl⟩ := reads
  obtain ⟨_,cut,read,⟨no,rfl,right,dangling⟩,rfl⟩ := reads_named_call.mp last
  refine ⟨fun failed => ?_,no,rfl,right,dangling⟩
  simp only [elsePart,Peg.take,found,read,Taken.andThen_ok,Taken.map_ok,Taken.behindCut_ok] at failed
  cases failed

theorem ifStmt_parts (reads : (Rule.body .ifStmt).Reads Shape text p rest)
    (closed : Reading.ofParts? .ifStmt p = some value) :
    ∃ s, value = .stmt s ∧ IsProgram s ∧ (s.isOpen = true → elsePart.take outcome rest = .fail false) := by
  obtain ⟨_,_,_,⟨-,rfl⟩,⟨_,_,_,⟨rfl,rfl⟩,⟨_,_,_,test,⟨_,_,_,⟨-,rfl⟩,⟨_,_,_,branch,last,rfl⟩,rfl⟩,rfl⟩,rfl⟩,rfl⟩ := reads
  obtain ⟨_,_,_,⟨cond,rfl,condition⟩,rfl⟩ := reads_named_call.mp test
  obtain ⟨_,_,_,⟨yes,rfl,left,dangling⟩,rfl⟩ := reads_named_call.mp branch
  rcases last with there | ⟨missing,rfl,rfl⟩
  · obtain ⟨fine,no,rfl,right,last⟩ := elsePart_reads there
    cases closed
    refine ⟨_,rfl,.ifElse condition left right ?_,last⟩
    by_contra isOpen
    exact fine (dangling (by simpa using isOpen))
  · cases closed
    exact ⟨_,rfl,.ifOnly condition left,fun _ => missing⟩

theorem whileStmt_parts (reads : (Rule.body .whileStmt).Reads Shape text p rest)
    (closed : Reading.ofParts? .whileStmt p = some value) :
    ∃ s, value = .stmt s ∧ IsProgram s ∧ (s.isOpen = true → elsePart.take outcome rest = .fail false) := by
  obtain ⟨_,_,_,⟨-,rfl⟩,⟨_,_,_,test,⟨_,_,_,kept,⟨_,_,_,⟨-,rfl⟩,body,rfl⟩,rfl⟩,rfl⟩,rfl⟩ := reads
  obtain ⟨_,_,_,⟨cond,rfl,condition⟩,rfl⟩ := reads_named_call.mp test
  obtain ⟨_,_,_,⟨s,rfl,inner,dangling⟩,rfl⟩ := reads_named_call.mp body
  rcases kept with ⟨_,_,_,⟨-,rfl⟩,inv,rfl⟩ | ⟨-,rfl,rfl⟩
  · obtain ⟨_,_,_,⟨e,rfl,known⟩,rfl⟩ := reads_named_call.mp inv
    cases closed
    exact ⟨_,rfl,.loop condition inner (by simpa using known),dangling⟩
  · cases closed
    exact ⟨_,rfl,.loop condition inner (by simp),dangling⟩

theorem exists_names {values : List Reading}
    (each : ∀ v ∈ values, ∃ name : String, v = .expr (.var name) ∧ IsWord name.toList) :
    ∃ names : List String, values = names.map (fun name => .expr (.var name)) ∧ ∀ name ∈ names, IsWord name.toList := by
  induction values with
  | nil => exact ⟨[],rfl,by simp⟩
  | cons v values ih =>
    obtain ⟨name,rfl,word⟩ := each v (by simp)
    obtain ⟨names,rfl,words⟩ := ih fun w member => each w (by simp [member])
    exact ⟨name :: names,rfl,by simpa [word] using words⟩

theorem exists_items {values : List Reading} (each : ∀ v ∈ values, ∃ s, v = .stmt s ∧ IsProgram s) :
    ∃ items : List Stmt, values = items.map .stmt ∧ ∀ s ∈ items, IsProgram s := by
  induction values with
  | nil => exact ⟨[],rfl,by simp⟩
  | cons v values ih =>
    obtain ⟨s,rfl,known⟩ := each v (by simp)
    obtain ⟨items,rfl,rest⟩ := ih fun w member => each w (by simp [member])
    exact ⟨s :: items,rfl,by simpa [known] using rest⟩

theorem filterMap_items (items : List Stmt) : (items.map Reading.stmt).filterMap Reading.stmt? = items := by
  induction items with
  | nil => rfl
  | cons s items ih => simpa [Reading.stmt?] using ih

theorem filterMap_names (names : List String) :
    (names.map fun name => Reading.expr (.var name)).filterMap Reading.name? = names := by
  induction names with
  | nil => rfl
  | cons name names ih => simpa [Reading.name?] using ih

theorem stmt_parts (reads : (Rule.body .stmt).Reads Shape (skipped text) p rest)
    (closed : Reading.ofParts? .stmt p = some value) :
    ∃ s, value = .stmt s ∧ IsProgram s ∧ (s.isOpen = true → elsePart.take outcome rest = .fail false) := by
  rcases reads with ⟨_,_,_,known,rfl⟩ | ⟨failed,reads⟩
  · cases closed
    exact known
  have noSkip : tokenRest? "skip".toList (skipped (skipped text)) = none := by
    refine skipStmt_failed ?_
    simp only [Peg.take] at failed
    cases read : outcome .skipStmt (skipped text) with
    | ok | stop => rw [read] at failed; cases failed
    | fail cut => simpa [read] using failed
  obtain ⟨e,member,reads⟩ := firstOf_reads reads
  simp only [List.mem_cons,List.not_mem_nil,or_false] at member
  rcases member with rfl | rfl | rfl | rfl | rfl | rfl | rfl | rfl
  · obtain ⟨_,_,_,⟨name,rhs,after,rfl,word,term,ends,front⟩,rfl⟩ := reads
    cases closed
    rw [front] at noSkip
    exact ⟨_,rfl,.assign word ((tokenRest?_append rfl ends _).mp noSkip) term,by simp [Stmt.isOpen]⟩
  · obtain ⟨_,_,_,⟨items,rfl,known⟩,rfl⟩ := reads
    cases closed
    exact ⟨_,rfl,known,by simp [Stmt.isOpen]⟩
  all_goals
    obtain ⟨_,_,_,known,rfl⟩ := reads
    cases closed
    exact known

theorem varList_parts (reads : (Rule.body .varList).Reads Shape text p rest)
    (closed : Reading.ofParts? .varList p = some value) :
    ∃ names : List String, value = .list (names.map fun name => .expr (.var name)) ∧ names ≠ [] ∧
      ∀ name ∈ names, IsWord name.toList := by
  have each {t v u} (shape : Shape .name t v u) : ∃ name : String, v = .expr (.var name) ∧ IsWord name.toList := by
    obtain ⟨name,same,word,-⟩ := shape
    exact ⟨name,same,word⟩
  obtain ⟨values,single,some,words⟩ := gather_reads each reads
  cases single.symm.trans closed
  obtain ⟨names,rfl,known⟩ := exists_names words
  exact ⟨names,rfl,by simpa using some,known⟩

theorem havocStmt_parts (reads : (Rule.body .havocStmt).Reads Shape text p rest)
    (closed : Reading.ofParts? .havocStmt p = some value) :
    ∃ s, value = .stmt s ∧ IsProgram s ∧ (s.isOpen = true → elsePart.take outcome rest = .fail false) := by
  obtain ⟨_,_,_,⟨-,rfl⟩,vars,rfl⟩ := reads
  obtain ⟨_,_,_,⟨names,rfl,some,words⟩,rfl⟩ := reads_named_call.mp vars
  simp only [Reading.ofParts?,Parts.append,Parts.value?,Parts.values] at closed
  have havoc : value = .stmt (.havoc ((names.map fun name => Reading.expr (.var name)).filterMap Reading.name?)) :=
    (Option.some.inj closed).symm
  rw [filterMap_names] at havoc
  exact ⟨_,havoc,.havoc some words,by simp [Stmt.isOpen]⟩

theorem demand_parts {word : String}
    (reads : (Peg.seq (.token word) (.named "cond" (.call .bexp))).Reads Shape text p rest) :
    ∃ cond, p.value? "cond" = some (.expr cond) ∧ IsCondition cond := by
  obtain ⟨_,_,_,⟨-,rfl⟩,test,rfl⟩ := reads
  obtain ⟨_,_,_,⟨cond,rfl,condition⟩,rfl⟩ := reads_named_call.mp test
  exact ⟨cond,rfl,condition⟩

theorem stmtList_parts (reads : (Rule.body .stmtList).Reads Shape text p rest)
    (closed : Reading.ofParts? .stmtList p = some value) :
    ∃ items, value = .stmt (.block items) ∧ IsProgram (.block items) := by
  have each {t v u} (shape : Shape .stmt t v u) : ∃ s, v = .stmt s ∧ IsProgram s := by
    obtain ⟨s,same,known,-⟩ := shape
    exact ⟨s,same,known⟩
  obtain ⟨values,single,some,known⟩ := gather_reads each reads
  obtain ⟨items,rfl,programs⟩ := exists_items known
  simp only [Reading.ofParts?,single,Reading.items] at closed
  have block : value = .stmt (.block ((items.map Reading.stmt).filterMap Reading.stmt?)) :=
    (Option.some.inj closed).symm
  rw [filterMap_items] at block
  exact ⟨items,block,.block (by simpa using some) programs⟩

theorem start_parts (reads : (Rule.body .start).Reads Shape text p rest)
    (closed : Reading.ofParts? .start p = some value) : ∃ s, value = .stmt s ∧ IsProgram s := by
  obtain ⟨_,_,_,⟨items,rfl,known⟩,rfl⟩ := reads
  cases known with
  | block some programs =>
    cases items with
    | nil => contradiction
    | cons s rest =>
      cases rest with
      | nil => cases closed; exact ⟨s,rfl,programs s (by simp)⟩
      | cons t rest => cases closed; exact ⟨_,rfl,.block some programs⟩

end Statements

theorem outcome_shape {r : Rule} {text rest : List Char} {value : Reading} {cut : Bool}
    (read : outcome r text = .ok value rest cut) : Shape r text value rest := by
  refine outcome_induction (Q := Shape) ?_ read
  intro r text value rest p reads closed
  by_cases number : r = .number
  · subst number
    exact number_parts reads closed
  rw [close_eq_ok number] at closed
  cases r with
  | number => contradiction
  | integerText =>
    obtain ⟨-,rfl,-⟩ := reads
    cases closed
    exact ⟨_,rfl⟩
  | nameText =>
    obtain ⟨some,rfl,rfl⟩ := reads
    cases closed
    exact ⟨_,rfl,isWord_of_take some⟩
  | newlineText => trivial
  | name =>
    obtain ⟨_,_,_,⟨w,rfl,word,ends,same⟩,rfl⟩ := reads
    cases closed
    exact ⟨_,rfl,by simpa using word,ends,by rw [String.toList_ofList]; exact same⟩
  | negNumber => exact negNumber_parts reads closed
  | atom => exact atom_parts reads closed
  | factor => exact factor_parts reads closed
  | mult | division | addition | subtraction =>
    obtain ⟨a,b,rfl,left,right⟩ := operation_parts id id reads closed
    exact ⟨_,rfl,.app (by simp) left right⟩
  | term | aexp =>
    obtain ⟨e,member,reads⟩ := firstOf_reads reads
    simp only [List.mem_cons,List.not_mem_nil,or_false] at member
    rcases member with rfl | rfl | rfl
    all_goals
      have known := call_single reads closed
      exact known
  | rop => exact rop_parts reads closed
  | rexp => exact rexp_parts reads closed
  | boolConst => exact boolConst_parts reads closed
  | batom => exact batom_parts reads closed
  | bfactor => exact bfactor_parts reads closed
  | bterm | bexp => exact chain_parts (by simp) id reads closed
  | varList => exact varList_parts reads closed
  | skipStmt =>
    cases closed
    exact ⟨_,rfl,.skip,by simp [Stmt.isOpen]⟩
  | printStateStmt =>
    cases closed
    exact ⟨_,rfl,.printState,by simp [Stmt.isOpen]⟩
  | asgnStmt =>
    obtain ⟨_,_,_,lhs,⟨_,_,_,⟨-,rfl⟩,rhs,rfl⟩,rfl⟩ := reads
    obtain ⟨_,_,_,⟨name,rfl,word,ends,front⟩,rfl⟩ := reads_named_call.mp lhs
    obtain ⟨_,_,_,⟨e,rfl,term⟩,rfl⟩ := reads_named_call.mp rhs
    cases closed
    exact ⟨name,e,_,rfl,word,term,ends,(skipped_skipped text).symm.trans front⟩
  | blockStmt =>
    obtain ⟨_,_,known⟩ := enclosed_single reads closed
    exact known
  | assertStmt =>
    obtain ⟨cond,found,condition⟩ := demand_parts reads
    simp only [Reading.ofParts?,found] at closed
    cases closed
    exact ⟨_,rfl,.assert condition,by simp [Stmt.isOpen]⟩
  | assumeStmt =>
    obtain ⟨cond,found,condition⟩ := demand_parts reads
    simp only [Reading.ofParts?,found] at closed
    cases closed
    exact ⟨_,rfl,.assume condition,by simp [Stmt.isOpen]⟩
  | havocStmt => exact havocStmt_parts reads closed
  | ifStmt => exact ifStmt_parts reads closed
  | whileStmt => exact whileStmt_parts reads closed
  | stmt => exact stmt_parts reads closed
  | stmtList => exact stmtList_parts reads closed
  | start => exact start_parts reads closed

end Grammar

end WhileExec
