import Mathlib
import WhileExec.Print
import WhileExec.Proofs.Grammar.Expressions
import WhileExec.Proofs.Stripping

/-!
# Written expressions are read back

A term or a condition is read back from its text, whatever follows, as long as what follows is not read as a part of
it. Terms are read back as factors where they stand in brackets and as sums where they do not; conditions likewise.

What is in brackets can be a term or a condition, and terms are tried first. So a condition must also be known not to
begin with a term after which the bracket is closed or a comparison goes on: `IsTest.aexp_apart`.
-/

namespace WhileExec

namespace Written

variable (a b : Written)

@[simp] theorem fault_append : (a ++ b).fault = a.fault.or b.fault := by
  change (append a b).fault = _
  unfold append
  split
  next fault broken => simp [broken]
  next whole => simp [whole]

theorem text_append (whole : a.fault = none) : (a ++ b).text = a.text ++ b.text := by
  change (append a b).text = _
  simp [append,whole]

end Written

/-! The texts of expressions and statements by those of their parts. -/

namespace Expr

variable (bare : Bool) (form : Form) (op : String) (arg next : Expr) (args : List Expr)

theorem write_single : (app form op [arg]).write bare = (↑op : Written) ++ arg.write false := rfl

theorem write_several : (app form op (arg :: next :: args)).write bare = (↑(if bare then "" else "(") : Written) ++
    arg.write false ++ writeRest op (next :: args) ++ (↑(if bare then "" else ")") : Written) := rfl

theorem writeRest_cons : writeRest op (arg :: args) = (↑(" " ++ op ++ " ") : Written) ++ arg.write false ++
    writeRest op args := rfl

theorem writeRest_nil : writeRest op [] = (↑"" : Written) := rfl

end Expr

namespace Stmt

variable (indent : Int) (name : String) (names : List String) (cond rhs : Expr) (yes no body item next : Stmt)
  (inv : Option Expr) (items : List Stmt)

theorem write_assign : (assign name rhs).write indent = (↑(name ++ " := ") : Written) ++ rhs.write true := rfl

theorem write_assert : (assert cond).write indent = (↑"assert " : Written) ++ cond.write true := rfl

theorem write_assume : (assume cond).write indent = (↑"assume " : Written) ++ cond.write true := rfl

theorem write_havoc : (havoc names).write indent = (↑"havoc " : Written) ++ writeNames names := rfl

theorem write_ifElse : (ifElse cond yes no).write indent = (↑"if " : Written) ++ cond.write true ++
    (↑(" then\n" ++ spaces (indent + 2)) : Written) ++ yes.write (indent + 2) ++
    (↑("\n" ++ spaces indent ++ "else\n" ++ spaces (indent + 2)) : Written) ++ no.write (indent + 2) := rfl

theorem write_ifOnly : (ifOnly cond yes).write indent = (↑"if " : Written) ++ cond.write true ++
    (↑(" then\n" ++ spaces (indent + 2)) : Written) ++ yes.write (indent + 2) := rfl

theorem write_loop : (loop cond body inv).write indent = (↑"while " : Written) ++ cond.write true ++
    (↑(" do\n" ++ spaces (indent + 2)) : Written) ++ body.write (indent + 2) := rfl

theorem write_lone : (block [item]).write indent = (↑(spaces indent) : Written) ++ item.write (indent + 2) := rfl

theorem write_block : (block (item :: next :: items)).write indent =
    (↑(spaces indent ++ "\x7b\n" ++ spaces (indent + 2)) : Written) ++ item.write (indent + 2) ++
      writeRest (indent + 2) (next :: items) ++ (↑("\n" ++ spaces indent ++ "\x7d") : Written) := rfl

theorem writeRest_item : writeRest indent (item :: items) = (↑(";\n" ++ spaces indent) : Written) ++
    item.write indent ++ writeRest indent items := rfl

end Stmt

def Expr.chars (bare : Bool) (e : Expr) : List Char :=
  (e.write bare).text.toList

/-- Nothing is missing in the text of the expression. -/
def Expr.Whole (e : Expr) : Prop :=
  ∀ bare, (e.write bare).fault = none

/-- Nothing is missing in the text of the statement. -/
def Stmt.Whole (s : Stmt) : Prop :=
  ∀ indent, (s.write indent).fault = none

namespace Grammar

def brackets (bare : Bool) (text : List Char) : List Char :=
  if bare then text else '(' :: (text ++ [')'])

/-- The text between two operands. -/
def spaced (op : String) (text : List Char) : List Char :=
  ' ' :: (op.toList ++ ' ' :: text)

section Texts

variable {form : Form} {op : String} {lhs rhs arg : Expr}

theorem writeRest_whole {args : List Expr} (each : ∀ e ∈ args, e.Whole) : (Expr.writeRest op args).fault = none := by
  induction args with
  | nil => rfl
  | cons e args ih => simp [Expr.writeRest_cons,each e (by simp) false,ih fun d member => each d (by simp [member])]

theorem whole_app {args : List Expr} (first : arg.Whole) (rest : ∀ e ∈ args, e.Whole) :
    (Expr.app form op (arg :: args)).Whole := by
  intro bare
  cases args with
  | nil => simp [Expr.write_single,first false]
  | cons e args => simp [Expr.write_several,first false,writeRest_whole rest]

theorem chars_pair (left : lhs.Whole) (right : rhs.Whole) (bare : Bool) :
    (Expr.app form op [lhs,rhs]).chars bare =
      brackets bare (lhs.chars false ++ spaced op (rhs.chars false)) := by
  cases bare <;>
    simp [Expr.chars,Expr.write_several,Expr.writeRest_cons,Expr.writeRest_nil,Written.text_append,left false,
      right false,brackets,spaced]

theorem chars_single (bare : Bool) : (Expr.app form op [arg]).chars bare = op.toList ++ arg.chars false := by
  simp [Expr.chars,Expr.write_single,Written.text_append]

end Texts

section Terms

variable {text rest after : List Char} {value : Reading} {e lhs rhs : Expr}

theorem term_of_factor (read : outcome .factor text = .ok value rest false) (stops : Stops ['*','/'] rest) :
    outcome .term text = .ok value rest false :=
  termLevel.outcome_operand read (stops.token '*' rfl (by decide)) (stops.token '/' rfl (by decide))

theorem aexp_of_factor (read : outcome .factor text = .ok value rest false) (stops : Stops ['+','-','*','/'] rest) :
    outcome .aexp text = .ok value rest false :=
  sumLevel.outcome_operand (term_of_factor read (stops.mono (by decide))) (stops.token '+' rfl (by decide))
    (stops.token '-' rfl (by decide))

theorem aexp_fail (failed : outcome .factor text = .fail false) : outcome .aexp text = .fail false :=
  sumLevel.outcome_fail (termLevel.outcome_fail failed)

theorem stops_of_factor {cut : Bool} (read : outcome .factor text = .ok value rest cut) : Stops [':'] text := by
  intro c first member
  cases List.mem_singleton.mp member
  have head (d : Char) (known : d ∈ (skipped text).head?) : d = ':' := Option.mem_unique known first
  have noAtom : outcome .atom text = .fail false := atom_fail fun d known => by rw [head d known]; decide
  have noMinus : Stops ['-'] text := fun d known => by rw [head d known]; decide
  have noBracket : Stops ['('] (skipped text) := Stops.skipped.mpr fun d known => by rw [head d known]; decide
  rw [outcome_factor,noAtom,negNumber_fail noMinus,bracketed_fail noBracket] at read
  cases read

theorem wordEnd_spaced (op : String) (text : List Char) : WordEnd (spaced op text) :=
  .cons (by decide) _

theorem take_spaced {op : String} (solid : skipped (op.toList ++ ' ' :: text) = op.toList ++ ' ' :: text) :
    (Peg.token op).take outcome (spaced op text) = .ok { last := some (.text op) } (' ' :: text) false := by
  refine take_token op ?_ (WordEnd.runsOn (.cons (by decide) _) _)
  rw [spaced,skipped_blank (by decide),solid]

theorem stops_spaced {op : String} {c : Char} {more chars : List Char} (front : op.toList = c :: more)
    (solid : Text.isBlank c = false) (other : c ≠ '#') (apart : c ∉ chars) : Stops chars (spaced op text) := by
  rw [spaced,front]
  exact (Stops.blank (by decide)).mpr (.solid solid other apart _)

theorem aexp_operation {op : String} (known : op ∈ ["+","-","*","/"])
    (first : outcome .factor text = .ok (.expr lhs) (spaced op after) false)
    (second : outcome .factor after = .ok (.expr rhs) rest false) (stops : Stops ['+','-','*','/'] rest) :
    outcome .aexp text = .ok (.expr (.app .arith op [lhs,rhs])) rest false := by
  have sum : outcome .aexp (' ' :: after) = .ok (.expr rhs) rest false := by
    rw [outcome_blank rfl (by decide),aexp_of_factor second stops]
  have product : outcome .term (' ' :: after) = .ok (.expr rhs) rest false := by
    rw [outcome_blank rfl (by decide),term_of_factor second (stops.mono (by decide))]
  simp only [List.mem_cons,List.not_mem_nil,or_false] at known
  rcases known with rfl | rfl | rfl | rfl
  · have left := term_of_factor first (stops_spaced rfl (by decide) (by decide) (by decide))
    exact sumLevel.outcome_first left (take_spaced (skipped_solid (by decide) (by decide) _)) sum
  · have left := term_of_factor first (stops_spaced rfl (by decide) (by decide) (by decide))
    have other : Stops ['+'] (spaced "-" after) := stops_spaced rfl (by decide) (by decide) (by decide)
    exact sumLevel.outcome_second left (other.token '+' rfl (by decide))
      (take_spaced (skipped_solid (by decide) (by decide) _)) sum
  · have read := termLevel.outcome_first first (take_spaced (skipped_solid (by decide) (by decide) _)) product
    exact sumLevel.outcome_operand read (stops.token '+' rfl (by decide)) (stops.token '-' rfl (by decide))
  · have other : Stops ['*'] (spaced "/" after) := stops_spaced rfl (by decide) (by decide) (by decide)
    have read := termLevel.outcome_second first (other.token '*' rfl (by decide))
      (take_spaced (skipped_solid (by decide) (by decide) _)) product
    exact sumLevel.outcome_operand read (stops.token '+' rfl (by decide)) (stops.token '-' rfl (by decide))

theorem spaced_append (op : String) (text rest : List Char) : spaced op text ++ rest = spaced op (text ++ rest) := by
  simp [spaced]

theorem brackets_append (text rest : List Char) : brackets false text ++ rest = '(' :: (text ++ ')' :: rest) := by
  simp [brackets]

namespace IsTerm

theorem whole (term : IsTerm e) : e.Whole := by
  induction term with
  | int | var => exact fun _ => rfl
  | app _ _ _ left right => exact whole_app left (by simpa using right)

theorem factor (term : IsTerm e) (ends : WordEnd rest) :
    outcome .factor (e.chars false ++ rest) = .ok (.expr e) rest false := by
  induction term generalizing rest with
  | int n => exact factor_int n ends
  | var word =>
    have read := factor_word word ends
    rwa [String.ofList_toList] at read
  | @app op lhs rhs known left right first second =>
    rw [chars_pair left.whole right.whole,brackets_append,List.append_assoc,spaced_append]
    refine factor_bracketed (aexp_operation known (first (wordEnd_spaced _ _)) (second ?_) ?_)
    · exact .cons (by decide) _
    · exact .solid (by decide) (by decide) (by decide) _

theorem aexp (term : IsTerm e) (bare : Bool) (ends : WordEnd rest) (stops : Stops ['+','-','*','/'] rest) :
    outcome .aexp (e.chars bare ++ rest) = .ok (.expr e) rest false := by
  cases bare with
  | false => exact aexp_of_factor (term.factor ends) stops
  | true =>
    cases term with
    | int n => exact aexp_of_factor ((IsTerm.int n).factor ends) stops
    | var word => exact aexp_of_factor ((IsTerm.var word).factor ends) stops
    | app known left right =>
      rw [chars_pair left.whole right.whole,brackets,if_pos rfl,List.append_assoc,spaced_append]
      exact aexp_operation known (left.factor (wordEnd_spaced _ _)) (right.factor ends) stops

end IsTerm

end Terms

section Tests

variable {text rest after : List Char} {value : Reading} {e lhs rhs : Expr}

/-- The conditions whose text can be read back. Without brackets, a negation of a constant or of a negation would be
one word. -/
inductive IsTest : Expr → Prop
  | truth (b : Bool) : IsTest (.truth (.bool b))
  | compare {op : String} {lhs rhs : Expr} (known : op ∈ ["<=","<","=",">=",">"]) (left : IsTerm lhs)
      (right : IsTerm rhs) : IsTest (.app .compare op [lhs,rhs])
  | not {arg : Expr} (inner : IsTest arg) (opens : ∃ text, arg.chars false = '(' :: text) :
      IsTest (.app .logic "not" [arg])
  | pair {op : String} {lhs rhs : Expr} (known : op ∈ ["and","or"]) (left : IsTest lhs) (right : IsTest rhs) :
      IsTest (.app .logic op [lhs,rhs])

theorem isWord_truthText (b : Bool) : IsWord (truthText b) := by
  cases b with
  | true => exact ⟨'t',"rue".toList,rfl,by decide,List.all_eq_true.mp rfl⟩
  | false => exact ⟨'f',"alse".toList,rfl,by decide,List.all_eq_true.mp rfl⟩

theorem isWord_not : IsWord "not".toList :=
  ⟨'n',"ot".toList,rfl,by decide,List.all_eq_true.mp rfl⟩

/-- No comparison begins with what a term is tried on here, and no bracket is closed behind it. -/
def NoTerm (text rest : List Char) : Prop :=
  outcome .aexp text = .fail false ∨
    ∃ v u, outcome .aexp text = .ok v u false ∧ Stops ['<','=','>'] u ∧ (Stops [')'] rest → Stops [')'] u)

theorem NoTerm.rexp (apart : NoTerm text rest) : outcome .rexp text = .fail false := by
  refine rexp_fail (apart.imp_right ?_)
  rintro ⟨v,u,read,stops,-⟩
  exact ⟨v,u,read,stops⟩

theorem NoTerm.bracketed (apart : NoTerm text rest) (stops : Stops [')'] rest) (more : List Char) :
    NoTerm ('(' :: text) more := by
  refine .inl (aexp_fail (factor_fail_inside (apart.imp_right ?_)))
  rintro ⟨v,u,read,-,later⟩
  exact ⟨v,u,read,later stops⟩

theorem stops_connective {op : String} (known : op ∈ ["and","or"]) {chars : List Char} (first : 'a' ∉ chars)
    (second : 'o' ∉ chars) : Stops chars (spaced op text) := by
  simp only [List.mem_cons,List.not_mem_nil,or_false] at known
  rcases known with rfl | rfl
  · exact stops_spaced rfl (by decide) (by decide) first
  · exact stops_spaced rfl (by decide) (by decide) second

theorem stops_comparison {op : String} (known : op ∈ ["<=","<","=",">=",">"]) {chars : List Char}
    (apart : ∀ c ∈ ['<','=','>'], c ∉ chars) : Stops chars (spaced op text) := by
  simp only [List.mem_cons,List.not_mem_nil,or_false] at known
  rcases known with rfl | rfl | rfl | rfl | rfl <;>
    exact stops_spaced rfl (by decide) (by decide) (apart _ (by decide))

theorem bexp_of_bfactor (read : outcome .bfactor text = .ok (.expr e) rest false) (stops : Stops ['a','o'] rest) :
    outcome .bexp text = .ok (.expr e) rest false :=
  disjunction.outcome_operand (conjunction.outcome_operand read (stops.token 'a' rfl (by decide)))
    (stops.token 'o' rfl (by decide))

theorem bexp_pair {op : String} (known : op ∈ ["and","or"])
    (first : outcome .bfactor text = .ok (.expr lhs) (spaced op after) false)
    (second : outcome .bfactor after = .ok (.expr rhs) rest false) (stops : Stops ['a','o'] rest) :
    outcome .bexp text = .ok (.expr (.app .logic op [lhs,rhs])) rest false := by
  have notAnd : (Peg.token "and").take outcome rest = .fail false := stops.token 'a' rfl (by decide)
  have notOr : (Peg.token "or").take outcome rest = .fail false := stops.token 'o' rfl (by decide)
  have next : outcome .bfactor (' ' :: after) = .ok (.expr rhs) rest false := by
    rw [outcome_blank rfl (by decide),second]
  simp only [List.mem_cons,List.not_mem_nil,or_false] at known
  rcases known with rfl | rfl
  · have read := conjunction.outcome_both first (take_spaced (skipped_solid (by decide) (by decide) _)) next notAnd
    exact disjunction.outcome_operand read notOr
  · have other : Stops ['a'] (spaced "or" after) := stops_spaced rfl (by decide) (by decide) (by decide)
    have left := conjunction.outcome_operand first (other.token 'a' rfl (by decide))
    have right := conjunction.outcome_operand next notAnd
    exact disjunction.outcome_both left (take_spaced (skipped_solid (by decide) (by decide) _)) right notOr

theorem bexp_compare {op : String} (known : op ∈ ["<=","<","=",">=",">"]) (left : IsTerm lhs) (right : IsTerm rhs)
    (ends : WordEnd rest) (stops : Stops ['+','-','*','/','a','o'] rest) :
    outcome .bexp (lhs.chars false ++ spaced op (rhs.chars false ++ rest)) =
      .ok (.expr (.app .compare op [lhs,rhs])) rest false := by
  have first := left.aexp false (wordEnd_spaced op (rhs.chars false ++ rest)) (stops_comparison known (by simp))
  have second := right.aexp false ends (stops.mono (by decide))
  exact bexp_of_bfactor (bfactor_batom (batom_rexp (rexp_ok known first second))) (stops.mono (by decide))

namespace IsTest

theorem whole (test : IsTest e) : e.Whole := by
  induction test with
  | truth => exact fun _ => rfl
  | compare _ left right => exact whole_app left.whole (by simpa using right.whole)
  | not _ _ inner => exact whole_app inner (by simp)
  | pair _ _ _ left right => exact whole_app left (by simpa using right)

theorem truth_chars (b bare : Bool) : (Expr.truth (.bool b)).chars bare = truthText b := by
  cases b <;> rfl

theorem stops (test : IsTest e) (bare : Bool) (ends : WordEnd rest) : Stops [':'] (e.chars bare ++ rest) := by
  induction test generalizing bare rest with
  | truth b =>
    rw [truth_chars]
    exact (isWord_truthText b).stops (by decide) rest
  | compare known left right =>
    rw [chars_pair left.whole right.whole]
    cases bare with
    | true =>
      rw [brackets,if_pos rfl,List.append_assoc,spaced_append]
      exact stops_of_factor (left.factor (wordEnd_spaced _ _))
    | false => exact .solid (by decide) (by decide) (by decide) _
  | not =>
    rw [chars_single,List.append_assoc]
    exact .solid (by decide) (by decide) (by decide) _
  | pair known left right first =>
    rw [chars_pair left.whole right.whole]
    cases bare with
    | true =>
      rw [brackets,if_pos rfl,List.append_assoc,spaced_append]
      exact first false (wordEnd_spaced _ _)
    | false => exact .solid (by decide) (by decide) (by decide) _

/-- Where a term is tried on a condition, it fails or reads a word that no comparison follows. -/
theorem noTerm (test : IsTest e) (ends : WordEnd rest) (stops : Stops ['+','-','*','/','<','=','>'] rest) :
    NoTerm (e.chars false ++ rest) rest := by
  induction test generalizing rest with
  | truth b =>
    rw [truth_chars]
    exact .inr ⟨_,rest,aexp_of_factor (factor_word (isWord_truthText b) ends) (stops.mono (by decide)),
      stops.mono (by decide),id⟩
  | @compare op lhs rhs known left right =>
    rw [chars_pair left.whole right.whole,brackets_append,List.append_assoc,spaced_append]
    have read := left.aexp false (wordEnd_spaced op (rhs.chars false ++ ')' :: rest)) (stops_comparison known (by simp))
    exact .inl (aexp_fail (factor_fail_inside (.inr ⟨_,_,read,stops_comparison known (by simp)⟩)))
  | not _ opens _ =>
    obtain ⟨text,same⟩ := opens
    rw [chars_single,same,List.append_assoc]
    have read := factor_word isWord_not (WordEnd.cons (c := '(') (by decide) (text ++ rest))
    exact .inr ⟨_,_,aexp_of_factor read (.solid (by decide) (by decide) (by decide) _),
      .solid (by decide) (by decide) (by decide) _,fun _ => .solid (by decide) (by decide) (by decide) _⟩
  | pair known left right first _ =>
    rw [chars_pair left.whole right.whole,brackets_append,List.append_assoc,spaced_append]
    exact (first (wordEnd_spaced _ _) (stops_connective known (by decide) (by decide))).bracketed
      (stops_connective known (by decide) (by decide)) rest

theorem bfactor (test : IsTest e) (ends : WordEnd rest) (stops : Stops ['+','-','*','/','<','=','>'] rest) :
    outcome .bfactor (e.chars false ++ rest) = .ok (.expr e) rest false ∧
      ((∃ text, e.chars false = '(' :: text) →
        outcome .batom (e.chars false ++ rest) = .ok (.expr e) rest false) := by
  induction test generalizing rest with
  | truth b =>
    have noTerm := (truth b).noTerm ends stops
    rw [truth_chars] at noTerm ⊢
    have read := batom_truth b ends noTerm.rexp
    exact ⟨bfactor_batom read,fun _ => read⟩
  | @compare op lhs rhs known left right =>
    have noTerm := (compare known left right).noTerm ends stops
    rw [chars_pair left.whole right.whole,brackets_append,List.append_assoc,spaced_append] at noTerm ⊢
    have inside := bexp_compare known left right (WordEnd.cons (c := ')') (by decide) rest)
      (.solid (by decide) (by decide) (by decide) _)
    have read := batom_bracketed noTerm.rexp inside
    exact ⟨bfactor_batom read,fun _ => read⟩
  | not test opens inner =>
    have noTerm := (not test opens).noTerm ends stops
    have read := (inner ends stops).2 opens
    obtain ⟨text,same⟩ := opens
    rw [chars_single,List.append_assoc] at noTerm ⊢
    refine ⟨bfactor_not (batom_fail noTerm.rexp ?_) ?_ read,?_⟩
    · exact .solid (by decide) (by decide) (by decide) _
    · rw [same]
      exact WordEnd.runsOn (.cons (by decide) _) _
    · rintro ⟨_,other⟩
      cases other
  | @pair op lhs rhs known left right first second =>
    have noTerm := (pair known left right).noTerm ends stops
    rw [chars_pair left.whole right.whole,brackets_append,List.append_assoc,spaced_append] at noTerm ⊢
    have before := (first (wordEnd_spaced op (rhs.chars false ++ ')' :: rest))
      (stops_connective known (by decide) (by decide))).1
    have after := (second (WordEnd.cons (c := ')') (by decide) rest) (.solid (by decide) (by decide) (by decide) _)).1
    have read := batom_bracketed noTerm.rexp
      (bexp_pair known before after (.solid (by decide) (by decide) (by decide) _))
    exact ⟨bfactor_batom read,fun _ => read⟩

theorem bexp (test : IsTest e) (ends : WordEnd rest) (stops : Stops ['+','-','*','/','<','=','>','a','o'] rest) :
    outcome .bexp (e.chars true ++ rest) = .ok (.expr e) rest false := by
  have fewer : Stops ['+','-','*','/','<','=','>'] rest := stops.mono (by decide)
  cases test with
  | truth b =>
    have read := ((truth b).bfactor ends fewer).1
    exact bexp_of_bfactor read (stops.mono (by decide))
  | compare known left right =>
    rw [chars_pair left.whole right.whole,brackets,if_pos rfl,List.append_assoc,spaced_append]
    exact bexp_compare known left right ends (stops.mono (by decide))
  | not inner opens =>
    have read := ((not inner opens).bfactor ends fewer).1
    rw [chars_single] at read ⊢
    exact bexp_of_bfactor read (stops.mono (by decide))
  | pair known left right =>
    rw [chars_pair left.whole right.whole,brackets,if_pos rfl,List.append_assoc,spaced_append]
    exact bexp_pair known (left.bfactor (wordEnd_spaced _ _) (stops_connective known (by decide) (by decide))).1
      (right.bfactor ends fewer).1 (stops.mono (by decide))

end IsTest

end Tests

theorem chainOperator_ne {op : String} (known : op ∈ ["and","or"]) {args : List Expr} (some : args ≠ []) :
    Reading.chainOperator (args.map fun _ => op) ≠ "not" := by
  cases args with
  | nil => contradiction
  | cons arg args =>
    cases args with
    | nil =>
      rintro rfl
      exact absurd known (by decide)
    | cons next args =>
      -- The name of a longer chain is a list, in square brackets.
      intro same
      have front := congrArg (fun s : String => s.toList.head?) same
      simp [Reading.chainOperator] at front

theorem IsCondition.whole {e : Expr} (cond : IsCondition e) : e.Whole := by
  induction cond with
  | truth => exact fun _ => rfl
  | compare _ left right => exact whole_app left.whole (by simpa using right.whole)
  | not _ inner => exact whole_app inner (by simp)
  | chain _ _ _ _ first rest => exact whole_app first rest

/-- The conditions that were read and are plain can be read back. -/
theorem IsCondition.isTest {e : Expr} (cond : IsCondition e) (plain : e.isPlain = true) : IsTest e := by
  induction cond with
  | truth b => exact .truth b
  | compare known left right => exact .compare known left right
  | @not arg inner ih =>
    simp only [Expr.isPlain,Expr.arePlain,beq_self_eq_true,if_true,List.all_cons,List.all_nil,Bool.and_true,
      Bool.and_eq_true,Bool.not_eq_true'] at plain
    have test := ih plain.2
    refine .not test ?_
    cases test with
    | truth b => cases plain.1.1
    | compare _ left right => exact ⟨_,by rw [chars_pair left.whole right.whole]; rfl⟩
    | not => cases plain.1.2
    | pair _ left right => exact ⟨_,by rw [chars_pair left.whole right.whole]; rfl⟩
  | @chain op arg args known some first rest one more =>
    rw [Expr.isPlain,if_neg (by simpa using chainOperator_ne known some)] at plain
    simp only [List.length_cons,Bool.and_eq_true,beq_iff_eq,Expr.arePlain] at plain
    obtain ⟨rhs,rfl⟩ := List.length_eq_one_iff.mp (Nat.succ.inj plain.1)
    simp only [Expr.arePlain,Bool.and_true] at plain
    exact .pair known (one plain.2.1) (more rhs (by simp) plain.2.2)

theorem writeRest_fault (indent : Int) {items : List Stmt} (each : ∀ s ∈ items, s.Whole) :
    (Stmt.writeRest indent items).fault = none := by
  induction items with
  | nil => rfl
  | cons s items ih => simp [Stmt.writeRest_item,each s (by simp) indent,ih fun t member => each t (by simp [member])]

theorem IsProgram.whole {s : Stmt} (program : IsProgram s) : s.Whole := by
  induction program with
  | skip | printState => exact fun _ => rfl
  | assign _ _ term => exact fun _ => by simp [Stmt.write_assign,term.whole true]
  | ifElse test _ _ _ left right =>
    exact fun indent => by simp [Stmt.write_ifElse,test.whole true,left (indent + 2),right (indent + 2)]
  | ifOnly test _ inner => exact fun indent => by simp [Stmt.write_ifOnly,test.whole true,inner (indent + 2)]
  | loop test _ _ inner => exact fun indent => by simp [Stmt.write_loop,test.whole true,inner (indent + 2)]
  | assert test => exact fun _ => by simp [Stmt.write_assert,test.whole true]
  | assume test => exact fun _ => by simp [Stmt.write_assume,test.whole true]
  | @havoc names some words =>
    cases names with
    | nil => contradiction
    | cons => exact fun _ => rfl
  | @block items some _ each =>
    intro indent
    cases items with
    | nil => contradiction
    | cons s items =>
      have first := each s (by simp) (indent + 2)
      cases items with
      | nil => simp [Stmt.write_lone,first]
      | cons next items =>
        have rest := writeRest_fault (indent + 2) fun t member => each t (List.mem_cons_of_mem s member)
        simp [Stmt.write_block,first,rest]

end Grammar

end WhileExec
