import Mathlib
import WhileExec.Proofs.Safety
import WhileExec.Proofs.Sharing.Outlines

/-!
# Operators of expressions that were read

All expressions that can be found in what was read, from whichever rule: those of the statements, and their parts. They
are terms and conditions, so that an operator is used in one form only, `Produced.formed`.
-/

namespace WhileExec

mutual

/-- The expression and all expressions in it. -/
def Expr.parts : Expr → List Expr
  | .app form op args => .app form op args :: Expr.partsOf args
  | e => [e]

def Expr.partsOf : List Expr → List Expr
  | [] => []
  | e :: es => e.parts ++ Expr.partsOf es

end

theorem Expr.mem_partsOf {e : Expr} {es : List Expr} : e ∈ partsOf es ↔ ∃ f ∈ es, e ∈ f.parts := by
  induction es with
  | nil => simp [partsOf]
  | cons f es ih => simp [partsOf,ih]

/-- The expressions of a statement that are not those of a statement in it. -/
def Stmt.expressions : Stmt → List Expr
  | .assign name rhs => [.var name,rhs]
  | .ifElse cond _ _ | .ifOnly cond _ | .assert cond | .assume cond => [cond]
  | .loop cond _ inv => cond :: inv.toList
  | .havoc names => names.map .var
  | _ => []

namespace Grammar

/-- An expression of what was read. -/
inductive Reading.Contains : Reading → Expr → Prop
  | expr (e : Expr) : Contains (.expr e) e
  | stmt {s t : Stmt} {e : Expr} (part : t ∈ s.parts) (own : e ∈ t.expressions) : Contains (.stmt s) e
  | list {items : List Reading} {r : Reading} {e : Expr} (member : r ∈ items) (inner : Contains r e) :
      Contains (.list items) e

/-- The expression is part of something that is read from a text, from some rule. -/
def Produced (e : Expr) : Prop :=
  ∃ rule text reading stop f, Reading.read rule text = .ok (reading,stop) ∧ reading.Contains f ∧ e ∈ f.parts

/-- The form of the applications of an operator. -/
def formOf (op : String) : Form :=
  if op ∈ ["+","-","*","/"] then .arith
  else if op ∈ ["<=","<","=",">=",">"] then .compare
  else .logic

theorem formOf_chain {op : String} (known : op ∈ ["and","or"]) {args : List Expr} (nonempty : args ≠ []) :
    formOf (Reading.chainOperator (args.map fun _ => op)) = .logic := by
  rcases args with _ | ⟨arg,_ | ⟨next,rest⟩⟩
  · contradiction
  · simp only [List.mem_cons,List.not_mem_nil,or_false] at known
    rcases known with rfl | rfl <;> rfl
  · -- A longer chain has a list of operators, in square brackets, for its operator.
    have front : (Reading.chainOperator ((arg :: next :: rest).map fun _ => op)).toList.head? = some '[' := by
      simp [Reading.chainOperator]
    generalize Reading.chainOperator ((arg :: next :: rest).map fun _ => op) = long at front
    unfold formOf
    split
    next member =>
      simp only [List.mem_cons,List.not_mem_nil,or_false] at member
      rcases member with rfl | rfl | rfl | rfl <;> simp at front
    next =>
      split
      next member =>
        simp only [List.mem_cons,List.not_mem_nil,or_false] at member
        rcases member with rfl | rfl | rfl | rfl | rfl <;> simp at front
      next => rfl

variable {e f : Expr}

theorem IsTerm.formed (term : IsTerm e) : e.Formed formOf := by
  induction term with
  | int n => exact .int n
  | var => exact .var _
  | @app op lhs rhs known left right one two =>
    have form : formOf op = .arith := if_pos known
    rw [← form]
    apply Expr.Formed.app
    simp [one,two]

theorem IsCondition.formed (cond : IsCondition e) : e.Formed formOf := by
  induction cond with
  | truth b => exact .truth _
  | @compare op lhs rhs known left right =>
    have form : formOf op = .compare := by
      simp only [List.mem_cons,List.not_mem_nil,or_false] at known
      rcases known with rfl | rfl | rfl | rfl | rfl <;> rfl
    rw [← form]
    apply Expr.Formed.app
    simp [left.formed,right.formed]
  | @not arg inner ih =>
    have form : formOf "not" = .logic := rfl
    rw [← form]
    apply Expr.Formed.app
    simpa using ih
  | @chain op arg args known some first rest one more =>
    rw [← formOf_chain known some]
    apply Expr.Formed.app
    simpa [one] using more

theorem formed_part {forms : String → Form} (formed : f.Formed forms) (part : e ∈ f.parts) : e.Formed forms := by
  induction formed with
  | @app op args each ih =>
    simp only [Expr.parts,List.mem_cons,Expr.mem_partsOf] at part
    rcases part with rfl | ⟨arg,listed,part⟩
    · exact .app op each
    · exact ih arg listed part
  | _ =>
    cases List.mem_singleton.mp part
    constructor

theorem IsTerm.assigned {name : String} (term : IsTerm f) (own : e ∈ (Stmt.assign name f).expressions) :
    e.Formed formOf := by
  simp only [Stmt.expressions,List.mem_cons,List.not_mem_nil,or_false] at own
  rcases own with rfl | rfl
  · exact .var _
  · exact term.formed

theorem IsProgram.expression {s : Stmt} (program : IsProgram s) (own : e ∈ s.expressions) : e.Formed formOf := by
  cases program with
  | assign word other term => exact term.assigned own
  | loop test inner kept =>
    simp only [Stmt.expressions,List.mem_cons,Option.mem_toList] at own
    rcases own with rfl | own
    · exact test.formed
    · exact (kept e own).formed
  | havoc some words =>
    obtain ⟨name,-,rfl⟩ := List.mem_map.mp own
    exact .var name
  | ifElse test | ifOnly test | assert test | assume test =>
    cases List.mem_singleton.mp own
    exact test.formed
  | skip | printState | block => simp [Stmt.expressions] at own

theorem outcome_newline {text rest : List Char} {value : Reading} {cut : Bool}
    (read : outcome .newlineText text = .ok value rest cut) : ∃ s, value = .text s := by
  refine outcome_induction (Q := fun r _ v _ => r = .newlineText → ∃ s, v = .text s) ?_ read rfl
  rintro r text value rest p reads closed rfl
  obtain ⟨_,_,_,⟨-,rfl,-⟩,⟨rfl,-⟩,rfl⟩ := reads
  cases (close_eq_ok (by decide)).mp closed
  exact ⟨_,rfl⟩

theorem Reading.Contains.formed_stmt {s : Stmt} (contains : (Reading.stmt s).Contains e) (program : IsProgram s) :
    e.Formed formOf := by
  cases contains with
  | stmt part own => exact (program.part part).expression own

/-- What a rule reads holds terms and conditions only. -/
theorem Reading.Contains.formed {r : Rule} {text rest : List Char} {value : Reading} {cut : Bool}
    (contains : value.Contains e) (read : outcome r text = .ok value rest cut) : e.Formed formOf := by
  have shape := outcome_shape read
  cases r with
  | newlineText =>
    obtain ⟨s,rfl⟩ := outcome_newline read
    cases contains
  | integerText | nameText =>
    obtain ⟨_,rfl,_⟩ := shape
    cases contains
  | rop =>
    obtain ⟨_,_,rfl⟩ := shape
    cases contains
  | name =>
    obtain ⟨name,rfl,-⟩ := shape
    cases contains
    exact .var name
  | number | negNumber =>
    obtain ⟨n,rfl⟩ := shape
    cases contains
    exact .int n
  | atom | factor | mult | division | term | addition | subtraction | aexp | rexp | boolConst | batom | bfactor | bterm
  | bexp =>
    obtain ⟨_,rfl,known⟩ := shape
    cases contains
    exact known.formed
  | varList =>
    obtain ⟨names,rfl,-⟩ := shape
    cases contains with
    | list member inner =>
      obtain ⟨name,-,rfl⟩ := List.mem_map.mp member
      cases inner
      exact .var name
  | asgnStmt =>
    -- A bare assignment may be one to a reserved word, and is then no program.
    obtain ⟨name,rhs,rest,rfl,-,term,-⟩ := shape
    cases contains with
    | stmt part own =>
      cases List.mem_singleton.mp part
      exact term.assigned own
  | stmtList | blockStmt | start =>
    obtain ⟨_,rfl,program⟩ := shape
    exact contains.formed_stmt program
  | skipStmt | printStateStmt | ifStmt | whileStmt | assertStmt | assumeStmt | havocStmt | stmt =>
    obtain ⟨_,rfl,program,-⟩ := shape
    exact contains.formed_stmt program

theorem Produced.of_outcome {r : Rule} {text : String} {rest : List Char} {cut : Bool}
    (read : outcome r text.toList = .ok (.expr e) rest cut) : Produced e := by
  obtain ⟨stop,inside,same⟩ := outcome_suffix read
  refine ⟨r.text,text,.expr e,stop,e,?_,.expr e,?_⟩
  · exact Reading.read_eq_ok.mpr ⟨rest,cut,read,inside,same⟩
  · cases e <;> simp [Expr.parts]

theorem Produced.formed (produced : Produced e) : e.Formed formOf := by
  obtain ⟨rule,text,reading,stop,f,read,contains,part⟩ := produced
  unfold Reading.read readTextFrom at read
  cases named : Rule.ofText? rule with
  | none => rw [named] at read; cases read
  | some r =>
    rw [named] at read
    obtain ⟨rest,cut,read,-⟩ := readText_eq_ok.mp read
    exact formed_part (contains.formed read) part

end Grammar

end WhileExec
