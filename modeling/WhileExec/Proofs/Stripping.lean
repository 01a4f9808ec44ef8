import Mathlib
import WhileExec.Interpreter
import WhileExec.Proofs.Grammar.Shapes
import WhileExec.Proofs.Typing

/-!
# What the text of a program shows

The text of a statement shows neither the invariants of its loops nor the braces around a single statement.
`Stmt.stripped` is the statement without them. It runs in the same way, and it is the statement itself where there is
nothing of the kind.
-/

namespace WhileExec

def Expr.isTruth : Expr → Bool
  | .truth _ => true
  | _ => false

def Expr.isNegation : Expr → Bool
  | .app .logic "not" _ => true
  | _ => false

mutual

/-- Every chain of connectives in the expression has two operands, and nothing that is negated is a constant or a
negation. -/
def Expr.isPlain : Expr → Bool
  | .app .logic op args =>
    (if op == "not" then args.all fun arg => !arg.isTruth && !arg.isNegation else args.length == 2) && Expr.arePlain args
  | .app _ _ args => Expr.arePlain args
  | _ => true

def Expr.arePlain : List Expr → Bool
  | [] => true
  | e :: es => e.isPlain && Expr.arePlain es

end

mutual

/-- What the text of a statement shows of it. -/
def Stmt.stripped : Stmt → Stmt
  | .ifElse cond yes no => .ifElse cond yes.stripped no.stripped
  | .ifOnly cond yes => .ifOnly cond yes.stripped
  | .loop cond body _ => .loop cond body.stripped none
  | .block [item] => item.stripped
  | .block items => .block (Stmt.strippedAll items)
  | s => s

def Stmt.strippedAll : List Stmt → List Stmt
  | [] => []
  | s :: ss => s.stripped :: Stmt.strippedAll ss

end

theorem Expr.alike_refl (e : Expr) : e.alike e = true := by
  induction e using Expr.structural with
  | int | var => simp [alike]
  | truth => simp [alike,Value.alike]
  | app form op args each =>
    have all : alikeAll args args = true := by
      induction args with
      | nil => rfl
      | cons e args ih => simp [alikeAll,each e (by simp),ih fun d member => each d (by simp [member])]
    simp [alike,all]

namespace Stmt

theorem strippedAll_eq (items : List Stmt) : strippedAll items = items.map stripped := by
  induction items with
  | nil => rfl
  | cons s items ih => simp [strippedAll,ih]

theorem stripped_block (s next : Stmt) (items : List Stmt) :
    (block (s :: next :: items)).stripped = .block ((s :: next :: items).map stripped) := by
  rw [← strippedAll_eq]
  rfl

/-- The conditions of a statement can be told from their text. -/
def testsPlainly : Stmt → Bool
  | .ifElse cond _ _ | .ifOnly cond _ | .loop cond _ _ | .assert cond | .assume cond => cond.isPlain
  | _ => true

/-- The braces are there that keep an `else` from a conditional statement in front of it. -/
def keepsElse : Stmt → Bool
  | .ifElse _ yes _ => !yes.stripped.isOpen
  | _ => true

/-- A statement that is a block has two statements or more. -/
def hasBraces : Stmt → Bool
  | .block items => items.length != 1
  | _ => true

theorem stripped_eq (s : Stmt) (free : s.invariantFree = true) (braces : s.every hasBraces = true) : s.stripped = s := by
  induction s using Stmt.structural with
  | skip | printState | assign | assert | assume | havoc | hollow => rfl
  | ifElse cond yes no left right =>
    simp only [invariantFree,every,Bool.and_eq_true] at free braces
    rw [stripped,left free.1.2 braces.1.2,right free.2 braces.2]
  | ifOnly cond yes inner =>
    simp only [invariantFree,every,Bool.and_eq_true] at free braces
    rw [stripped,inner free.2 braces.2]
  | loop cond body inv inner =>
    simp only [invariantFree,every,Bool.and_eq_true,Option.isNone_iff_eq_none] at free braces
    rw [stripped,inner free.2 braces.2,free.1]
  | block items each =>
    simp only [invariantFree,every,Bool.and_eq_true,everyOf_iff] at free braces
    have same : items.map stripped = items := by
      conv_rhs => rw [← List.map_id items]
      exact List.map_congr_left fun s member => each s member (free.2 s member) (braces.2 s member)
    cases items with
    | nil => rfl
    | cons s items =>
      cases items with
      | nil => exact absurd braces.1 (by simp [hasBraces])
      | cons next items => rw [stripped_block,same]

theorem exec_stripped (limit : Nat) (s : Stmt) : s.stripped.exec limit = s.exec limit := by
  induction s using Stmt.structural with
  | skip | printState | assign | assert | assume | havoc | hollow => rfl
  | ifElse cond yes no left right => rw [stripped,exec,exec,left,right]
  | ifOnly cond yes inner => rw [stripped,exec,exec,inner]
  | loop cond body inv inner => rw [stripped,exec,exec,inner]
  | block items each =>
    have all : execAll limit (items.map stripped) = execAll limit items := by
      induction items with
      | nil => rfl
      | cons s items ih =>
        rw [List.map_cons,execAll,execAll,each s (by simp),ih fun t member => each t (by simp [member])]
    cases items with
    | nil => rfl
    | cons s items =>
      cases items with
      | nil =>
        rw [stripped,each s (by simp),exec,execAll,execAll]
        exact bind_pure_unit.symm
      | cons next items => rw [stripped_block,exec,exec,all]

theorem alike_refl (s : Stmt) : s.alike s = true := by
  induction s using Stmt.structural with
  | skip | printState | hollow => rfl
  | assign _ rhs => simp [alike,rhs.alike_refl]
  | assert cond | assume cond => exact cond.alike_refl
  | havoc => simp [alike]
  | ifElse cond _ _ left right => simp [alike,cond.alike_refl,left,right]
  | ifOnly cond _ inner => simp [alike,cond.alike_refl,inner]
  | loop cond _ inv inner =>
    cases inv with
    | none => simp [alike,Expr.alikeOpt,cond.alike_refl,inner]
    | some e => simp [alike,Expr.alikeOpt,cond.alike_refl,e.alike_refl,inner]
  | block items each =>
    rw [alike]
    induction items with
    | nil => rfl
    | cons s items ih => simp [alikeAll,each s (by simp),ih fun t member => each t (by simp [member])]

end Stmt

end WhileExec
