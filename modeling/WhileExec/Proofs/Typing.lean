import Mathlib
import WhileExec.Program

/-!
# Sorts of programs

A program is well typed if its conditions are truth values, what it assigns are integers, and it divides only by
positive literals. Nothing is asked of operators and numbers of operands: where these are wrong, evaluation fails,
and no statement about a run that ends has anything to say.
-/

namespace WhileExec

/-- Induction over expressions, with the operands of an application at hand. -/
@[elab_as_elim]
theorem Expr.structural {motive : Expr → Prop}
    (int : ∀ n, motive (.int n)) (truth : ∀ v, motive (.truth v)) (var : ∀ name, motive (.var name))
    (app : ∀ form op args, (∀ e ∈ args, motive e) → motive (.app form op args)) :
    ∀ e, motive e
  | .int n => int n
  | .truth v => truth v
  | .var name => var name
  | .app form op args => app form op args fun e _ => structural int truth var app e

/-- Induction over statements, with all statements of a block at hand. -/
@[elab_as_elim]
theorem Stmt.structural {motive : Stmt → Prop}
    (skip : motive .skip) (printState : motive .printState)
    (assign : ∀ name rhs, motive (.assign name rhs))
    (ifElse : ∀ cond yes no, motive yes → motive no → motive (.ifElse cond yes no))
    (ifOnly : ∀ cond yes, motive yes → motive (.ifOnly cond yes))
    (loop : ∀ cond body inv, motive body → motive (.loop cond body inv))
    (assert : ∀ cond, motive (.assert cond)) (assume : ∀ cond, motive (.assume cond))
    (havoc : ∀ names, motive (.havoc names))
    (block : ∀ items, (∀ s ∈ items, motive s) → motive (.block items)) (hollow : motive .hollow) :
    ∀ s, motive s
  | .skip => skip
  | .printState => printState
  | .assign name rhs => assign name rhs
  | .ifElse cond yes no => ifElse cond yes no
      (structural skip printState assign ifElse ifOnly loop assert assume havoc block hollow yes)
      (structural skip printState assign ifElse ifOnly loop assert assume havoc block hollow no)
  | .ifOnly cond yes => ifOnly cond yes
      (structural skip printState assign ifElse ifOnly loop assert assume havoc block hollow yes)
  | .loop cond body inv => loop cond body inv
      (structural skip printState assign ifElse ifOnly loop assert assume havoc block hollow body)
  | .assert cond => assert cond
  | .assume cond => assume cond
  | .havoc names => havoc names
  | .block items => block items fun s _ =>
      structural skip printState assign ifElse ifOnly loop assert assume havoc block hollow s
  | .hollow => hollow

/-- An integer literal above zero. -/
def Expr.isPositive : Expr → Bool
  | .int n => 0 < n
  | _ => false

mutual

/-- An arithmetic expression that divides by positive literals only. -/
def Expr.isTerm : Expr → Bool
  | .int _ => true
  | .var _ => true
  | .app .arith op args => Expr.areTerms args && (op != "/" || args.tail.all Expr.isPositive)
  | _ => false

def Expr.areTerms : List Expr → Bool
  | [] => true
  | e :: es => e.isTerm && Expr.areTerms es

end

mutual

/-- A truth value: a constant, a comparison of arithmetic expressions, or a connective of truth values. -/
def Expr.isCondition : Expr → Bool
  | .truth _ => true
  | .app .compare _ args => Expr.areTerms args
  | .app .logic _ args => Expr.areConditions args
  | _ => false

def Expr.areConditions : List Expr → Bool
  | [] => true
  | e :: es => e.isCondition && Expr.areConditions es

end

theorem Expr.areTerms_iff {es : List Expr} : areTerms es = true ↔ ∀ e ∈ es, e.isTerm = true := by
  induction es with
  | nil => simp [areTerms]
  | cons e es ih => simp [areTerms,ih]

theorem Expr.areConditions_iff {es : List Expr} :
    areConditions es = true ↔ ∀ e ∈ es, e.isCondition = true := by
  induction es with
  | nil => simp [areConditions]
  | cons e es ih => simp [areConditions,ih]

mutual

/-- A property of a statement and of all statements in it. -/
def Stmt.every (p : Stmt → Bool) : Stmt → Bool
  | .ifElse cond yes no => p (.ifElse cond yes no) && yes.every p && no.every p
  | .ifOnly cond yes => p (.ifOnly cond yes) && yes.every p
  | .loop cond body inv => p (.loop cond body inv) && body.every p
  | .block items => p (.block items) && Stmt.everyOf p items
  | s => p s

def Stmt.everyOf (p : Stmt → Bool) : List Stmt → Bool
  | [] => true
  | s :: ss => s.every p && Stmt.everyOf p ss

end

theorem Stmt.everyOf_iff {p : Stmt → Bool} {items : List Stmt} :
    everyOf p items = true ↔ ∀ s ∈ items, s.every p = true := by
  induction items with
  | nil => simp [everyOf]
  | cons s ss ih => simp [everyOf,ih]

/-- What a statement asks of its own expressions. -/
def Stmt.sorted : Stmt → Bool
  | .assign _ rhs => rhs.isTerm
  | .ifElse cond _ _ => cond.isCondition
  | .ifOnly cond _ => cond.isCondition
  | .loop cond _ _ => cond.isCondition
  | .assert cond => cond.isCondition
  | .assume cond => cond.isCondition
  | _ => true

def Stmt.wellTyped (s : Stmt) : Bool := s.every Stmt.sorted

/-- No loop has an invariant. -/
def Stmt.invariantFree (s : Stmt) : Bool :=
  s.every fun
    | .loop _ _ inv => inv.isNone
    | _ => true

def Stmt.havocFree (s : Stmt) : Bool :=
  s.every fun
    | .havoc _ => false
    | _ => true

end WhileExec
