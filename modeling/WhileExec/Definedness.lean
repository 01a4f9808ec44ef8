import WhileExec.Env
import WhileExec.Program
import WhileExec.Text.Quoted

/-!
# Variables used before they are defined

A fact about a point of a program: the variables that are defined there on every way to it, and those that were
used on some way before they were defined. Where ways meet, both kinds of knowledge are joined. Loop invariants
are not looked at.
-/

namespace WhileExec

structure Fact where
  defs : Names := {}
  undefs : Names := {}

namespace Fact

def use (f : Fact) (name : String) : Fact :=
  if f.defs.contains name then f else { f with undefs := f.undefs.insert name }

def define (f : Fact) (name : String) : Fact :=
  { f with defs := f.defs.insert name }

/-- Two ways meet: defined on both, used undefined on one. -/
def join (f g : Fact) : Fact :=
  ⟨f.defs ∩ g.defs, f.undefs ∪ g.undefs⟩

end Fact

mutual

/-- The fact after an expression is evaluated. -/
def Expr.fact (f : Fact) : Expr → Fact
  | .int _ => f
  | .truth _ => f
  | .var name => f.use name
  | .app _ _ args => Expr.factAll f args

def Expr.factAll (f : Fact) : List Expr → Fact
  | [] => f
  | e :: es => Expr.factAll (e.fact f) es

end

mutual

/-- The fact after a statement. -/
def Stmt.fact (f : Fact) : Stmt → Fact
  | .skip => f
  | .printState => f
  | .assign name rhs => (rhs.fact f).define name
  | .ifElse cond yes no => (yes.fact (cond.fact f)).join (no.fact (cond.fact f))
  | .ifOnly cond yes => (yes.fact (cond.fact f)).join (cond.fact f)
  | .loop cond body _ => (body.fact (cond.fact f)).join (cond.fact f)
  | .assert cond => cond.fact f
  | .assume cond => cond.fact f
  | .havoc names => names.foldl Fact.define f
  | .block items => Stmt.factAll f items
  | .hollow => f

def Stmt.factAll (f : Fact) : List Stmt → Fact
  | [] => f
  | s :: ss => Stmt.factAll (s.fact f) ss

end

/-- The fact at the end of a program that starts knowing nothing. -/
def Node.fact : Node → Fact
  | .stmt s => s.fact {}
  | .expr e => e.fact {}

/-- A set of names as text: quoted names in braces, or the word for the empty set. -/
def Names.text (names : Names) : String :=
  if names.isEmpty then "set()"
  else "\x7b" ++ ", ".intercalate (names.toList.map Text.quoted) ++ "\x7d"

end WhileExec
