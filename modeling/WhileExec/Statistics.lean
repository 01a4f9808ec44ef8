import WhileExec.Env
import WhileExec.Handler

/-!
# Counting statements and variables

Three ways to count the statements of a program: statistics that also collect variables, a count that is
returned, and a tally that is kept. Blocks are not statements of their own, and loop invariants are not looked
at.

Statistics and tally are kept from one program to the next; the tally can also be begun again.
-/

namespace WhileExec

structure Statistics where
  stmts : Nat := 0
  vars : Names := {}

namespace Statistics

def addStmt (s : Statistics) : Statistics :=
  { s with stmts := s.stmts + 1 }

def addVar (s : Statistics) (name : String) : Statistics :=
  { s with vars := s.vars.insert name }

end Statistics

mutual

/-- Statistics after an expression. -/
def Expr.addTo (s : Statistics) : Expr → Statistics
  | .int _ => s
  | .truth _ => s
  | .var name => s.addVar name
  | .app _ _ args => Expr.addAllTo s args

def Expr.addAllTo (s : Statistics) : List Expr → Statistics
  | [] => s
  | e :: es => Expr.addAllTo (e.addTo s) es

end

mutual

/-- Statistics after a statement. -/
def Stmt.addTo (s : Statistics) : Stmt → Statistics
  | .skip => s.addStmt
  | .printState => s.addStmt
  | .assign name rhs => rhs.addTo (s.addStmt.addVar name)
  | .ifElse cond yes no => no.addTo (yes.addTo (cond.addTo s.addStmt))
  | .ifOnly cond yes => yes.addTo (cond.addTo s.addStmt)
  | .loop cond body _ => body.addTo (cond.addTo s.addStmt)
  | .assert cond => cond.addTo s.addStmt
  | .assume cond => cond.addTo s.addStmt
  | .havoc names => names.foldl Statistics.addVar s.addStmt
  | .block items => Stmt.addAllTo s items
  | .hollow => s

def Stmt.addAllTo (s : Statistics) : List Stmt → Statistics
  | [] => s
  | t :: ts => Stmt.addAllTo (t.addTo s) ts

end

def Node.addTo (s : Statistics) : Node → Statistics
  | .stmt t => t.addTo s
  | .expr e => e.addTo s

mutual

/-- The number of statements. -/
def Stmt.count : Stmt → Nat
  | .ifElse _ yes no => 1 + yes.count + no.count
  | .ifOnly _ yes => 1 + yes.count
  | .loop _ body _ => 1 + body.count
  | .block items => Stmt.countAll items
  | .hollow => 0
  | _ => 1

def Stmt.countAll : List Stmt → Nat
  | [] => 0
  | s :: ss => s.count + Stmt.countAll ss

end

mutual

/-- A tally of statements after a statement. -/
def Stmt.tally (n : Nat) : Stmt → Nat
  | .ifElse _ yes no => no.tally (yes.tally (n + 1))
  | .ifOnly _ yes => yes.tally (n + 1)
  | .loop _ body _ => body.tally (n + 1)
  | .block items => Stmt.tallyAll n items
  | .hollow => n
  | _ => n + 1

def Stmt.tallyAll (n : Nat) : List Stmt → Nat
  | [] => n
  | s :: ss => Stmt.tallyAll (s.tally n) ss

end

/-- The number of statements; an expression cannot be counted. -/
def Node.count : Node → Except Fault Nat
  | .stmt s => .ok s.count
  | .expr e => .error (e.noHandler .counter)

/-- A tally after a node; an expression cannot be tallied. -/
def Node.tally (n : Nat) : Node → Except Fault Nat
  | .stmt s => .ok (s.tally n)
  | .expr e => .error (e.noHandler .tally)

/-- What is kept while programs are gone through one after another. -/
structure Counters where
  statistics : Statistics := {}
  tally : Nat := 0

namespace Counters

/-- A node is added to the statistics and to the tally. One that cannot be tallied leaves the tally as it is. -/
def visit (c : Counters) (n : Node) : Counters where
  statistics := n.addTo c.statistics
  tally := (n.tally c.tally).toOption.getD c.tally

/-- The tally is begun again with a node. -/
def restart (c : Counters) (n : Node) : Counters :=
  { c with tally := (n.tally 0).toOption.getD 0 }

end Counters

end WhileExec
