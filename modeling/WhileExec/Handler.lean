import WhileExec.Fault
import WhileExec.Program

/-!
# Classes of nodes and their handlers

Every node belongs to a class. Whoever visits nodes names a handler for some classes; a class without a handler
of its own falls back on a more general one. Blocks and expressions of no particular form have nothing to fall
back on.
-/

namespace WhileExec

inductive NodeClass where
  | stmtList | skipStmt | printStateStmt | asgnStmt | ifStmt | whileStmt | assertStmt | assumeStmt | havocStmt
  | exp | bexp | relExp | aexp | intConst | boolConst | intVar | const | stmt
  deriving DecidableEq, Repr, Inhabited

namespace NodeClass

def text : NodeClass → String
  | stmtList => "StmtList"
  | skipStmt => "SkipStmt"
  | printStateStmt => "PrintStateStmt"
  | asgnStmt => "AsgnStmt"
  | ifStmt => "IfStmt"
  | whileStmt => "WhileStmt"
  | assertStmt => "AssertStmt"
  | assumeStmt => "AssumeStmt"
  | havocStmt => "HavocStmt"
  | exp => "Exp"
  | bexp => "BExp"
  | relExp => "RelExp"
  | aexp => "AExp"
  | intConst => "IntConst"
  | boolConst => "BoolConst"
  | intVar => "IntVar"
  | const => "Const"
  | stmt => "Stmt"

/-- The classes whose handlers are tried after that of the class itself, in order. -/
def fallbacks : NodeClass → List NodeClass
  | stmtList => []
  | exp => []
  | const => []
  | stmt => []
  | bexp => [exp]
  | aexp => [exp]
  | relExp => [bexp, exp]
  | intVar => [aexp, exp]
  | intConst => [const]
  | boolConst => [const]
  | _ => [stmt]

/-- The last handler that is tried. -/
def lastTried (c : NodeClass) : NodeClass :=
  (c.fallbacks.getLast?).getD c

end NodeClass

def Form.nodeClass : Form → NodeClass
  | .plain => .exp
  | .logic => .bexp
  | .compare => .relExp
  | .arith => .aexp

def Expr.nodeClass : Expr → NodeClass
  | .int _ => .intConst
  | .truth _ => .boolConst
  | .var _ => .intVar
  | .app form _ _ => form.nodeClass

def Stmt.nodeClass : Stmt → NodeClass
  | .skip => .skipStmt
  | .printState => .printStateStmt
  | .assign _ _ => .asgnStmt
  | .ifElse _ _ _ => .ifStmt
  | .ifOnly _ _ => .ifStmt
  | .loop _ _ _ => .whileStmt
  | .assert _ => .assertStmt
  | .assume _ => .assumeStmt
  | .havoc _ => .havocStmt
  | .block _ => .stmtList
  | .hollow => .stmtList

def Node.nodeClass : Node → NodeClass
  | .stmt s => s.nodeClass
  | .expr e => e.nodeClass

/-- The handler that a class of nodes reaches among those named. -/
def NodeClass.handler (c : NodeClass) (visitor : Visitor) (handlers : List String) :
    Except Fault String :=
  match ((c :: c.fallbacks).map text).find? handlers.contains with
  | some handler => .ok handler
  | none => .error (.noHandler visitor c.lastTried.text)

/-- The cause of meeting an expression where only statements have handlers. -/
def Expr.noHandler (visitor : Visitor) (e : Expr) : Fault :=
  .noHandler visitor e.nodeClass.lastTried.text

end WhileExec
