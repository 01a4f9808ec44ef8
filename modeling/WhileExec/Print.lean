import WhileExec.Fault
import WhileExec.Program

/-!
# Programs as text

Writing can break off: an application without operands and a havoc without variables have no text. What was
written up to that point is kept beside the cause.
-/

namespace WhileExec

/-- Text written so far, and the cause if writing broke off. -/
structure Written where
  text : String
  fault : Option Fault := none
  deriving DecidableEq, Repr, Inhabited

namespace Written

/-- Nothing is written after writing broke off. -/
def append (a b : Written) : Written :=
  match a.fault with
  | some _ => a
  | none => ⟨a.text ++ b.text, b.fault⟩

instance : Append Written := ⟨append⟩

instance : Coe String Written := ⟨fun text => { text }⟩

/-- Breaks off. -/
def stop (fault : Fault) : Written :=
  ⟨"", some fault⟩

def toExcept (w : Written) : Except Fault String :=
  match w.fault with
  | some fault => .error fault
  | none => .ok w.text

end Written

def spaces (n : Int) : String :=
  String.ofList (List.replicate n.toNat ' ')

mutual

/-- The text of an expression. An application of several operands stands in brackets unless it is `bare`. -/
def Expr.write (bare : Bool) : Expr → Written
  | .int n => ↑(toString n)
  | .truth v => ↑(if v.isTrue then "true" else "false")
  | .var name => ↑name
  | .app _ op [arg] => (↑op : Written) ++ arg.write false
  | .app _ _ [] => (↑(if bare then "" else "(") : Written) ++ Written.stop .missingOperand
  | .app _ op (arg :: rest) =>
    (↑(if bare then "" else "(") : Written) ++ arg.write false ++ Expr.writeRest op rest ++
      (↑(if bare then "" else ")") : Written)

/-- The operands after the first, each behind the operator. -/
def Expr.writeRest (op : String) : List Expr → Written
  | [] => ↑""
  | arg :: rest => (↑(" " ++ op ++ " ") : Written) ++ arg.write false ++ Expr.writeRest op rest

end

/-- The variables of a havoc. -/
def writeNames : List String → Written
  | [] => .stop .unsupported
  | name :: rest => ↑(rest.foldl (fun text next => text ++ ", " ++ next) name)

mutual

/-- The text of a statement whose first line is already indented by `indent`. -/
def Stmt.write (indent : Int) : Stmt → Written
  | .skip => ↑"skip"
  | .printState => ↑"print_state"
  | .assign name rhs => (↑(name ++ " := ") : Written) ++ rhs.write true
  | .assert cond => (↑"assert " : Written) ++ cond.write true
  | .assume cond => (↑"assume " : Written) ++ cond.write true
  | .havoc names => (↑"havoc " : Written) ++ writeNames names
  | .ifElse cond yes no =>
    (↑"if " : Written) ++ cond.write true ++ (↑(" then\n" ++ spaces (indent + 2)) : Written) ++
      yes.write (indent + 2) ++
      (↑("\n" ++ spaces indent ++ "else\n" ++ spaces (indent + 2)) : Written) ++ no.write (indent + 2)
  | .ifOnly cond yes =>
    (↑"if " : Written) ++ cond.write true ++ (↑(" then\n" ++ spaces (indent + 2)) : Written) ++
      yes.write (indent + 2)
  | .loop cond body _ =>
    (↑"while " : Written) ++ cond.write true ++ (↑(" do\n" ++ spaces (indent + 2)) : Written) ++
      body.write (indent + 2)
  | .hollow => ↑""
  | .block [] => ↑""
  | .block [item] => (↑(spaces indent) : Written) ++ item.write (indent + 2)
  | .block (item :: rest) =>
    (↑(spaces indent ++ "\x7b\n" ++ spaces (indent + 2)) : Written) ++ item.write (indent + 2) ++
      Stmt.writeRest (indent + 2) rest ++ (↑("\n" ++ spaces indent ++ "\x7d") : Written)

/-- The statements after the first of a block, each on a line of its own. -/
def Stmt.writeRest (indent : Int) : List Stmt → Written
  | [] => ↑""
  | item :: rest =>
    (↑(";\n" ++ spaces indent) : Written) ++ item.write indent ++ Stmt.writeRest indent rest

end

def Node.write (indent : Int) (bare : Bool) : Node → Written
  | .stmt s => s.write indent
  | .expr e => e.write bare

/-- The text by which an expression is shown in messages: constants by their values. -/
def Expr.show : Expr → Written
  | .truth v => ↑v.text
  | e => e.write false

def Node.show : Node → Written
  | .stmt s => s.write 0
  | .expr e => e.show

/-- As `Node.show`, with a lone variable quoted. -/
def Node.describe : Node → Written
  | .expr (.var name) => ↑(Text.quoted name)
  | node => node.show

end WhileExec
