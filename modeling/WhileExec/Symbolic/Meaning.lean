import WhileExec.Env
import WhileExec.Handler
import WhileExec.Symbolic.Term

/-!
# Expressions as terms

An expression whose variables stand for symbols means a term or a formula. Operands are all taken before the
operator is looked at. Connectives are built in one of two ways: as one formula over all operands, or nested from
the left, starting from the neutral truth value.
-/

namespace WhileExec.Symbolic

inductive Meaning where
  | term (t : Term)
  | formula (f : Formula)
  deriving Repr, Inhabited

namespace Meaning

def text : Meaning → String
  | .term t => t.text
  | .formula f => f.text

def toTerm : Meaning → Except Fault Term
  | .term t => .ok t
  | .formula _ => .error .illSorted

def toFormula : Meaning → Except Fault Formula
  | .formula f => .ok f
  | .term _ => .error .illSorted

end Meaning

/-- How connectives are built. -/
inductive Joining where
  | flat
  | nested
  deriving DecidableEq, Repr, Inhabited

namespace Joining

def conjunction (fs : List Formula) : Joining → Formula
  | .flat => .and fs
  | .nested => fs.foldl (fun f g => .and [f, g]) (.bool true)

def disjunction (fs : List Formula) : Joining → Formula
  | .flat => .or fs
  | .nested => fs.foldl (fun f g => .or [f, g]) (.bool false)

end Joining

namespace Meaning

def connective (joining : Joining) (op : String) (args : List Meaning) : Except Fault Meaning := do
  match op with
  | "not" =>
    match args with
    | [m] => return .formula (.not (← m.toFormula))
    | _ => .error .unsupported
  | "and" => return .formula (joining.conjunction (← args.mapM toFormula))
  | "or" => return .formula (joining.disjunction (← args.mapM toFormula))
  | _ => .error .unsupported

/-- An operation on terms, nested to the left. A single operand is left as it is. -/
def fold (op : Term → Term → Term) (args : List Meaning) : Except Fault Meaning := do
  match args with
  | [] => .error .noOperands
  | [m] => return m
  | m :: ms => return .term ((← ms.mapM toTerm).foldl op (← m.toTerm))

def arithmetic (op : String) (args : List Meaning) : Except Fault Meaning :=
  match op with
  | "+" => fold .add args
  | "-" => fold .sub args
  | "*" => fold .mul args
  | "/" => fold .div args
  | _ => .error .unsupported

def comparison (op : String) (args : List Meaning) : Except Fault Meaning := do
  match args with
  | m :: n :: _ =>
    match Relation.ofText? op with
    | some r => return .formula (.compare r (← m.toTerm) (← n.toTerm))
    | none => .error .unsupported
  | _ => .error .missingOperand

def apply (joining : Joining) (form : Form) (op : String) (args : List Meaning) : Except Fault Meaning :=
  match form with
  | .plain => .error (.noHandler .symbolic NodeClass.exp.text)
  | .logic => connective joining op args
  | .arith => arithmetic op args
  | .compare => comparison op args

mutual

/-- The meaning of an expression where variables stand for symbols. -/
def of (joining : Joining) (env : Env Symbol) : Expr → Except Fault Meaning
  | .int n => .ok (.term (.lit n))
  | .truth v => .ok (.formula (.bool v.isTrue))
  | .var name =>
    match env[name]? with
    | some s => .ok (.term (.sym s))
    | none => .error (.unbound name)
  | .app .plain op _ => apply joining .plain op []
  | .app form op args => do apply joining form op (← ofAll joining env args)

def ofAll (joining : Joining) (env : Env Symbol) : List Expr → Except Fault (List Meaning)
  | [] => .ok []
  | e :: es => do
    let m ← of joining env e
    return m :: (← ofAll joining env es)

end

end Meaning

end WhileExec.Symbolic
