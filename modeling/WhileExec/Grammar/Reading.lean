import WhileExec.Grammar.Rules
import WhileExec.Program
import WhileExec.Text.Integer

/-!
# Programs from text

What a rule reads as a program fragment. An operator that occurs several times in one chain of connectives is
not one operator: the chain is then applied as a whole, under the list of its operators.
-/

namespace WhileExec.Grammar

inductive Reading where
  | text (s : String)
  | expr (e : Expr)
  | stmt (s : Stmt)
  | list (items : List Reading)
  deriving Repr, Inhabited

namespace Reading

def text? : Reading → Option String
  | .text s => some s
  | _ => none

def expr? : Reading → Option Expr
  | .expr e => some e
  | _ => none

def stmt? : Reading → Option Stmt
  | .stmt s => some s
  | _ => none

def name? : Reading → Option String
  | .expr (.var x) => some x
  | _ => none

def items : Reading → List Reading
  | .list rs => rs
  | _ => []

/-- The operator of a chain. -/
def chainOperator : List String → String
  | [op] => op
  | ops => "[" ++ ", ".intercalate (ops.map Text.quoted) ++ "]"

/-- A chain of connectives; without an operator it is its only operand. -/
def chain (parts : Parts Reading) : Option Reading := do
  let args := (parts.values "args").filterMap expr?
  match (parts.values "op").filterMap text? with
  | [] => (args.head?).map .expr
  | ops => some (.expr (.app .logic (chainOperator ops) args))

def operation (form : Form) (parts : Parts Reading) : Option Reading := do
  let lhs ← (← parts.value? "lhs").expr?
  let op ← (← parts.value? "op").text?
  let rhs ← (← parts.value? "rhs").expr?
  return .expr (.app form op [lhs, rhs])

/-- What a rule makes of its parts; none if they are not those of the rule. -/
def ofParts? (r : Rule) (parts : Parts Reading) : Option Reading :=
  match r with
  | .start => do
    match ← parts.single? with
    | .stmt (.block [s]) => return .stmt s
    | other => return other
  | .stmtList => do
    return .stmt (.block ((← parts.single?).items.filterMap stmt?))
  | .asgnStmt => do
    return .stmt (.assign (← (← parts.value? "lhs").name?) (← (← parts.value? "rhs").expr?))
  | .skipStmt => some (.stmt .skip)
  | .printStateStmt => some (.stmt .printState)
  | .ifStmt => do
    let cond ← (← parts.value? "cond").expr?
    let yes ← (← parts.value? "then_stmt").stmt?
    match parts.value? "else_stmt" with
    | none => return .stmt (.ifOnly cond yes)
    | some no => return .stmt (.ifElse cond yes (← no.stmt?))
  | .whileStmt => do
    let cond ← (← parts.value? "cond").expr?
    let body ← (← parts.value? "body").stmt?
    match parts.value? "inv" with
    | none => return .stmt (.loop cond body none)
    | some inv => return .stmt (.loop cond body (some (← inv.expr?)))
  | .assertStmt => do return .stmt (.assert (← (← parts.value? "cond").expr?))
  | .assumeStmt => do return .stmt (.assume (← (← parts.value? "cond").expr?))
  | .havocStmt => do return .stmt (.havoc ((← parts.value? "vars").items.filterMap name?))
  | .boolConst => do return .expr (.truth (.bool ((← (← parts.single?).text?) == "true")))
  | .bexp => chain parts
  | .bterm => chain parts
  | .bfactor => do
    let arg ← (← parts.value? "arg").expr?
    match parts.value? "op" with
    | none => return .expr arg
    | some op => return .expr (.app .logic (← op.text?) [arg])
  | .rexp => operation .compare parts
  | .addition => operation .arith parts
  | .subtraction => operation .arith parts
  | .mult => operation .arith parts
  | .division => operation .arith parts
  | .name => do return .expr (.var (← (← parts.single?).text?))
  | .negNumber => do
    match ← parts.single? with
    | .expr (.int n) => return .expr (.int (-n))
    | _ => none
  | _ => parts.single?

/-- Numbers are read in decimal only; another way of writing one ends the reading. -/
def close (r : Rule) (parts : Parts Reading) : Except Fault Reading :=
  match r, parts.single? with
  | .number, some (.text s) =>
    match Text.readInteger? s with
    | some n => .ok (.expr (.int n))
    | none => .error (.notInteger s)
  | _, _ =>
    match ofParts? r parts with
    | some reading => .ok reading
    | none => .error .unsupported

def builder : Builder Reading where
  text := text
  list := list
  close r _ _ parts := close r parts

/-- Reads a text from a rule: what it stands for and the place where reading stopped. -/
def read (rule text : String) : Except Fault (Reading × Nat) :=
  readTextFrom builder true rule text

mutual

/-- Equality of readings, built on that of programs. -/
def alike : Reading → Reading → Bool
  | .text s, .text t => s == t
  | .expr a, .expr b => a.alike b
  | .stmt s, .stmt t => s.alike t
  | .list as, .list bs => alikeAll as bs
  | _, _ => false

def alikeAll : List Reading → List Reading → Bool
  | [], [] => true
  | a :: as, b :: bs => a.alike b && alikeAll as bs
  | _, _ => false

end

def node? : Reading → Option Node
  | .expr e => some (.expr e)
  | .stmt s => some (.stmt s)
  | _ => none

end Reading

/-- Reads a program. What follows its longest reading is left alone. -/
def parse (text : String) : Except Fault Reading :=
  (·.1) <$> readText Reading.builder true .start text

end WhileExec.Grammar
