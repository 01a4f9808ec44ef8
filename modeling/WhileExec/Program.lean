import WhileExec.Value

/-!
# Programs

Expressions and statements of the While language. An application carries its operator as it was written,
together with the form of expression it was built as; nothing here says that the operator belongs to the
form or that the number of operands suits it. Which combinations have a meaning is decided where they are
evaluated.
-/

namespace WhileExec

/-- What kind of expression an application is: of no kind in particular, a connective, a comparison or an
arithmetic operation. -/
inductive Form where
  | plain
  | logic
  | compare
  | arith
  deriving DecidableEq, Repr, Inhabited

inductive Expr where
  | int (n : Int)
  | truth (v : Value)
  | var (name : String)
  | app (form : Form) (op : String) (args : List Expr)
  deriving Inhabited, Repr

inductive Stmt where
  | skip
  | printState
  | assign (name : String) (rhs : Expr)
  | ifElse (cond : Expr) (yes no : Stmt)
  | ifOnly (cond : Expr) (yes : Stmt)
  | loop (cond : Expr) (body : Stmt) (inv : Option Expr)
  | assert (cond : Expr)
  | assume (cond : Expr)
  | havoc (names : List String)
  | block (items : List Stmt)
  /-- A block to which no list of statements was given. -/
  | hollow
  deriving Inhabited, Repr

/-- A program fragment: a statement, or an expression on its own. -/
inductive Node where
  | stmt (s : Stmt)
  | expr (e : Expr)
  deriving Inhabited, Repr

mutual

/-- Equality of expressions: the same shape with equal constants, where a truth constant is compared by its
numeric value. -/
def Expr.alike : Expr → Expr → Bool
  | .int m, .int n => m == n
  | .truth v, .truth w => v.alike w
  | .var x, .var y => x == y
  | .app f o as, .app g p bs => f == g && o == p && Expr.alikeAll as bs
  | _, _ => false

def Expr.alikeAll : List Expr → List Expr → Bool
  | [], [] => true
  | a :: as, b :: bs => a.alike b && Expr.alikeAll as bs
  | _, _ => false

end

/-- Equality of optional expressions. -/
def Expr.alikeOpt : Option Expr → Option Expr → Bool
  | none, none => true
  | some a, some b => a.alike b
  | _, _ => false

mutual

/-- Equality of statements, built on that of expressions. -/
def Stmt.alike : Stmt → Stmt → Bool
  | .skip, .skip => true
  | .printState, .printState => true
  | .assign x a, .assign y b => x == y && a.alike b
  | .ifElse a s t, .ifElse b u v => a.alike b && s.alike u && t.alike v
  | .ifOnly a s, .ifOnly b u => a.alike b && s.alike u
  | .loop a s i, .loop b u j => a.alike b && s.alike u && Expr.alikeOpt i j
  | .assert a, .assert b => a.alike b
  | .assume a, .assume b => a.alike b
  | .havoc xs, .havoc ys => xs == ys
  | .block ss, .block ts => Stmt.alikeAll ss ts
  | .hollow, .hollow => true
  | _, _ => false

def Stmt.alikeAll : List Stmt → List Stmt → Bool
  | [], [] => true
  | s :: ss, t :: ts => s.alike t && Stmt.alikeAll ss ts
  | _, _ => false

end

def Node.alike : Node → Node → Bool
  | .stmt s, .stmt t => s.alike t
  | .expr a, .expr b => a.alike b
  | _, _ => false

/-- The element of a list at an index; negative ones count from the end. -/
def elementAt? {α : Type} (xs : List α) (i : Int) : Option α :=
  if 0 ≤ i then xs[i.toNat]?
  else if (-i).toNat ≤ xs.length then xs[xs.length - (-i).toNat]?
  else none

/-- Puts an expression at the end of a list of different ones, unless it is there already. -/
def Expr.addNew (seen : List Expr) (e : Expr) : List Expr :=
  if seen.any (·.alike e) then seen else seen ++ [e]

end WhileExec
