/-!
# Values

A variable holds an integer or a truth value. Truth values count as the integers one and zero wherever an
integer is wanted, and an integer counts as true unless it is zero, so two values can be equal without being
of the same kind.
-/

namespace WhileExec

inductive Value where
  | int (n : Int)
  | bool (b : Bool)
  deriving DecidableEq, Repr, Inhabited

namespace Value

def toInt : Value → Int
  | .int n => n
  | .bool b => if b then 1 else 0

def isTrue (v : Value) : Bool :=
  v.toInt != 0

/-- Equality of values as numbers. -/
def alike (v w : Value) : Bool :=
  v.toInt == w.toInt

/-- The value as state listings show it. -/
def text : Value → String
  | .int n => toString n
  | .bool b => if b then "True" else "False"

end Value

end WhileExec
