/-!
# Terms and formulas

What an expression stands for when variables hold unknown integers. Terms and formulas are kept exactly as they
are built. An interpretation gives every symbol an integer and says what division by zero yields; other divisions
leave a remainder that is not negative.
-/

namespace WhileExec.Symbolic

/-- An unknown integer. The number tells symbols apart, the name says for which variable one was made. -/
structure Symbol where
  name : String
  index : Nat
  deriving DecidableEq, Repr, Inhabited

def Symbol.text (s : Symbol) : String :=
  s.name ++ "!" ++ toString s.index

inductive Term where
  | lit (n : Int)
  | sym (s : Symbol)
  | add (a b : Term)
  | sub (a b : Term)
  | mul (a b : Term)
  | div (a b : Term)
  deriving DecidableEq, Repr, Inhabited

/-- The relations between integers. -/
inductive Relation where
  | le | lt | eq | ge | gt
  deriving DecidableEq, Repr, Inhabited

inductive Formula where
  | bool (b : Bool)
  | rel (r : Relation) (a b : Term)
  | not (f : Formula)
  | and (fs : List Formula)
  | or (fs : List Formula)
  deriving Repr, Inhabited

/-- The conditions under which a path is taken, in the order in which they were met. -/
abbrev Path := List Formula

namespace Relation

def text : Relation → String
  | le => "<="
  | lt => "<"
  | eq => "="
  | ge => ">="
  | gt => ">"

def ofText? : String → Option Relation
  | "<=" => some le
  | "<" => some lt
  | "=" => some eq
  | ">=" => some ge
  | ">" => some gt
  | _ => none

/-- The same relation read from right to left. -/
def flip : Relation → Relation
  | le => ge
  | lt => gt
  | eq => eq
  | ge => le
  | gt => lt

def holds : Relation → Int → Int → Bool
  | le, m, n => m ≤ n
  | lt, m, n => m < n
  | eq, m, n => m == n
  | ge, m, n => m ≥ n
  | gt, m, n => m > n

end Relation

/-- Integers for all symbols, and the results of dividing by zero. -/
structure Interpretation where
  symbol : Symbol → Int
  byZero : Int → Int

namespace Term

def isLit : Term → Bool
  | .lit _ => true
  | _ => false

/-- The text of a term, with a given way to write integers. -/
def textWith (lit : Int → String) : Term → String
  | .lit n => lit n
  | .sym s => s.text
  | .add a b => "(+ " ++ a.textWith lit ++ " " ++ b.textWith lit ++ ")"
  | .sub a b => "(- " ++ a.textWith lit ++ " " ++ b.textWith lit ++ ")"
  | .mul a b => "(* " ++ a.textWith lit ++ " " ++ b.textWith lit ++ ")"
  | .div a b => "(div " ++ a.textWith lit ++ " " ++ b.textWith lit ++ ")"

def text (t : Term) : String :=
  t.textWith toString

def eval (i : Interpretation) : Term → Int
  | .lit n => n
  | .sym s => i.symbol s
  | .add a b => a.eval i + b.eval i
  | .sub a b => a.eval i - b.eval i
  | .mul a b => a.eval i * b.eval i
  | .div a b => if b.eval i = 0 then i.byZero (a.eval i) else a.eval i / b.eval i

end Term

namespace Formula

/-- A comparison. A literal is put on the left of anything that is not one. -/
def compare (r : Relation) (a b : Term) : Formula :=
  if b.isLit && !a.isLit then .rel r.flip b a else .rel r a b

mutual

/-- The text of a formula, with a given way to write integers. -/
def textWith (lit : Int → String) : Formula → String
  | .bool b => if b then "true" else "false"
  | .rel r a b => "(" ++ r.text ++ " " ++ a.textWith lit ++ " " ++ b.textWith lit ++ ")"
  | .not f => "(not " ++ f.textWith lit ++ ")"
  | .and fs => "(and" ++ textAllWith lit fs ++ ")"
  | .or fs => "(or" ++ textAllWith lit fs ++ ")"

def textAllWith (lit : Int → String) : List Formula → String
  | [] => ""
  | f :: fs => " " ++ f.textWith lit ++ textAllWith lit fs

end

def text (f : Formula) : String :=
  f.textWith toString

/-- The text of a formula in a benchmark file, where a negative integer is the negation of a positive one. -/
def benchmarkText (f : Formula) : String :=
  f.textWith fun n => if n < 0 then "(- " ++ toString (-n) ++ ")" else toString n

mutual

def eval (i : Interpretation) : Formula → Bool
  | .bool b => b
  | .rel r a b => r.holds (a.eval i) (b.eval i)
  | .not f => !f.eval i
  | .and fs => evalAll i fs
  | .or fs => evalAny i fs

def evalAll (i : Interpretation) : List Formula → Bool
  | [] => true
  | f :: fs => f.eval i && evalAll i fs

def evalAny (i : Interpretation) : List Formula → Bool
  | [] => false
  | f :: fs => f.eval i || evalAny i fs

end

end Formula

/-- The interpretation satisfies all conditions of the path. -/
def Path.holds (i : Interpretation) (path : Path) : Bool :=
  path.all (Formula.eval i)

def Path.text (path : Path) : String :=
  "[" ++ ", ".intercalate (path.map Formula.text) ++ "]"

end WhileExec.Symbolic
