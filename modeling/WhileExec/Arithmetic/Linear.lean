/-!
# Linear forms

A linear form is a constant plus integer multiples of variables, which are numbered. The multiples are listed by
ascending variable, and none is zero.
-/

namespace WhileExec.Arithmetic

structure Linear where
  const : Int := 0
  terms : List (Nat × Int) := []
  deriving DecidableEq, Repr, Inhabited

/-- Integers for some variables; all others are zero. -/
abbrev Assignment := List (Nat × Int)

def Assignment.value (a : Assignment) (x : Nat) : Int :=
  (a.lookup x).getD 0

/-- Adds a multiple of a variable to listed multiples. -/
def addTerm (x : Nat) (c : Int) : List (Nat × Int) → List (Nat × Int)
  | [] => if c = 0 then [] else [(x, c)]
  | (y, d) :: rest =>
    if x < y then if c = 0 then (y, d) :: rest else (x, c) :: (y, d) :: rest
    else if x = y then if c + d = 0 then rest else (y, c + d) :: rest
    else (y, d) :: addTerm x c rest

namespace Linear

def ofInt (n : Int) : Linear :=
  { const := n }

def ofVar (x : Nat) : Linear :=
  { terms := [(x, 1)] }

def isConst (e : Linear) : Bool :=
  e.terms.isEmpty

def eval (a : Assignment) (e : Linear) : Int :=
  e.terms.foldl (fun sum term => sum + term.2 * a.value term.1) e.const

def add (e f : Linear) : Linear :=
  ⟨e.const + f.const, f.terms.foldl (fun terms term => addTerm term.1 term.2 terms) e.terms⟩

def scale (c : Int) (e : Linear) : Linear :=
  if c = 0 then {} else ⟨c * e.const, e.terms.map fun term => (term.1, c * term.2)⟩

def sub (e f : Linear) : Linear :=
  e.add (f.scale (-1))

def shift (c : Int) (e : Linear) : Linear :=
  { e with const := e.const + c }

def coeff (x : Nat) (e : Linear) : Int :=
  (e.terms.lookup x).getD 0

/-- The form without its multiple of a variable. -/
def without (x : Nat) (e : Linear) : Linear :=
  { e with terms := e.terms.filter (·.1 != x) }

/-- Puts a form in place of a variable, which may itself occur in it. -/
def replace (e : Linear) (x : Nat) (f : Linear) : Linear :=
  let c := e.coeff x
  if c = 0 then e else (e.without x).add (f.scale c)

/-- The greatest common divisor of the multiples. -/
def content (e : Linear) : Nat :=
  e.terms.foldl (fun g term => g.gcd term.2.natAbs) 0

/-- Divides the multiples, which `g` has to divide, and rounds the constant down. -/
def divide (g : Nat) (e : Linear) : Linear :=
  ⟨e.const.fdiv g, e.terms.map fun term => (term.1, term.2 / (g : Int))⟩

end Linear

end WhileExec.Arithmetic
