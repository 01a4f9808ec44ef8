import WhileExec.Arithmetic.System
import WhileExec.Symbolic.Pool

/-!
# Deciding paths

Whether a path has a solution in the integers. Conditions are taken apart into equations and inequalities, which
are solved together, and alternatives, of which one is tried after the other where the solution found so far
satisfies none.

Symbols that an equation fixes are replaced by their values, until a product has at most one factor that is not
constant and every divisor is constant. A quotient by a constant is a variable of its own, bounded by the
remainder it leaves; quotients by zero are free but equal where the dividends are. What stays a product of
unknowns is not decided.
-/

namespace WhileExec.Symbolic

open WhileExec.Arithmetic

/-- Values for symbols, by number, and the results of dividing by zero that are in use. -/
structure Model where
  symbols : Assignment := []
  byZero : List (Int × Int) := []
  deriving Repr, Inhabited

def Model.interpretation (m : Model) : Interpretation where
  symbol s := m.symbols.value s.index
  byZero n := (m.byZero.lookup n).getD 0

/-- A quotient as a variable of its own. -/
structure Quotient where
  dividend : Linear
  divisor : Int
  name : Nat
  deriving DecidableEq, Repr, Inhabited

/-- The quotients met so far and the number for the next one. -/
structure Quotients where
  next : Nat
  entries : List Quotient := []
  deriving Repr, Inhabited

namespace Quotients

/-- The variable for a quotient, the same for the same dividend and divisor. -/
def variableFor (dividend : Linear) (divisor : Int) (q : Quotients) : Nat × Quotients :=
  match q.entries.find? fun entry => entry.dividend == dividend && entry.divisor == divisor with
  | some entry => (entry.name, q)
  | none => (q.next, ⟨q.next + 1, ⟨dividend, divisor, q.next⟩ :: q.entries⟩)

/-- The remainder lies between zero and the divisor's absolute value. -/
def constraints (q : Quotients) : List Linear :=
  q.entries.flatMap fun entry =>
    if entry.divisor = 0 then []
    else
      let remainder := entry.dividend.sub ((Linear.ofVar entry.name).scale entry.divisor)
      [remainder, (remainder.scale (-1)).shift (entry.divisor.natAbs - 1)]

def byZero (q : Quotients) : List Quotient :=
  q.entries.filter (·.divisor == 0)

end Quotients

namespace Term

/-- A number above those of all symbols. -/
def bound : Term → Nat
  | .lit _ => 0
  | .sym s => s.index + 1
  | .add a b => max a.bound b.bound
  | .sub a b => max a.bound b.bound
  | .mul a b => max a.bound b.bound
  | .div a b => max a.bound b.bound

def symbols : Term → List Symbol
  | .lit _ => []
  | .sym s => [s]
  | .add a b => a.symbols ++ b.symbols
  | .sub a b => a.symbols ++ b.symbols
  | .mul a b => a.symbols ++ b.symbols
  | .div a b => a.symbols ++ b.symbols

/-- The term as a linear form, with fixed symbols replaced; none for a product or quotient of unknowns. -/
def linear (fixed : Assignment) : Term → StateT Quotients Option Linear
  | .lit n => return .ofInt n
  | .sym s =>
    match fixed.lookup s.index with
    | some n => return .ofInt n
    | none => return .ofVar s.index
  | .add a b => return (← a.linear fixed).add (← b.linear fixed)
  | .sub a b => return (← a.linear fixed).sub (← b.linear fixed)
  | .mul a b => do
    let e ← a.linear fixed
    let f ← b.linear fixed
    if e.isConst then return f.scale e.const
    else if f.isConst then return e.scale f.const
    else failure
  | .div a b => do
    let e ← a.linear fixed
    let f ← b.linear fixed
    if !f.isConst then failure
    else if e.isConst && f.const != 0 then return .ofInt (e.const / f.const)
    else return .ofVar (← modifyGet (Quotients.variableFor e f.const))

end Term

namespace Formula

mutual

def bound : Formula → Nat
  | .bool _ => 0
  | .rel _ a b => max a.bound b.bound
  | .not f => f.bound
  | .and fs => boundAll fs
  | .or fs => boundAll fs

def boundAll : List Formula → Nat
  | [] => 0
  | f :: fs => max f.bound (boundAll fs)

end

mutual

def symbols : Formula → List Symbol
  | .bool _ => []
  | .rel _ a b => a.symbols ++ b.symbols
  | .not f => f.symbols
  | .and fs => symbolsAll fs
  | .or fs => symbolsAll fs

def symbolsAll : List Formula → List Symbol
  | [] => []
  | f :: fs => f.symbols ++ symbolsAll fs

end

end Formula

/-- Terms that have to be zero, and terms that must not be negative. -/
structure Atoms where
  zero : List Term := []
  nonneg : List Term := []
  deriving Repr, Inhabited

namespace Atoms

def append (a b : Atoms) : Atoms :=
  ⟨a.zero ++ b.zero, a.nonneg ++ b.nonneg⟩

def holds (i : Interpretation) (a : Atoms) : Bool :=
  a.zero.all (·.eval i == 0) && a.nonneg.all (0 ≤ ·.eval i)

/-- Fixes the symbol of an equation in which it is the only unknown. -/
def fixOne (next : Nat) (fixed : Assignment) (t : Term) : Assignment :=
  match (t.linear fixed).run { next } with
  | some (⟨k, [(x, c)]⟩, ⟨_, []⟩) => if k % c = 0 then (x, -(k / c)) :: fixed else fixed
  | _ => fixed

/-- Goes through the equations until no further symbol gets fixed. -/
def fix (next : Nat) (zero : List Term) : Nat → Assignment → Assignment
  | 0, fixed => fixed
  | fuel + 1, fixed =>
    let more := zero.foldl (fixOne next) fixed
    if more.length = fixed.length then fixed else fix next zero fuel more

/-- The terms that are linear, as forms. -/
def linearAll (fixed : Assignment) (terms : List Term) (q : Quotients) : List Linear × Quotients :=
  terms.foldl (fun (forms, q) t =>
    match (t.linear fixed).run q with
    | some (e, q) => (forms ++ [e], q)
    | none => (forms, q)) ([], q)

/-- Two quotients by zero that are different although their dividends are equal. -/
def clash? (solution : Assignment) : List Quotient → Option (Quotient × Quotient)
  | [] => none
  | entry :: rest =>
    match rest.find? fun other => entry.dividend.eval solution == other.dividend.eval solution &&
        solution.value entry.name != solution.value other.name with
    | some other => some (entry, other)
    | none => clash? solution rest

/-- How deep systems are solved. -/
def depth : Nat := 100000

/-- Solves a system in which quotients by zero depend on their dividends only. -/
def solveFunctional (quotients : List Quotient) : Nat → System → Verdict Assignment
  | 0, _ => .unknown
  | fuel + 1, s =>
    match s.solve depth with
    | .sat solution =>
      match clash? solution quotients with
      | none => .sat solution
      | some (a, b) =>
        let apart := (a.dividend.sub b.dividend).shift (-1)
        let apart' := (b.dividend.sub a.dividend).shift (-1)
        let same := (Linear.ofVar a.name).sub (.ofVar b.name)
        .firstOf [
          fun _ => solveFunctional quotients fuel { s with nonneg := apart :: s.nonneg },
          fun _ => solveFunctional quotients fuel { s with nonneg := apart' :: s.nonneg },
          fun _ => solveFunctional quotients fuel { s with zero := same :: s.zero }]
    | other => other

/-- A model of the atoms. If some are not linear, a model of the others is tried. -/
def solve (next : Nat) (a : Atoms) : Verdict Model :=
  let fixed := fix next a.zero (a.zero.length + 1) []
  let (zero, q) := linearAll fixed a.zero { next }
  let (nonneg, q) := linearAll fixed a.nonneg q
  let byZero := q.byZero
  match solveFunctional byZero (byZero.length * byZero.length + 1) ⟨zero, nonneg ++ q.constraints⟩ with
  | .unsat => .unsat
  | .unknown => .unknown
  | .sat solution =>
    let model : Model :=
      ⟨fixed ++ solution, byZero.map fun entry => (entry.dividend.eval solution, solution.value entry.name)⟩
    if a.holds model.interpretation then .sat model else .unknown

end Atoms

/-- A formula or its negation. -/
structure Literal where
  positive : Bool
  formula : Formula
  deriving Repr, Inhabited

namespace Literal

def holds (i : Interpretation) (l : Literal) : Bool :=
  l.formula.eval i == l.positive

/-- A literal taken apart. -/
inductive Reduced where
  | truth (b : Bool)
  | all (parts : List Literal)
  | any (parts : List Literal)
  | atoms (a : Atoms)

def reduceRel (positive : Bool) (r : Relation) (a b : Term) : Reduced :=
  let atLeast (x y : Term) : Reduced := .atoms { nonneg := [.sub x y] }
  let above (x y : Term) : Reduced := .atoms { nonneg := [.sub (.sub x y) (.lit 1)] }
  match r, positive with
  | .eq, true => .atoms { zero := [.sub a b] }
  | .eq, false => .any [⟨true, .rel .lt a b⟩, ⟨true, .rel .gt a b⟩]
  | .le, true => atLeast b a
  | .le, false => above a b
  | .lt, true => above b a
  | .lt, false => atLeast a b
  | .ge, true => atLeast a b
  | .ge, false => above b a
  | .gt, true => above a b
  | .gt, false => atLeast b a

def reduce : Literal → Reduced
  | ⟨positive, .bool b⟩ => .truth (b == positive)
  | ⟨positive, .rel r a b⟩ => reduceRel positive r a b
  | ⟨positive, .not f⟩ => .all [⟨!positive, f⟩]
  | ⟨true, .and fs⟩ => .all (fs.map (⟨true, ·⟩))
  | ⟨false, .or fs⟩ => .all (fs.map (⟨false, ·⟩))
  | ⟨true, .or fs⟩ => .any (fs.map (⟨true, ·⟩))
  | ⟨false, .and fs⟩ => .any (fs.map (⟨false, ·⟩))

end Literal

/-- One alternative after the other of the first choice that is open, with the choices that remain. -/
def tryOpen (choices : List (List Literal)) (isOpen : List Literal → Bool) (otherwise : Verdict Model)
    (attempt : Literal → List (List Literal) → Verdict Model) : Verdict Model :=
  match choices.findIdx? isOpen with
  | none => otherwise
  | some i => .firstOf ((choices[i]?.getD []).map fun l _ => attempt l (choices.eraseIdx i))

/-- A model of literals, atoms and alternatives together. Every literal that is taken apart, and every alternative
that is tried, uses one unit of fuel. -/
def findModel (next : Nat) : Nat → List Literal → Atoms → List (List Literal) → Verdict Model
  | 0, _, _, _ => .unknown
  | fuel + 1, l :: rest, atoms, choices =>
    match l.reduce with
    | .truth true => findModel next fuel rest atoms choices
    | .truth false => .unsat
    | .all parts => findModel next fuel (parts ++ rest) atoms choices
    | .any parts => findModel next fuel rest atoms (choices ++ [parts])
    | .atoms a => findModel next fuel rest (atoms.append a) choices
  | fuel + 1, [], atoms, choices =>
    let attempt (l : Literal) (rest : List (List Literal)) : Verdict Model := findModel next fuel [l] atoms rest
    match atoms.solve next with
    | .unsat => .unsat
    | .sat m => tryOpen choices (fun parts => !parts.any (·.holds m.interpretation)) (.sat m) attempt
    | .unknown => tryOpen choices (fun _ => true) .unknown attempt

/-- The symbols of a path by their numbers. -/
def Path.names (path : Path) : Std.TreeMap Nat String :=
  (Formula.symbolsAll path).foldl (fun names s => names.insert s.index s.name) {}

/-- Symbols with the same number are the same. -/
def Path.numbered (path : Path) : Bool :=
  let names := path.names
  (Formula.symbolsAll path).all fun s => names[s.index]? == some s.name

/-- A model of a path in which symbols are told apart by their numbers. -/
def Path.model (path : Path) : Verdict Model :=
  if path.numbered then findModel (Formula.boundAll path) 100000 (path.map (⟨true, ·⟩)) {} [] else .unknown

def Path.unsat (path : Path) : Bool :=
  match path.model with
  | .unsat => true
  | _ => false

/-- The value of a symbol in one model, if no other value is possible. -/
def Path.forced (path : Path) (s : Symbol) : Option Int :=
  match path.model with
  | .sat m =>
    let n := m.interpretation.symbol s
    if Path.unsat (path ++ [.not (.rel .eq (.lit n) (.sym s))]) then some n else none
  | _ => none

/-- The solver for linear integer arithmetic. -/
def solver : Solver where
  unsat := Path.unsat
  forced := Path.forced

end WhileExec.Symbolic
