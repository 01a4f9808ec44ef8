import WhileExec.Arithmetic.Linear

/-!
# Systems of linear constraints

Whether equations and inequalities have a common integer solution, and one such solution. Variables are
eliminated one after the other. An equation is solved for a variable, if need be after a change of variables that
makes its multiples smaller. An inequality bounds a variable from below or from above, and a variable is
eliminated by comparing each lower bound with each upper bound. That is exact if one of any two such bounds has
the multiple one. Otherwise a stronger comparison is made first, which leaves room for an integer between the
bounds, and if it fails the variable has to be close to one of its lower bounds, which leaves finitely many cases.
-/

namespace WhileExec.Arithmetic

/-- What is known about the solutions. -/
inductive Verdict (α : Type) where
  | unsat
  | sat (solution : α)
  | unknown
  deriving Repr, Inhabited

namespace Verdict

variable {α β : Type}

def map (f : α → β) : Verdict α → Verdict β
  | .unsat => .unsat
  | .sat solution => .sat (f solution)
  | .unknown => .unknown

/-- Another way to find a solution, if the first gives none. -/
def orElse (first : Verdict α) (second : Unit → Verdict α) : Verdict α :=
  match first with
  | .sat solution => .sat solution
  | .unsat => second ()
  | .unknown =>
    match second () with
    | .sat solution => .sat solution
    | _ => .unknown

/-- The first case that has a solution. -/
def firstOf : List (Unit → Verdict α) → Verdict α
  | [] => .unsat
  | first :: rest => (first ()).orElse fun _ => firstOf rest

end Verdict

/-- Forms that have to be zero, and forms that must not be negative. -/
structure System where
  zero : List Linear := []
  nonneg : List Linear := []
  deriving Repr, Inhabited

namespace System

/-- Divides an equation by what its multiples have in common; none if it has no solution. -/
def normalZero (e : Linear) : Option (List Linear) :=
  if e.isConst then if e.const = 0 then some [] else none
  else if e.const % (e.content : Int) = 0 then some [e.divide e.content] else none

/-- Divides an inequality by what its multiples have in common; none if it has no solution. -/
def normalNonneg (e : Linear) : Option (List Linear) :=
  if e.isConst then if 0 ≤ e.const then some [] else none
  else some [e.divide e.content]

/-- Every constraint in its simplest form; none if one of them has no solution. -/
def normal (s : System) : Option System := do
  let zero ← s.zero.mapM normalZero
  let nonneg ← s.nonneg.mapM normalNonneg
  return ⟨zero.flatten, nonneg.flatten.eraseDups⟩

def replace (x : Nat) (f : Linear) (s : System) : System :=
  ⟨s.zero.map (·.replace x f), s.nonneg.map (·.replace x f)⟩

/-- The variable with the smallest multiple, and that multiple. -/
def smallest (e : Linear) : Nat × Int :=
  match e.terms with
  | [] => (0, 0)
  | first :: rest =>
    rest.foldl (fun best term => if term.2.natAbs < best.2.natAbs then term else best) first

/-- For the equation `e = 0` in which `x` has the multiple `c`: what `x` is in terms of the other variables and,
under the same number, of a new one. If `c` is one or minus one the new variable has to be zero. -/
def solved (x : Nat) (c : Int) (e : Linear) : Linear :=
  let others := e.without x
  ⟨-(others.const / c), (others.terms.map fun term => (term.1, -(term.2 / c))).filter (·.2 != 0)⟩

/-- The equation to be used next: one with a multiple of one or minus one, if there is one. -/
def pickZero (zero : List Linear) : Option (Linear × List Linear) :=
  match zero.findIdx? fun e => (smallest e).2.natAbs == 1 with
  | some i => zero[i]?.map fun e => (e, zero.eraseIdx i)
  | none =>
    match zero with
    | [] => none
    | e :: rest => some (e, rest)

/-- The bounds on a variable: forms with a positive multiple of it bound it from below, with a negative one from
above; the last list has those without it. -/
structure Bounds where
  lower : List Linear
  upper : List Linear
  rest : List Linear

def bounds (x : Nat) (nonneg : List Linear) : Bounds :=
  ⟨nonneg.filter (0 < ·.coeff x), nonneg.filter (·.coeff x < 0), nonneg.filter (·.coeff x == 0)⟩

def Bounds.exact (x : Nat) (b : Bounds) : Bool :=
  b.lower.all (·.coeff x == 1) || b.upper.all (·.coeff x == -1)

/-- How bad a variable is to eliminate: not exactly last, and with few comparisons first. -/
def Bounds.cost (x : Nat) (b : Bounds) : Nat :=
  b.lower.length * b.upper.length + if b.lower.isEmpty || b.upper.isEmpty || b.exact x then 0 else 1000000

/-- The variable to be eliminated next. -/
def pickVariable (nonneg : List Linear) : Option Nat :=
  let occurring := (nonneg.flatMap fun e => e.terms.map (·.1)).eraseDups
  match occurring.map fun x => (x, (bounds x nonneg).cost x) with
  | [] => none
  | first :: rest => some (rest.foldl (fun best entry => if entry.2 < best.2 then entry else best) first).1

/-- Compares a lower with an upper bound; with `room` there has to be room for any integer between them. -/
def compareBounds (x : Nat) (room : Bool) (lower upper : Linear) : Linear :=
  let a := lower.coeff x
  let b := -upper.coeff x
  let e := ((lower.without x).scale b).add ((upper.without x).scale a)
  if room then e.shift (-((a - 1) * (b - 1))) else e

def Bounds.compared (x : Nat) (room : Bool) (b : Bounds) : List Linear :=
  b.lower.flatMap fun lower => b.upper.map fun upper => compareBounds x room lower upper

/-- The least integer that `a * x + r ≥ 0` allows, where `a` is positive. -/
def least (x : Nat) (solution : Assignment) (lower : Linear) : Int :=
  -(((lower.without x).eval solution).fdiv (lower.coeff x))

/-- The greatest integer that `-b * x + r ≥ 0` allows, where `b` is positive. -/
def greatest (x : Nat) (solution : Assignment) (upper : Linear) : Int :=
  ((upper.without x).eval solution).fdiv (-upper.coeff x)

/-- A value between the bounds: the greatest lower bound, or else the smallest upper bound. -/
def Bounds.choose (x : Nat) (b : Bounds) (solution : Assignment) : Assignment :=
  let value :=
    match b.lower.map (least x solution), b.upper.map (greatest x solution) with
    | low :: lows, _ => lows.foldl max low
    | [], high :: highs => highs.foldl min high
    | [], [] => 0
  (x, value) :: solution

/-- The equations that put a variable close to one of its lower bounds. -/
def Bounds.splinters (x : Nat) (b : Bounds) : List Linear :=
  let widest := b.upper.foldl (fun widest upper => max widest (-upper.coeff x)) 0
  b.lower.flatMap fun lower =>
    let a := lower.coeff x
    let last := (widest * a - widest - a).fdiv widest
    (List.range (last + 1).toNat).map fun i => lower.shift (-(i : Int))

/-- A solution of a system. Every elimination uses one unit of fuel. -/
def solve : Nat → System → Verdict Assignment
  | 0, _ => .unknown
  | fuel + 1, s =>
    match s.normal with
    | none => .unsat
    | some s =>
      match pickZero s.zero with
      | some (e, zero) =>
        let (x, c) := smallest e
        let f := solved x c e
        let (f, kept) := if c.natAbs = 1 then (f, []) else (f.add (.ofVar x), [e])
        (solve fuel (replace x f ⟨kept ++ zero, s.nonneg⟩)).map fun solution =>
          (x, f.eval solution) :: solution
      | none =>
        match pickVariable s.nonneg with
        | none => .sat []
        | some x =>
          let b := bounds x s.nonneg
          let eliminate (room : Bool) : Verdict Assignment :=
            (solve fuel ⟨[], b.compared x room ++ b.rest⟩).map (b.choose x)
          if b.lower.isEmpty || b.upper.isEmpty || b.exact x then eliminate false
          else (eliminate true).orElse fun _ =>
            .firstOf ((b.splinters x).map fun e _ => solve fuel { s with zero := e :: s.zero })

end System

end WhileExec.Arithmetic
