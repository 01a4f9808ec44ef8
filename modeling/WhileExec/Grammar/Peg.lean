import Std.Data.TreeMap
import WhileExec.Fault
import WhileExec.Grammar.Cursor

/-!
# Parsing expressions

Ordered choice with cuts. A failure behind a cut ends the whole reading, nothing else is tried. Every rule
that fails puts its failure on record, and the failure reported in the end is the first one recorded at the
furthest place, also when it was recorded on a branch that was given up later.

What a rule gives at a place is one value: its result together with the furthest failure recorded on the way.
It depends on the rule and the place only, so outcomes are kept in a table and no rule is tried twice at one
place. Parsing expressions are evaluated in any monad that can call rules; the table lives in that monad.

The grammar does not say what a cut does; its runtime, grako, does. Two things are assumed of it here: a failure
behind a cut ends the whole reading, and in a list with separators each separator is a cut.
-/

namespace WhileExec.Grammar

/-- The rules of the grammar. -/
inductive Rule where
  | start | stmtList | stmt | asgnStmt | blockStmt | skipStmt | printStateStmt | ifStmt | whileStmt
  | assertStmt | assumeStmt | havocStmt | varList | bexp | bterm | bfactor | batom | boolConst | rexp | rop
  | aexp | addition | subtraction | term | mult | division | factor | negNumber | atom | name | number
  | integerText | nameText | newlineText
  deriving DecidableEq, Repr, Inhabited

inductive Peg where
  | token (text : String)
  | pattern (p : Pattern)
  | call (r : Rule)
  /-- From here on the enclosing option is the only one. -/
  | cut
  /-- The value read last goes into a field. -/
  | named (field : String) (e : Peg)
  /-- The value read last becomes that of the rule. -/
  | keep (e : Peg)
  | seq (a b : Peg)
  | orElse (a b : Peg)
  | fail (message : String)
  | optional (e : Peg)
  /-- Items with separators between them, at least one. Each separator is a cut. -/
  | gather (separator item : Peg)
  deriving Repr, Inhabited

namespace Peg

/-- One expression after the other. -/
def all : List Peg → Peg
  | [] => .fail "no elements"
  | [e] => e
  | e :: rest => .seq e (all rest)

/-- The first of several options that succeeds. -/
def firstOf (message : String) : List Peg → Peg
  | [] => .fail message
  | e :: rest => .orElse e (firstOf message rest)

end Peg

/-- What a part of a rule has read: the last value, the value kept for the rule, and the fields in the
order in which they were set. -/
structure Parts (V : Type) where
  last : Option V := none
  kept : Option V := none
  fields : List (String × V) := []
  deriving Inhabited

namespace Parts

variable {V : Type}

def append (a b : Parts V) : Parts V :=
  ⟨b.last.or a.last, b.kept.or a.kept, a.fields ++ b.fields⟩

/-- All values of a field, in order. -/
def values (p : Parts V) (field : String) : List V :=
  (p.fields.filter (·.1 == field)).map (·.2)

/-- The value of a field that is set once. -/
def value? (p : Parts V) (field : String) : Option V :=
  (p.values field).head?

/-- The value of a rule without fields. -/
def single? (p : Parts V) : Option V :=
  p.kept.or p.last

end Parts

/-- How a place in the text was left. -/
inductive Result (α : Type) where
  /-- Read up to `next`; `cut` says whether a cut was passed. -/
  | ok (value : α) (next : Cursor) (cut : Bool)
  | fail (failure : Failure) (cut : Bool)
  /-- A failure behind a cut: the reading is over. -/
  | abort (failure : Failure)
  /-- What was read makes no sense: the reading is over for another reason. -/
  | fault (cause : Fault)
  deriving Inhabited

/-- A result and the furthest failure recorded on the way to it. -/
structure Outcome (α : Type) where
  best : Option Failure
  result : Result α
  deriving Inhabited

/-- The failure that is further on; of two at one place the first. -/
def further : Option Failure → Option Failure → Option Failure
  | none, g => g
  | f, none => f
  | some f, some g => if f.pos < g.pos then some g else some f

namespace Outcome

variable {α β : Type}

/-- The outcome, if `earlier` was recorded before. -/
def after (earlier : Option Failure) (o : Outcome α) : Outcome α :=
  ⟨further earlier o.best, o.result⟩

def map (f : α → β) (o : Outcome α) : Outcome β :=
  ⟨o.best, match o.result with
    | .ok value next cut => .ok (f value) next cut
    | .fail failure cut => .fail failure cut
    | .abort failure => .abort failure
    | .fault cause => .fault cause⟩

/-- The outcome of a part in front of which a cut was `passed` or not. -/
def behindCut (passed : Bool) (o : Outcome α) : Outcome α :=
  match o.result with
  | .ok value next cut => ⟨o.best, .ok value next (passed || cut)⟩
  | .fail failure cut => ⟨o.best, .fail failure (passed || cut)⟩
  | _ => o

end Outcome

/-- How values are made of what is read. A rule is closed with the places where it starts and stops. -/
structure Builder (V : Type) where
  text : String → V
  list : List V → V
  close : Rule → Nat → Nat → Parts V → Except Fault V

section Evaluation

variable {m : Type → Type} [Monad m] {V : Type}

/-- The items of a list after the first. A separator that fails ends the list; an item that fails behind
its separator ends the reading. At most `fuel` separators are read. -/
def gatherRest (separator item : Cursor → m (Outcome (Parts V))) :
    Nat → Cursor → m (Outcome (List (Parts V × Parts V)))
  | 0, here => pure ⟨none, .ok [] here false⟩
  | fuel + 1, here => do
    let s ← separator here
    match s.result with
    | .ok mark next _ =>
      let i ← item next
      match i.result with
      | .ok value after _ =>
        let rest ← gatherRest separator item fuel after
        pure ((rest.map ((mark, value) :: ·)).after (further s.best i.best))
      | .fail failure _ => pure ⟨further s.best i.best, .abort failure⟩
      | .abort failure => pure ⟨further s.best i.best, .abort failure⟩
      | .fault cause => pure ⟨further s.best i.best, .fault cause⟩
    | .fail failure cut =>
      if cut then pure ⟨s.best, .abort failure⟩ else pure ⟨s.best, .ok [] here false⟩
    | .abort failure => pure ⟨s.best, .abort failure⟩
    | .fault cause => pure ⟨s.best, .fault cause⟩

/-- The parts of a whole list: its value, and the fields set by items and separators in their order. -/
def gathered (list : List V → V) (first : Parts V) (rest : List (Parts V × Parts V)) : Parts V where
  last := some (list (first.last.toList ++ rest.flatMap (·.2.last.toList)))
  fields := first.fields ++ rest.flatMap fun entry => entry.1.fields ++ entry.2.fields

/-- Evaluates a parsing expression at a place. -/
def Peg.eval (build : Builder V) (guarded : Bool) (call : Rule → Cursor → m (Outcome V)) :
    Peg → Cursor → m (Outcome (Parts V))
  | .token text, here =>
    let here := here.skip
    pure ⟨none, match here.token? guarded text.toList with
      | some next => .ok { last := some (build.text text) } next false
      | none => .fail ⟨.token text, here.pos⟩ false⟩
  | .pattern p, here =>
    pure ⟨none, match here.pattern? p with
      | some (taken, next) => .ok { last := some (build.text (String.ofList taken)) } next false
      | none => .fail ⟨.pattern p.source, here.pos⟩ false⟩
  | .call r, here => do
    let o ← call r here
    pure (o.map fun value => { last := some value })
  | .cut, here => pure ⟨none, .ok {} here true⟩
  | .named field e, here => do
    let o ← e.eval build guarded call here
    pure (o.map fun p => { p with fields := p.fields ++ p.last.toList.map (field, ·) })
  | .keep e, here => do
    let o ← e.eval build guarded call here
    pure (o.map fun p => { p with kept := p.last })
  | .seq a b, here => do
    let x ← a.eval build guarded call here
    match x.result with
    | .ok p next passed =>
      let y ← b.eval build guarded call next
      pure (((y.map p.append).behindCut passed).after x.best)
    | _ => pure x
  | .orElse a b, here => do
    let x ← a.eval build guarded call here
    match x.result with
    | .ok p next _ => pure ⟨x.best, .ok p next false⟩
    | .fail failure passed =>
      if passed then pure ⟨x.best, .abort failure⟩
      else do
        let y ← b.eval build guarded call here
        pure (y.after x.best)
    | _ => pure x
  | .fail message, here => pure ⟨none, .fail ⟨.options message, here.pos⟩ false⟩
  | .optional e, here => do
    let x ← e.eval build guarded call here
    match x.result with
    | .ok p next _ => pure ⟨x.best, .ok p next false⟩
    | .fail failure passed =>
      if passed then pure ⟨x.best, .abort failure⟩ else pure ⟨x.best, .ok {} here false⟩
    | _ => pure x
  | .gather separator item, here => do
    let x ← item.eval build guarded call here
    match x.result with
    | .ok first next passed =>
      let y ← gatherRest (separator.eval build guarded call) (item.eval build guarded call)
        next.rest.length next
      pure (((y.map (gathered build.list first)).behindCut passed).after x.best)
    | _ => pure x

end Evaluation

end WhileExec.Grammar
