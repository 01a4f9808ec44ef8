import WhileExec.Env
import WhileExec.Handler
import WhileExec.Print

/-!
# Running programs

A program runs on a store of values and prints text. A run that fails keeps what it has stored and printed up to
then. Every execution of a loop does at most a given number of iterations; a run for which no number suffices
does not end.

Operands are all evaluated, from left to right, before the operator is looked at. Conjunction and disjunction
give one of their operands, not merely a truth value.
-/

namespace WhileExec

abbrev Store := Env Value

structure Machine where
  store : Store := {}
  out : String := ""

/-- A computation that changes a machine and can fail. -/
abbrev Run := EStateM Fault Machine

namespace Value

def both (v w : Value) : Value :=
  if v.isTrue then w else v

def either (v w : Value) : Value :=
  if v.isTrue then v else w

def divide (v w : Value) : Except Fault Value :=
  if w.toInt = 0 then .error .divisionByZero else .ok (.int (v.toInt.fdiv w.toInt))

/-- Combines operands from the left with one operation. -/
def fold (op : Value → Value → Except Fault Value) : List Value → Except Fault Value
  | [] => .error .noOperands
  | v :: vs => vs.foldlM op v

/-- A connective applied to values. -/
def connective (op : String) (args : List Value) : Except Fault Value :=
  match op with
  | "not" =>
    match args with
    | [v] => .ok (.bool !v.isTrue)
    | _ => .error .unsupported
  | "and" => .ok (args.foldl both (.bool true))
  | "or" => .ok (args.foldl either (.bool false))
  | _ => .error .unsupported

def arithmetic (op : String) (args : List Value) : Except Fault Value :=
  match op with
  | "+" => fold (fun v w => .ok (.int (v.toInt + w.toInt))) args
  | "-" => fold (fun v w => .ok (.int (v.toInt - w.toInt))) args
  | "*" => fold (fun v w => .ok (.int (v.toInt * w.toInt))) args
  | "/" => fold divide args
  | _ => .error .unsupported

def comparison (op : String) (v w : Value) : Except Fault Value :=
  match op with
  | "<=" => .ok (.bool (v.toInt ≤ w.toInt))
  | "<" => .ok (.bool (v.toInt < w.toInt))
  | "=" => .ok (.bool (v.toInt == w.toInt))
  | ">=" => .ok (.bool (v.toInt ≥ w.toInt))
  | ">" => .ok (.bool (v.toInt > w.toInt))
  | _ => .error .unsupported

end Value

/-- An application of values. An operand of a comparison that is missing is noticed only when those before it
have been evaluated. -/
def Form.apply (form : Form) (op : String) (args : List Value) : Except Fault Value :=
  match form with
  | .plain => .error (.noHandler .interpreter NodeClass.exp.text)
  | .logic => Value.connective op args
  | .arith => Value.arithmetic op args
  | .compare =>
    match args with
    | v :: w :: _ => Value.comparison op v w
    | _ => .error .missingOperand

mutual

/-- The value of an expression in a store. -/
def Expr.eval (store : Store) : Expr → Except Fault Value
  | .int n => .ok (.int n)
  | .truth v => .ok v
  | .var name =>
    match store[name]? with
    | some v => .ok v
    | none => .error (.unbound name)
  | .app .plain op _ => Form.plain.apply op []
  | .app form op args => do form.apply op (← Expr.evalAll store args)

def Expr.evalAll (store : Store) : List Expr → Except Fault (List Value)
  | [] => .ok []
  | e :: es => do
    let v ← e.eval store
    return v :: (← Expr.evalAll store es)

end

namespace Run

def value (e : Expr) : Run Value := do
  match e.eval (← get).store with
  | .ok v => pure v
  | .error fault => throw fault

def set (name : String) (v : Value) : Run Unit :=
  modify fun m => { m with store := m.store.insert name v }

def print (text : String) : Run Unit :=
  modify fun m => { m with out := m.out ++ text }

/-- At most `limit` iterations of a loop. -/
def iterate (test : Run Bool) (body : Run Unit) : Nat → Run Unit
  | 0 => do if ← test then throw .unending
  | limit + 1 => do
    if ← test then
      body
      iterate test body limit

/-- A condition of the program that has to hold. -/
def demand (statement : Stmt) (cond : Expr) : Run Unit := do
  let v ← value cond
  unless v.isTrue do
    match (statement.write 0).toExcept with
    | .ok text => throw (.violated text)
    | .error fault => throw fault

end Run

def Store.text (store : Store) : String :=
  store.listing Value.text

mutual

/-- Runs a statement, with at most `limit` iterations in every execution of a loop. -/
def Stmt.exec (limit : Nat) : Stmt → Run Unit
  | .skip => pure ()
  | .printState => do Run.print ((← get).store.text ++ "\n")
  | .assign name rhs => do Run.set name (← Run.value rhs)
  | .ifElse cond yes no => do
    if (← Run.value cond).isTrue then yes.exec limit else no.exec limit
  | .ifOnly cond yes => do
    if (← Run.value cond).isTrue then yes.exec limit
  | .loop cond body _ => Run.iterate (Value.isTrue <$> Run.value cond) (body.exec limit) limit
  | .assert cond => Run.demand (.assert cond) cond
  | .assume cond => Run.demand (.assume cond) cond
  | .havoc names => names.forM fun name => Run.set name (.int 0)
  | .block items => Stmt.execAll limit items
  | .hollow => throw .noItems

def Stmt.execAll (limit : Nat) : List Stmt → Run Unit
  | [] => pure ()
  | s :: ss => do
    s.exec limit
    Stmt.execAll limit ss

end

end WhileExec
