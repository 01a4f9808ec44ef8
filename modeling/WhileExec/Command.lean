import WhileExec.CommandLine
import WhileExec.Definedness
import WhileExec.Grammar.Dump
import WhileExec.Grammar.Reading
import WhileExec.Interpreter
import WhileExec.Sharing
import WhileExec.Statistics
import WhileExec.Symbolic.Decision
import WhileExec.Symbolic.Eager
import WhileExec.Symbolic.Lazy

/-!
# Commands

What each command prints and with which status it ends, as functions of its arguments and of the files it reads.
A command that fails has printed what it printed before.
-/

namespace WhileExec

/-- What a command prints, and its status if it ended normally. A command may have none. -/
structure Report where
  out : String := ""
  result : Except Fault (Option Nat) := .ok none

/-- The contents of files, by name. -/
abbrev Files := String → Option String

inductive Command where
  | interpret
  | exploreEagerly
  | exploreLazily
  | statistics
  | definedness
  | reprint
  | sharing
  | counters
  | dumpTree
  deriving DecidableEq, Repr, Inhabited

namespace Command

/-- The word that stands for a command in front of its arguments. -/
def name : Command → String
  | .interpret => "interpret"
  | .exploreEagerly => "explore"
  | .exploreLazily => "explore-lazily"
  | .statistics => "statistics"
  | .definedness => "definedness"
  | .reprint => "reprint"
  | .sharing => "sharing"
  | .counters => "counters"
  | .dumpTree => "tree"

def all : List Command :=
  [.interpret, .exploreEagerly, .exploreLazily, .statistics, .definedness, .reprint, .sharing, .counters, .dumpTree]

def ofName? (word : String) : Option Command :=
  all.find? (·.name == word)

/-- Reads a file, with its line ends made alike. -/
def readFile (files : Files) (name : String) : Except Fault String :=
  match files name with
  | some text => .ok (String.ofList (Text.unifyLineEnds text.toList))
  | none => .error (.noFile name)

def readStmt (text : String) : Except Fault Stmt := do
  match ← Grammar.parse text with
  | .stmt s => .ok s
  | _ => .error .unsupported

def readProgram (files : Files) (name : String) : Except Fault Stmt := do
  readStmt (← readFile files name)

def boundFlag : Flag :=
  { names := ["--bound"], hasValue := true }

def unguardedFlag : Flag :=
  { names := ["-n", "--no-nameguard"] }

def interpretHelp (name : String) : String :=
  "usage: " ++ name ++ " [-h] FILE\n\nWLang Interpreter\n\npositional arguments:\n" ++
    "  FILE        WLang program to interpret\n\noptions:\n" ++
    "  -h, --help  show this help message and exit\n"

def boundHelp : String :=
  "usage: sym [-h] [--bound BOUND] FILE\n\nWLang Interpreter\n\npositional arguments:\n" ++
    "  FILE           WLang program to interpret\n\noptions:\n" ++
    "  -h, --help     show this help message and exit\n  --bound BOUND  Global loop bound\n"

/-- The text shown when help is asked for. -/
def help : Command → String
  | .interpret => interpretHelp "int"
  | .exploreEagerly => interpretHelp "sym"
  | .exploreLazily => boundHelp
  | _ => ""

/-- A command line with one argument and no unknown options. -/
def oneArgument (flags : List Flag) (args : List String) : Except Fault (CommandLine × String) := do
  let line ← CommandLine.read (Flag.help :: flags) false args
  match line.unknown, line.arguments with
  | false, [name] => return (line, name)
  | _, _ => CommandLine.badUsage

/-- The first argument; the others do not count. -/
def firstArgument : List String → Except Fault String
  | [] => .error .missingOperand
  | name :: _ => .ok name

/-- More iterations than any loop gets the time for. -/
def iterationLimit : Nat := 1000000

def interpretReport (s : Stmt) : Report :=
  match (s.exec iterationLimit).run {} with
  | .ok _ m => ⟨m.out, .ok (some 0)⟩
  | .error fault m => ⟨m.out, .error fault⟩

open Symbolic (Explore Search Handle)

/-- The pool with which an exploration starts: one state of which nothing is known. -/
def freshPool : Symbolic.Pool :=
  { states := #[{}] }

def printReached (h : Handle) : Explore Unit := do
  Explore.print "[symexec]: symbolic state reached\n"
  Explore.printState h

def countLine (n : Nat) : String :=
  "[symexec]: found " ++ toString n ++ " symbolic states\n"

def eagerReport (s : Stmt) : Report :=
  let action : Explore Unit := do
    let reached ← Symbolic.eager Symbolic.solver s 0
    reached.forM printReached
    Explore.print (countLine reached.length)
  match action freshPool with
  | .ok _ pool => ⟨pool.out, .ok (some 0)⟩
  | .error fault pool => ⟨pool.out, .error fault⟩

/-- Every state is shown when it is reached, before the search goes on. -/
def lazyReport (bound : Int) (s : Stmt) : Report :=
  let search : Search Unit := do
    let h ← Symbolic.explore Symbolic.solver bound.toNat s 0
    printReached h
  let drawn := search.draw none freshPool
  match drawn.fault with
  | none => ⟨drawn.pool.out ++ countLine drawn.values.length, .ok (some 0)⟩
  | some fault => ⟨drawn.pool.out, .error fault⟩

def statisticsReport (s : Stmt) : Report :=
  let stats := s.addTo {}
  { out := "stmts: " ++ toString stats.stmts ++ " vars: " ++ toString stats.vars.size ++ "\n" }

def definednessReport (s : Stmt) : Report :=
  let fact := s.fact {}
  { out := "defs at end " ++ Names.text fact.defs ++ " undefs at end: " ++ Names.text fact.undefs ++ "\n" }

def truthText (b : Bool) : String :=
  (Value.bool b).text

/-- Prints a program, reads the text again and compares the two. -/
def reprintReport (s : Stmt) : Report :=
  let first := s.write 0
  let again : Except Fault Report := do
    let text ← first.toExcept
    let t ← readStmt text
    return { out := text ++ "\n" ++ (t.write 0).text ++ "\na == b " ++ truthText (s.alike t) ++ " a is b False\n" }
  match again with
  | .ok report => report
  | .error fault => ⟨first.text ++ "\n", .error fault⟩

/-- Two sums of the same variable and number, before and after they are shared. -/
def sharingDemo : Report :=
  let x := Cell.var 0 "x"
  let n := Cell.int 1 5
  let a := Cell.app 2 .arith "+" [x, n]
  let b := Cell.app 3 .arith "+" [x, n]
  let line (a b : Cell) : String :=
    "e1 is e2: " ++ truthText (a.id == b.id) ++ " e1 == e2 " ++ truthText (a.expr.alike b.expr) ++ "\n"
  let alone (item : Item) : String := truthText ((item.share.run []).1.id == item.id) ++ "\n"
  match Item.shareAll [.cell a, .cell b] with
  | [.cell c, .cell d] => { out := line a b ++ line c d ++ alone (.cell a) ++ alone (.stmt 4 .skip) }
  | _ => { out := line a b }

/-- The program on which the counters are shown. -/
def counted : String :=
  "x := 10; if y > 10 then x := x + 1 else x := x - 1 ; print_state"

def countersReport (s : Stmt) : Report :=
  { out := "Input program is\n" ++ (s.write 0).text ++ "\nNumber of statements by sc1 is: " ++
      toString s.count ++ "\nNumber of statements by sc2 is: " ++ toString (s.tally 0) ++ "\n" }

def treeReport (guarded : Bool) (rule text : String) : Report :=
  match Grammar.Tree.read guarded rule text with
  | .ok (tree, last) => { out := tree.dump text last }
  | .error fault => { result := .error fault }

def run (files : Files) (args : List String) : Command → Except Fault Report
  | .interpret => do
    let (_, name) ← oneArgument [] args
    return interpretReport (← readProgram files name)
  | .exploreEagerly => do
    let (_, name) ← oneArgument [] args
    return eagerReport (← readProgram files name)
  | .exploreLazily => do
    let (line, name) ← oneArgument [boundFlag] args
    return lazyReport ((line.value? boundFlag).getD 10) (← readProgram files name)
  | .statistics => do return statisticsReport (← readProgram files (← firstArgument args))
  | .definedness => do return definednessReport (← readProgram files (← firstArgument args))
  | .reprint => do return reprintReport (← readProgram files (← firstArgument args))
  | .sharing => return sharingDemo
  | .counters => do return countersReport (← readStmt counted)
  | .dumpTree => do
    let line ← CommandLine.read [Flag.help, unguardedFlag] false args
    let guarded := !line.switches.contains unguardedFlag
    match line.unknown, line.arguments with
    | false, [name] => return treeReport guarded "start" (← readFile files name)
    | false, [name, rule] => return treeReport guarded rule (← readFile files name)
    | _, _ => CommandLine.badUsage

/-- Carries out a command. -/
def report (files : Files) (args : List String) (c : Command) : Report :=
  match c.run files args with
  | .ok report => report
  | .error (.usage 0) => ⟨c.help, .error (.usage 0)⟩
  | .error fault => { result := .error fault }

end Command

end WhileExec
