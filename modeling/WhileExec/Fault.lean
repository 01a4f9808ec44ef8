import WhileExec.Text.Quoted

/-!
# What can go wrong

A failure is a place where reading stopped and what was expected there. A fault is the cause for which a
request was not completed; a failure to read is one of them. The wording of each stands here and nowhere
else.
-/

namespace WhileExec

/-- What a reader was looking for when it failed. -/
inductive Expected where
  | token (text : String)
  | pattern (source : String)
  | options (message : String)
  | rule (name : String)
  deriving DecidableEq, Repr, Inhabited

/-- A failure to read, with the number of characters before it. -/
structure Failure where
  expected : Expected
  pos : Nat
  deriving DecidableEq, Repr, Inhabited

def Expected.message : Expected → String
  | .token text => "expecting " ++ Text.quoted text
  | .pattern source => "expecting " ++ Text.quoted source
  | .options message => message
  | .rule name => "could not resolve reference to rule " ++ Text.quoted name

/-- The activities that visit a program node by node. -/
inductive Visitor where
  | interpreter
  | symbolic
  | counter
  | tally
  | custom
  deriving DecidableEq, Repr, Inhabited

def Visitor.name : Visitor → String
  | .interpreter => "Interpreter"
  | .symbolic => "SymExec"
  | .counter => "StmtCounterStateless"
  | .tally => "StmtCounterStatefull"
  | .custom => "V"

/-- Why a request was not completed. -/
inductive Fault where
  /-- Reading failed. -/
  | unreadable (failure : Failure)
  /-- A text that does not write an integer stands where one has to. -/
  | notInteger (text : String)
  /-- A variable was read that has no value. -/
  | unbound (name : String)
  | divisionByZero
  /-- An assertion or assumption of the program is false; its text is kept. -/
  | violated (statement : String)
  /-- An operator without a meaning here, or with the wrong number of operands. -/
  | unsupported
  /-- An arithmetic operation without operands. -/
  | noOperands
  /-- An operand, operator or argument that is not there was asked for. -/
  | missingOperand
  /-- The statements of a block to which none were given were to be gone through. -/
  | noItems
  /-- The statements of a block to which none were given were to be counted. -/
  | noItemCount
  /-- No handler exists for a class of nodes, nor for those it falls back on. -/
  | noHandler (visitor : Visitor) (wanted : String)
  /-- A store has no developer's text. -/
  | noDescription
  /-- A truth value stands where a term is wanted, or the other way round. -/
  | illSorted
  /-- A loop did not end within the given number of iterations. -/
  | unending
  /-- A file cannot be read. -/
  | noFile (name : String)
  /-- The command line was not understood; the program ends with this status. -/
  | usage (status : Nat)
  deriving DecidableEq, Repr, Inhabited

def Fault.message : Fault → String
  | .unreadable failure => failure.expected.message
  | .notInteger text => "invalid literal for int() with base 10: " ++ Text.quoted text
  | .unbound name => name
  | .divisionByZero => "integer division or modulo by zero"
  | .violated statement => "Assertion error: " ++ statement
  | .unsupported => ""
  | .noOperands => "reduce() of empty iterable with no initial value"
  | .missingOperand => "list index out of range"
  | .noItems => "'NoneType' object is not iterable"
  | .noItemCount => "object of type 'NoneType' has no len()"
  | .noHandler visitor wanted =>
    "'" ++ visitor.name ++ "' object has no attribute 'visit_" ++ wanted ++ "'"
  | .noDescription => "__repr__ returned non-string (type NoneType)"
  | .illSorted => "sort mismatch"
  | .unending => "iteration limit reached"
  | .noFile name => "[Errno 2] No such file or directory: " ++ Text.quoted name
  | .usage status => toString status

end WhileExec
