import WhileExec.Fault
import WhileExec.Text.Integer

/-!
# Command lines

Options and arguments in any order. A long option may be shortened as long as it stays unambiguous, and its value
stands behind an equals sign or is the next argument. Behind a double dash everything is an argument. What looks
like a negative number is an argument too.
-/

namespace WhileExec

/-- An option; if it has a value that is an integer. -/
structure Flag where
  names : List String
  hasValue : Bool := false
  deriving DecidableEq, Repr, Inhabited

/-- The option by which help is asked for. -/
def Flag.help : Flag :=
  { names := ["-h", "--help"] }

structure CommandLine where
  switches : List Flag := []
  values : List (Flag × Int) := []
  arguments : List String := []
  unknown : Bool := false
  deriving Repr, Inhabited

namespace CommandLine

/-- What one part of a command line is. -/
inductive Mark where
  | argument
  | flag (f : Flag) (value : Option String)
  | unknown
  | ambiguous

def isNegativeNumber (cs : List Char) : Bool :=
  match cs with
  | '-' :: rest =>
    match rest.dropWhile Text.isDecimalDigit with
    | [] => !rest.isEmpty
    | '.' :: fraction => !fraction.isEmpty && fraction.all Text.isDecimalDigit
    | _ => false
  | _ => false

/-- The text up to the first equals sign, and the text behind it. -/
def splitValue (cs : List Char) : List Char × Option String :=
  match cs.dropWhile (· != '=') with
  | [] => (cs, none)
  | _ :: value => (cs.takeWhile (· != '='), some (String.ofList value))

/-- The options that begin with a text, by name. -/
def beginning (flags : List Flag) (text : List Char) : List (Flag × List Char) :=
  (flags.flatMap fun f => f.names.map fun name => (f, name.toList)).filter fun entry =>
    text.isPrefixOf entry.2

def exactly (flags : List Flag) (text : List Char) : Option Flag :=
  flags.find? (·.names.contains (String.ofList text))

/-- The option that a part names by its beginning: a long option by any beginning, a short one together with what
is attached to it. -/
def abbreviated (flags : List Flag) (cs : List Char) : List (Flag × Option String) :=
  match cs with
  | '-' :: '-' :: _ =>
    let (name, value) := splitValue cs
    (beginning flags name).map fun entry => (entry.1, value)
  | dash :: letter :: attached =>
    ((exactly flags [dash, letter]).map fun f => (f, some (String.ofList attached))).toList ++
      (beginning flags cs).map fun entry => (entry.1, none)
  | _ => []

def mark (flags : List Flag) (part : String) : Mark :=
  let cs := part.toList
  match cs with
  | '-' :: _ :: _ =>
    match exactly flags cs, splitValue cs with
    | some f, _ => .flag f none
    | none, (name, value) =>
      match value, exactly flags name with
      | some value, some f => .flag f (some value)
      | _, _ =>
        match abbreviated flags cs with
        | [(f, value)] => .flag f value
        | _ :: _ :: _ => .ambiguous
        | [] => if isNegativeNumber cs || cs.contains ' ' then .argument else .unknown
  | _ => .argument

def isArgument (flags : List Flag) (part : String) : Bool :=
  match mark flags part with
  | .argument => true
  | _ => false

def badUsage {α : Type} : Except Fault α :=
  .error (.usage 2)

/-- Reads a command line. Asking for help ends it at once. -/
def read (flags : List Flag) (onlyArguments : Bool) : List String → Except Fault CommandLine
  | [] => .ok {}
  | part :: rest =>
    if onlyArguments then do
      let line ← read flags true rest
      return { line with arguments := part :: line.arguments }
    else if part == "--" then read flags true rest
    else
      match mark flags part with
      | .argument => do
        let line ← read flags false rest
        return { line with arguments := part :: line.arguments }
      | .unknown => do
        let line ← read flags false rest
        return { line with unknown := true }
      | .ambiguous => badUsage
      | .flag f (some value) =>
        match f.hasValue, Text.readInteger? value with
        | true, some n => do
          let line ← read flags false rest
          return { line with values := (f, n) :: line.values }
        | _, _ => badUsage
      | .flag f none =>
        if f == Flag.help then .error (.usage 0)
        else if !f.hasValue then do
          let line ← read flags false rest
          return { line with switches := f :: line.switches }
        else
          match rest with
          | [] => badUsage
          | value :: rest =>
            match isArgument flags value, Text.readInteger? value with
            | true, some n => do
              let line ← read flags false rest
              return { line with values := (f, n) :: line.values }
            | _, _ => badUsage

/-- The last value given for an option. -/
def value? (line : CommandLine) (f : Flag) : Option Int :=
  (line.values.reverse.lookup f)

end CommandLine

end WhileExec
