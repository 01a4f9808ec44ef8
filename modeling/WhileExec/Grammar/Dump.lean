import WhileExec.Grammar.Tree
import WhileExec.Text.Escaped
import WhileExec.Text.Lines

/-!
# Parse trees as text

Two ways to write down a parse tree, each record with the rule it was read by, its place in the text and its
lines: on one line, and as an indented data file.
-/

namespace WhileExec.Grammar

/-- Where a record was read. -/
structure Origin where
  rule : String
  start : Nat
  stop : Nat
  line : Nat
  endline : Nat

def originOf (text : List Char) (rule : Rule) (start stop : Nat) : Origin :=
  ⟨rule.text, start, stop, Text.lineOf text start, Text.lineOf text stop⟩

/-- An origin on one line; `last` is the place where the whole reading stopped. -/
def Origin.inlineText (last : Nat) (o : Origin) : String :=
  "ParseInfo(buffer=WhileLangBuffer@" ++ toString last ++ ", rule=" ++ Text.quoted o.rule ++ ", pos=" ++
    toString o.start ++ ", endpos=" ++ toString o.stop ++ ", line=" ++ toString o.line ++ ", endline=" ++
    toString o.endline ++ ")"

/-- Entries between brackets on lines of their own, one step further in. -/
def indentedEntries (indent : Nat) (opening closing : String) (entries : List String) : String :=
  match entries with
  | [] => opening ++ closing
  | entries =>
    let margin := "\n" ++ String.ofList (List.replicate (indent + 2) ' ')
    opening ++ margin ++ ("," ++ margin).intercalate entries ++ "\n" ++
      String.ofList (List.replicate indent ' ') ++ closing

def Origin.dataText (indent : Nat) (o : Origin) : String :=
  indentedEntries indent "[" "]"
    ["null", Text.escaped o.rule, toString o.start, toString o.stop, toString o.line, toString o.endline]

namespace Tree

mutual

/-- The tree on one line. -/
def inlineText (text : List Char) (last : Nat) : Tree → String
  | .absent => "None"
  | .text s => Text.quoted s
  | .list items => "[" ++ ", ".intercalate (inlineAll text last items) ++ "]"
  | .record fields rule start stop =>
    "AST(\x7b" ++ ", ".intercalate (inlineFields text last fields ++
      ["'parseinfo': " ++ (originOf text rule start stop).inlineText last]) ++ "\x7d)"

def inlineAll (text : List Char) (last : Nat) : List Tree → List String
  | [] => []
  | t :: ts => t.inlineText text last :: inlineAll text last ts

def inlineFields (text : List Char) (last : Nat) : List (String × Tree) → List String
  | [] => []
  | (name, t) :: rest => (Text.quoted name ++ ": " ++ t.inlineText text last) :: inlineFields text last rest

end

mutual

/-- The tree as a data file, indented by `indent`. -/
def dataText (text : List Char) (indent : Nat) : Tree → String
  | .absent => "null"
  | .text s => Text.escaped s
  | .list items => indentedEntries indent "[" "]" (dataAll text (indent + 2) items)
  | .record fields rule start stop =>
    indentedEntries indent "\x7b" "\x7d" (dataFields text (indent + 2) fields ++
      ["\"parseinfo\": " ++ (originOf text rule start stop).dataText (indent + 2)])

def dataAll (text : List Char) (indent : Nat) : List Tree → List String
  | [] => []
  | t :: ts => t.dataText text indent :: dataAll text indent ts

def dataFields (text : List Char) (indent : Nat) : List (String × Tree) → List String
  | [] => []
  | (name, t) :: rest => (Text.escaped name ++ ": " ++ t.dataText text indent) :: dataFields text indent rest

end

/-- Both texts of a tree. A tree that is a single text is shown without quotes. -/
def dump (text : String) (last : Nat) (t : Tree) : String :=
  let cs := text.toList
  let line := match t with
    | .text s => s
    | t => t.inlineText cs last
  "AST:\n" ++ line ++ "\n\nJSON:\n" ++ t.dataText cs 0 ++ "\n\n"

end Tree

end WhileExec.Grammar
