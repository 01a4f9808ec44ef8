import WhileExec.Grammar.Rules

/-!
# Parse trees

A parse tree keeps what was read as it stands: texts, lists, and records with the rule and the places where it
starts and stops. A rule that has no fields leaves no trace of its own.
-/

namespace WhileExec.Grammar

inductive Tree where
  | absent
  | text (s : String)
  | list (items : List Tree)
  | record (fields : List (String × Tree)) (rule : Rule) (start stop : Nat)
  deriving Repr, Inhabited

namespace Tree

/-- The value of a field: bare if it was set once, a list if it was set again. -/
def ofValues : List Tree → Tree
  | [] => absent
  | [t] => t
  | ts => list ts

/-- The fields of a record: those set, in the order in which they were set first, then the declared ones that
were not set. -/
def entries (declared : List String) (parts : Parts Tree) : List (String × Tree) :=
  let names := (parts.fields.map (·.1)).eraseDups
  (names ++ declared.filter (!names.contains ·)).map fun name => (name, ofValues (parts.values name))

def builder : Builder Tree where
  text := text
  list := list
  close r start stop parts := .ok <|
    match parts.kept with
    | some t => t
    | none =>
      if parts.fields.isEmpty && r.fields.isEmpty then parts.last.getD absent
      else record (entries r.fields parts) r start stop

/-- Reads a text as a parse tree. -/
def read (guarded : Bool) (rule text : String) : Except Fault (Tree × Nat) :=
  readTextFrom builder guarded rule text

end Tree

end WhileExec.Grammar
