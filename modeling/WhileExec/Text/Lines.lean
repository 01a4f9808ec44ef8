import WhileExec.Text.CharRanges

/-!
# Lines

Where a text breaks into lines. Files are read with carriage returns turned into line feeds, so the lines of a
file are counted without them.
-/

namespace WhileExec.Text

/-- The characters at which a line ends. -/
def lineEndRanges : List (Nat × Nat) :=
  [(10, 13), (28, 30), (133, 133), (8232, 8233)]

def isLineEnd (c : Char) : Bool :=
  inRanges lineEndRanges c

/-- Carriage returns, alone or before a line feed, become line feeds. -/
def unifyLineEnds : List Char → List Char
  | [] => []
  | '\r' :: '\n' :: rest => '\n' :: unifyLineEnds rest
  | '\r' :: rest => '\n' :: unifyLineEnds rest
  | c :: rest => c :: unifyLineEnds rest

/-- The number of the line, from zero, in which a place lies. The place behind the last character is on a line
after all others, and if the text ends in a line feed it is one further on. -/
def lineOf (text : List Char) (pos : Nat) : Nat :=
  if pos < text.length then (text.take pos).countP isLineEnd
  else
    match text.getLast? with
    | none => 0
    | some c => text.countP isLineEnd + if c == '\n' || !isLineEnd c then 1 else 0

end WhileExec.Text
