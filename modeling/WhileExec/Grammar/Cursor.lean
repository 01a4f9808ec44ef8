import WhileExec.Text.Alphanumeric
import WhileExec.Text.Blank
import WhileExec.Text.Digit

/-!
# Places in a text

A cursor is a place in a text: how many characters stand before it and which ones follow. Layout, that is
blanks and comments, is skipped; tokens and patterns are taken off the front.
-/

namespace WhileExec.Grammar

structure Cursor where
  pos : Nat
  rest : List Char
  deriving DecidableEq, Repr, Inhabited

/-- Skips blanks and comments. A comment runs from a number sign to the end of its line, and the character
that ends the line is a blank. -/
def skipLayout (comment : Bool) (pos : Nat) : List Char → Cursor
  | [] => ⟨pos, []⟩
  | c :: rest =>
    if comment then skipLayout (!(c == '\n' || c == '\r')) (pos + 1) rest
    else if Text.isBlank c then skipLayout false (pos + 1) rest
    else if c == '#' then skipLayout true (pos + 1) rest
    else ⟨pos, c :: rest⟩

/-- The text behind a given beginning, if the text begins so. -/
def dropText? : List Char → List Char → Option (List Char)
  | [], rest => some rest
  | _ :: _, [] => none
  | c :: text, d :: rest => if c == d then dropText? text rest else none

/-- The token runs on into the next character: both would be read as one word. -/
def runsOn (token rest : List Char) : Bool :=
  token.all Text.isAlphanumeric && (rest.head?.map Text.isAlphanumeric).getD false

/-- The classes of text that are read character by character. -/
inductive Pattern where
  | integer
  | word
  | lineBreaks
  deriving DecidableEq, Repr, Inhabited

/-- The regular expression that describes the class. -/
def Pattern.source : Pattern → String
  | .integer => "0[xX][0-9a-fA-F]+|[0-9]+"
  | .word => "(?!\\d)\\w+"
  | .lineBreaks => "[\\u000C\\r\\n]+"

def isHexDigit (c : Char) : Bool :=
  c.isDigit || ('a' ≤ c && c ≤ 'f') || ('A' ≤ c && c ≤ 'F')

def isLineBreak (c : Char) : Bool :=
  c == '\n' || c == '\r' || c == '\x0c'

/-- The longest beginning of a text that belongs to the class; none if that is empty. -/
def Pattern.take (rest : List Char) : Pattern → List Char
  | .integer =>
    match rest with
    | '0' :: x :: digit :: more =>
      if (x == 'x' || x == 'X') && isHexDigit digit then '0' :: x :: digit :: more.takeWhile isHexDigit
      else rest.takeWhile Char.isDigit
    | _ => rest.takeWhile Char.isDigit
  | .word =>
    match rest with
    | [] => []
    | c :: _ => if Text.isDecimalDigit c then [] else rest.takeWhile Text.isWordChar
  | .lineBreaks => rest.takeWhile isLineBreak

namespace Cursor

def ofText (text : String) : Cursor :=
  ⟨0, text.toList⟩

def skip (c : Cursor) : Cursor :=
  skipLayout false c.pos c.rest

/-- The place behind a token. With `guarded` a token of letters and digits must not run on. -/
def token? (guarded : Bool) (text : List Char) (c : Cursor) : Option Cursor :=
  match dropText? text c.rest with
  | none => none
  | some rest => if guarded && runsOn text rest then none else some ⟨c.pos + text.length, rest⟩

/-- A text of the class, and the place behind it. -/
def pattern? (p : Pattern) (c : Cursor) : Option (List Char × Cursor) :=
  match p.take c.rest with
  | [] => none
  | taken => some (taken, ⟨c.pos + taken.length, c.rest.drop taken.length⟩)

end Cursor

end WhileExec.Grammar
