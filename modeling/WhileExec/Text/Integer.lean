import WhileExec.Text.Blank
import WhileExec.Text.Digit

/-!
# Integers in text

A written integer is an optional sign and decimal digits of any script, with single underscores allowed
between digits and blanks around the whole. No other base is read.
-/

namespace WhileExec.Text

/-- Reads digits from the left into `value`; an underscore has to stand between two digits. -/
def readDigits (value : Nat) : List Char → Option Nat
  | [] => some value
  | '_' :: c :: rest => do readDigits (10 * value + (← digitValue? c)) rest
  | c :: rest => do readDigits (10 * value + (← digitValue? c)) rest

/-- A number without sign: at least one digit, and a digit first. -/
def readNatural? : List Char → Option Nat
  | [] => none
  | c :: rest => do readDigits (← digitValue? c) rest

def trimBlanks (cs : List Char) : List Char :=
  ((cs.dropWhile isBlank).reverse.dropWhile isBlank).reverse

/-- The integer that a text writes, if it writes one. -/
def readInteger? (s : String) : Option Int :=
  match trimBlanks s.toList with
  | '-' :: rest => (readNatural? rest).map fun n => -(n : Int)
  | '+' :: rest => (readNatural? rest).map Int.ofNat
  | rest => (readNatural? rest).map Int.ofNat

end WhileExec.Text
