import WhileExec.Text.Quoted

/-!
# Text in data files

Strings between double quotes in ASCII only. Characters beyond the basic plane are written as two escapes.
-/

namespace WhileExec.Text

/-- An escape with four hexadecimal digits. -/
def escapeUnit (n : Nat) : List Char :=
  '\\' :: 'u' :: hexDigits 4 n

def escapeChar (c : Char) : List Char :=
  let n := c.toNat
  if c == '"' || c == '\\' then ['\\', c]
  else if c == '\n' then ['\\', 'n']
  else if c == '\r' then ['\\', 'r']
  else if c == '\t' then ['\\', 't']
  else if n == 8 then ['\\', 'b']
  else if n == 12 then ['\\', 'f']
  else if 32 ≤ n && n < 127 then [c]
  else if n < 0x10000 then escapeUnit n
  else escapeUnit (0xD800 + (n - 0x10000) / 0x400) ++ escapeUnit (0xDC00 + (n - 0x10000) % 0x400)

def escaped (s : String) : String :=
  String.ofList ('"' :: s.toList.flatMap escapeChar ++ ['"'])

end WhileExec.Text
