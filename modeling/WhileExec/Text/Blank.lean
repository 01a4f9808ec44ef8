import WhileExec.Text.CharRanges

/-!
# Blank characters

Spaces, tabs, line and page breaks and the information separators, in any script.
-/

namespace WhileExec.Text

/-- All blank characters. -/
def blankRanges : List (Nat × Nat) :=
  [(9, 13), (28, 32), (133, 133), (160, 160), (5760, 5760), (8192, 8202), (8232, 8233), (8239, 8239),
  (8287, 8287), (12288, 12288)]

def isBlank (c : Char) : Bool :=
  inRanges blankRanges c

end WhileExec.Text
