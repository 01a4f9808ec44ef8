import Std.Data.TreeMap
import Std.Data.TreeSet

/-!
# Bindings of names

Finite maps and sets of names, always gone through in the order of the names.
-/

namespace WhileExec

abbrev Env (α : Type) := Std.TreeMap String α

abbrev Names := Std.TreeSet String

/-- One line for each binding. -/
def Env.listing {α : Type} (text : α → String) (env : Env α) : String :=
  env.foldl (fun lines name value => lines ++ name ++ ": " ++ text value ++ "\n") ""

end WhileExec
