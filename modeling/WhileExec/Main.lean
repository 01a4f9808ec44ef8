import WhileExec.Command

/-!
# The program

The first argument names a command, the others are its own. Every argument that names a readable file stands for
that file's contents.
-/

namespace WhileExec

/-- The files among the arguments. -/
def readFiles : List String → IO (List (String × String))
  | [] => return []
  | name :: names => do
    let files ← readFiles names
    try
      return (name, ← IO.FS.readFile name) :: files
    catch _ =>
      return files

/-- Prints a report and gives the status with which the program ends. -/
def Report.print (report : Report) : IO UInt32 := do
  IO.print report.out
  match report.result with
  | .ok status => return (status.getD 0).toUInt32
  | .error (.usage status) => return status.toUInt32
  | .error fault => do
    IO.eprintln fault.message
    return 1

def usageReport : IO UInt32 := do
  IO.eprintln ("usage: COMMAND [ARGUMENT ...]\ncommands: " ++ ", ".intercalate (Command.all.map Command.name))
  return 2

end WhileExec

open WhileExec in
def main : List String → IO UInt32
  | [] => usageReport
  | word :: args =>
    match Command.ofName? word with
    | none => usageReport
    | some command => do
      let files ← readFiles args
      (command.report (fun name => files.lookup name) args).print
