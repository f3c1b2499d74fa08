/-
  ImportSplit.CommandLine
  ────────────────────────────────
  **THE PROGRAM ON ITS ARGUMENTS.**
-/
import ImportSplit.CommandLine.Run

namespace ImportSplit

/-- Runs the program with these arguments on a file tree. -/
def runProgram (arguments : List String) (t : Files.FileTree) : CommandLine.Ending :=
  (CommandLine.Request.ofArguments arguments).run t

end ImportSplit
