/-
  ImportSplit.Files.Rewriting
  ────────────────────────────────
  **SPLITTING THE IMPORTS OF FILES.**

  A file is rewritten if its dialect is known, its bytes are text, and the
  text is a module; which of these fails first is the fault that is told.
-/
import ImportSplit.Files.Collect
import ImportSplit.Split.Source

namespace ImportSplit.Files

/-- A file and what splitting its imports makes of it. -/
structure Rewriting where
  path : String
  original : String
  /-- Equal to the original text if nothing was rewritten. -/
  output : String
  deriving Repr, DecidableEq, Inhabited

/-- Something was rewritten. -/
def Rewriting.isChange (r : Rewriting) : Bool := r.original != r.output

/-- Why a file cannot be rewritten. -/
inductive FileFault where
  /-- There is no such file, or its bytes are no text. -/
  | unreadable
  | misread (path : String) (fault : SyntaxFault)
  | unknownKind (path : String)
  deriving Repr, DecidableEq, Inhabited

/-- What is said of a fault. -/
def FileFault.message : FileFault → String
  | unreadable => "Failed to read file"
  | misread path fault => s!"Failed to parse {path}: {fault.message}"
  | unknownKind path => s!"Unsupported file type: {path}"

/-- Splits the imports of one file. -/
def FileTree.rewriting (t : FileTree) (w : WatchList) (path : String) :
    Except FileFault Rewriting :=
  match dialect? path with
  | none => .error (.unknownKind path)
  | some d =>
      match t.read? path with
      | none => .error .unreadable
      | some original =>
          match splitSource w d original with
          | .ok output => .ok { path, original, output := output.getD original }
          | .error fault => .error (.misread path fault)

/-- Writes a rewritten file back. -/
def Rewriting.write (r : Rewriting) (t : FileTree) : FileTree := t.write r.path r.output

end ImportSplit.Files
