/-
  ImportSplit.Split.DirectImport
  ────────────────────────────────
  **DIRECT IMPORTS.**

  A direct import binds one member of a module by default, from the member's
  own path below the module:

      lodash/fp, member map   ↦   import lodash_fp_map from "lodash/fp/map";

  The path joins module and member with a slash.  Where the program gives the
  member no name of its own, the name flattens that path: module, underscore,
  member, with the slashes of the module as underscores.
-/
import ImportSplit.Tree

namespace ImportSplit

/-- The path of a member below its module. -/
def memberPath (module member : String) : String :=
  module ++ "/" ++ member

/-- The name of a member that the program does not name. -/
def memberName (module member : String) : String :=
  String.ofList (module.toList.map fun c => if c = '/' then '_' else c) ++ "_" ++ member

/-- `import name from "path";`. -/
structure DirectImport where
  name : String
  path : String
  deriving Repr, DecidableEq, Inhabited

namespace DirectImport

/-- The direct import for `{ member as bound }` from a module: it keeps the
name that the program uses. -/
def ofNamed (bound module member : String) : DirectImport :=
  ⟨bound, memberPath module member⟩

/-- The direct import for `handle.member`, where the handle stands for the
module. -/
def ofAccess (module member : String) : DirectImport :=
  ⟨memberName module member, memberPath module member⟩

/-- The declaration that the import is. -/
def decl (d : DirectImport) : ImportDecl :=
  { specifiers := [.byDefault (some d.name)], source := d.path }

/-- The declaration as a statement. -/
def statement (d : DirectImport) : Statement := .importing d.decl

end DirectImport

end ImportSplit
