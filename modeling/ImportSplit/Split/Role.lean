/-
  ImportSplit.Split.Role
  ────────────────────────────────
  **WHAT A SPECIFIER OF A WATCHED IMPORT TURNS INTO.**

      { get as g }                        a direct import of its own
      x, * as x, { default as x }         a handle to the whole module
      { type T }                          stays behind, as a type import
      a name is missing                   nothing
-/
import ImportSplit.Split.DirectImport
import ImportSplit.Split.Handles

namespace ImportSplit

/-- What a specifier of a watched import turns into. -/
inductive Role where
  | direct (d : DirectImport)
  | handle (h : Handle)
  | typeOnly
  | incomplete
  deriving Repr, DecidableEq, Inhabited

/-- The role of a specifier in an import from `module`. -/
def Specifier.role (module : String) : Specifier → Role
  | byDefault (some bound) | whole (some bound) => .handle ⟨bound, module⟩
  | named (some "default") (some bound) => .handle ⟨bound, module⟩
  | named (some exported) (some bound) => .direct (.ofNamed bound module exported)
  | typeOnly (some _) (some _) => .typeOnly
  | _ => .incomplete

end ImportSplit
