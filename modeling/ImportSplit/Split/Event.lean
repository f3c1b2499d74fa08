/-
  ImportSplit.Split.Event
  ────────────────────────────────
  **THE LOG OF A SPLIT.**

  Splitting records what it does, in the order in which it does it.  An event
  has a level, a message and fields; only an incomplete specifier is worth a
  warning.  An event that is about a specifier carries it, too.
-/
import ImportSplit.Tree

namespace ImportSplit

/-- One thing that splitting did. -/
inductive Event where
  /-- A named specifier became a direct import. -/
  | namedImport (bound path : String)
  /-- A name became a handle to a module. -/
  | handleBound (name module : String)
  /-- A type specifier of an import of the module stays behind. -/
  | typeKept (module : String) (specifier : Specifier)
  /-- A specifier of an import of the module lacks a name. -/
  | specifierSkipped (module : String) (specifier : Specifier)
  /-- An access on a handle became a direct import. -/
  | accessRewritten (object property : String)
  /-- The direct imports were put into the module, before the statement of index `place`. -/
  | importsInserted (count place : Nat)
  deriving Repr, DecidableEq, Inhabited

namespace Event

/-- How much attention an event asks for. -/
inductive Level where
  | debug
  | warn
  deriving Repr, DecidableEq, Inhabited

/-- The name of a level. -/
def Level.name : Level → String
  | debug => "debug"
  | warn => "warn"

/-- The value of a field of an event. -/
inductive Value where
  | text (s : String)
  | number (n : Nat)
  deriving Repr, DecidableEq, Inhabited

/-- The level of an event. -/
def level : Event → Level
  | specifierSkipped .. => .warn
  | _ => .debug

/-- The message of an event. -/
def message : Event → String
  | namedImport .. => "rewriting named import"
  | handleBound .. => "registering namespace binding"
  | typeKept .. => "keeping type-only specifier"
  | specifierSkipped .. => "skipping malformed import specifier"
  | accessRewritten .. => "rewriting member access"
  | importsInserted .. => "inserting synthetic imports"

/-- The fields of an event that are texts or numbers, by name.  The field
`specifier` of the two events that carry one is not among them: it is printed in
a form that is only there for debugging. -/
def fields : Event → List (String × Value)
  | namedImport bound path => [("local", .text bound), ("path", .text path)]
  | handleBound name module => [("local", .text name), ("module", .text module)]
  | typeKept module _ | specifierSkipped module _ => [("module", .text module)]
  | accessRewritten object property =>
      [("object", .text object), ("property", .text property)]
  | importsInserted count place => [("count", .number count), ("at", .number place)]

end Event

end ImportSplit
