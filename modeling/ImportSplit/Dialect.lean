/-
  ImportSplit.Dialect
  ────────────────────────────────
  **THE DIALECTS OF A MODULE.**

  A module is written in JavaScript or in TypeScript.  JavaScript always
  admits markup (elements such as `<a/>` inside expressions); TypeScript
  admits it in one of its two dialects only, because elsewhere `<T>` is a
  type assertion.  The file extension tells the dialect.
-/

namespace ImportSplit

/-- How a module is written. -/
inductive Dialect where
  | js
  | jsx
  | ts
  | tsx
  deriving Repr, DecidableEq, Inhabited

namespace Dialect

/-- Types may be annotated. -/
def hasTypes : Dialect → Bool
  | ts | tsx => true
  | js | jsx => false

/-- Elements may stand in expressions. -/
def hasMarkup : Dialect → Bool
  | ts => false
  | js | jsx | tsx => true

/-- The dialect of files with this extension.  The case of letters is ignored;
only ASCII letters have one of these letters as their lower case, so ASCII
lower case is enough. -/
def ofExtension? (extension : String) : Option Dialect :=
  match String.ofList (extension.toList.map Char.toLower) with
  | "js" | "mjs" | "cjs" => some js
  | "jsx" => some jsx
  | "ts" | "mts" | "cts" => some ts
  | "tsx" => some tsx
  | _ => none

end Dialect

end ImportSplit
