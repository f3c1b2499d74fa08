/-
  ImportSplit.WatchList
  ────────────────────────────────
  **THE WATCHED MODULES.**

  The imports of a watched module are split.  A watch list is made from any
  list of names: the white space around a name is dropped, a blank name is no
  name, and a name counts once, at its first place.

      WatchList.ofNames ["ramda", " ramda ", "", "lodash"] = ramda, lodash

  A source is watched when it is exactly one of the names: `lodash/fp` does
  not cover `lodash/fp/get`.
-/
import ImportSplit.Text.Blank

namespace ImportSplit

/-- The names that a list of entries stands for, each once, in order. -/
def WatchList.canonical (entries : List String) : List String :=
  entries.foldl add []
where
  /-- Adds one entry, unless it is blank or there already. -/
  add (names : List String) (entry : String) : List String :=
    let name := String.ofList (Text.trim entry.toList)
    if name.isEmpty || names.contains name then names else names ++ [name]

/-- The modules whose imports are split. -/
structure WatchList where
  /-- The watched names, in order. -/
  names : List String
  deriving Repr, DecidableEq, Inhabited

namespace WatchList

/-- The watch list made from these entries. -/
def ofNames (entries : List String) : WatchList := ⟨canonical entries⟩

/-- The source is exactly one of the watched names. -/
def watches (w : WatchList) (source : String) : Bool :=
  w.names.contains source

/-- How many modules are watched. -/
def size (w : WatchList) : Nat := w.names.length

/-- Nothing is watched. -/
def isEmpty (w : WatchList) : Bool := w.names.isEmpty

/-- The entries that are watched where nothing else is said. -/
def standardNames : List String := ["lodash", "lodash/fp"]

/-- The watch list where nothing else is said. -/
def standard : WatchList := ofNames standardNames

end WatchList

end ImportSplit
