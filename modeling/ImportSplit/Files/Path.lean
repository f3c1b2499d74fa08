/-
  ImportSplit.Files.Path
  ────────────────────────────────
  **PATHS AND THEIR ORDER.**

  A path is the text that names a file.  It is ordered by its components, not
  by its characters: `a/b.js` stands before `a.js`, since the component `a` is
  less than `a.js`.  Slashes that are repeated or trail, and a `.` that is not
  in front, make no component, so `a//b.js` and `a/./b.js` are the same path.
-/

namespace ImportSplit.Files

/-! ## §1. Components. -/

/-- The pieces of a text between slashes. -/
def segments : List Char → List (List Char)
  | [] => [[]]
  | c :: rest =>
      if c = '/' then [] :: segments rest
      else match segments rest with
        | [] => [[c]]
        | s :: more => (c :: s) :: more

/-- One step of a path. -/
inductive Component where
  /-- The leading slash. -/
  | root
  /-- A leading `.`. -/
  | here
  /-- `..`. -/
  | above
  | name (name : String)
  deriving Repr, DecidableEq, Inhabited

namespace Component

/-- The order of the kinds of components. -/
def rank : Component → Nat
  | root => 0
  | here => 1
  | above => 2
  | name _ => 3

/-- Components are ordered by kind, and names by their characters. -/
def before : Component → Component → Bool
  | name a, name b => a < b
  | a, b => a.rank < b.rank

/-- The component that a segment is; an empty one and `.` are none. -/
def ofSegment? (s : List Char) : Option Component :=
  if s = [] ∨ s = ['.'] then none
  else if s = ['.', '.'] then some above
  else some (name (String.ofList s))

end Component

/-- The components of a path. -/
def components (path : String) : List Component :=
  match segments path.toList with
  | [] => []
  | first :: rest =>
      let start :=
        if first = [] ∧ rest ≠ [] then [Component.root]
        else if first = ['.'] then [Component.here]
        else (Component.ofSegment? first).toList
      start ++ rest.filterMap Component.ofSegment?

/-! ## §2. Order. -/

/-- The first list of components comes before the second one. -/
def componentsBefore : List Component → List Component → Bool
  | [], [] => false
  | [], _ :: _ => true
  | _ :: _, [] => false
  | a :: as, b :: bs => if a = b then componentsBefore as bs else a.before b

/-- The paths have the same components. -/
def samePath (a b : String) : Bool := components a == components b

/-- The first path does not come behind the second one. -/
def notBehind (a b : String) : Bool := !componentsBefore (components b) (components a)

/-- Drops every path that is the same as the one before it. -/
def dropRepeated : List String → List String
  | [] => []
  | a :: rest =>
      match dropRepeated rest with
      | [] => [a]
      | b :: more => if samePath a b then a :: more else a :: b :: more

/-- The paths in order, each of them once; of paths that are the same, the one
given first stays. -/
def inOrder (paths : List String) : List String :=
  dropRepeated (paths.mergeSort notBehind)

/-! ## §3. Names. -/

/-- The path of a file in a directory. -/
def below (directory name : String) : String :=
  if directory.isEmpty ∨ directory.toList.getLast? = some '/' then directory ++ name
  else directory ++ "/" ++ name

/-- The last name of a path. -/
def lastName? (path : String) : Option String :=
  match (components path).getLast? with
  | some (.name n) => some n
  | _ => none

/-- What stands behind the last point of a name; a point in front counts for
nothing. -/
def nameExtension? (name : String) : Option String :=
  let back := name.toList.reverse
  match back.dropWhile (· ≠ '.') with
  | [] => none
  | _ :: front => if front = [] then none else some (String.ofList (back.takeWhile (· ≠ '.')).reverse)

/-- The extension of a path. -/
def extension? (path : String) : Option String := (lastName? path).bind nameExtension?

end ImportSplit.Files
