/-
  ImportSplit.Settings
  ────────────────────────────────
  **SETTINGS.**

  The only setting is the list of watched modules.  It is read from JSON, an
  object with the key `watchedModules` or an array of the settings in order:

      {"watchedModules": ["ramda"]}        [["ramda"]]

  A missing setting takes its standard value, unknown keys are skipped, and a
  key that comes twice is a mismatch.  `toJson` writes the settings compactly,
  as an object.
-/
import ImportSplit.Settings.JsonText
import ImportSplit.WatchList

namespace ImportSplit

/-- What a run is told besides its files. -/
structure Settings where
  /-- The entries of the watch list, as they were given. -/
  watchedModules : List String := WatchList.standardNames
  deriving Repr, DecidableEq, Inhabited

namespace Settings

open JsonText

/-- The name of the settings file that is looked for in a directory. -/
def fileName : String := ".barrelsplitrc.json"

/-! ## §1. Reading. -/

/-- Reads the members of an array of strings, behind its bracket or behind a
member.  Every member takes at least one character of the budget. -/
def readNames : (budget : List Char) → (isFirst : Bool) → List Char →
    Except Fault (List String × List Char)
  | [], _, _ => .error .truncated
  | _ :: budget, isFirst, s =>
      match skipBlanks s with
      | [] => .error .truncated
      | c :: rest =>
          if c = ']' then .ok ([], rest)
          else if isFirst then readName budget (c :: rest)
          else if c = ',' then
            match skipBlanks rest with
            | [] => .error .truncated
            | d :: more => if d = ']' then .error .malformed else readName budget (d :: more)
          else .error .malformed
where
  /-- Reads a member that is there, and those that follow. -/
  readName (budget : List Char) : List Char → Except Fault (List String × List Char)
    | '"' :: rest =>
        match readString rest with
        | .error f => .error f
        | .ok (name, rest) =>
            match readNames budget false rest with
            | .ok (names, rest) => .ok (String.ofList name :: names, rest)
            | .error f => .error f
    | s => .error (mismatch s)

/-- Reads the value of the setting. -/
def readList (s : List Char) : Except Fault (List String × List Char) :=
  match skipBlanks s with
  | '[' :: rest => readNames rest true rest
  | s => .error (mismatch s)

/-- Reads the members of the object, behind its brace or behind a member, with
the setting that was read so far. -/
def readMembers : (budget : List Char) → (isFirst : Bool) → Option (List String) →
    List Char → Except Fault (Option (List String) × List Char)
  | [], _, _, _ => .error .truncated
  | _ :: budget, isFirst, found, s =>
      match skipBlanks s with
      | [] => .error .truncated
      | c :: rest =>
          if c = '\x7d' then .ok (found, rest)
          else if isFirst then
            if c = '"' then readMember budget found rest else .error .malformed
          else if c = ',' then
            match skipBlanks rest with
            | [] => .error .truncated
            | d :: more => if d = '"' then readMember budget found more else .error .malformed
          else .error .malformed
where
  /-- Reads a member behind the quote of its key, and those that follow. -/
  readMember (budget : List Char) (found : Option (List String)) (s : List Char) :
      Except Fault (Option (List String) × List Char) :=
    match readString s with
    | .error f => .error f
    | .ok (key, rest) =>
        let isWatched := key = "watchedModules".toList
        if isWatched ∧ found.isSome then .error .mismatched
        else match skipBlanks rest with
          | [] => .error .truncated
          | ':' :: rest =>
              if isWatched then
                match readList rest with
                | .ok (names, rest) => readMembers budget false (some names) rest
                | .error f => .error f
              else
                match skipValue rest with
                | .ok rest => readMembers budget false found rest
                | .error f => .error f
          | _ :: _ => .error .malformed

/-- Reads the settings as an array, behind its bracket. -/
def readPositional (s : List Char) : Except Fault (Option (List String) × List Char) :=
  match skipBlanks s with
  | [] => .error .truncated
  | ']' :: rest => .ok (none, rest)
  | s =>
      match readList s with
      | .error f => .error f
      | .ok (names, rest) =>
          match skipBlanks rest with
          | [] => .error .truncated
          | ']' :: rest => .ok (some names, rest)
          | _ :: _ => .error .malformed

/-- Settings from JSON text, with nothing but blanks around. -/
def ofJson (text : String) : Except Fault Settings :=
  let outcome :=
    match skipBlanks text.toList with
    | '[' :: rest => readPositional rest
    | '\x7b' :: rest => readMembers rest true none rest
    | s => .error (mismatch s)
  match outcome with
  | .error f => .error f
  | .ok (found, rest) =>
      if (skipBlanks rest).isEmpty then .ok (found.elim {} fun names => ⟨names⟩)
      else .error .malformed

/-! ## §2. Writing. -/

/-- The settings as compact JSON. -/
def toJson (s : Settings) : String :=
  String.ofList ("\x7b\"watchedModules\":[".toList
    ++ [','].intercalate (s.watchedModules.map fun name => writeString name.toList)
    ++ "]\x7d".toList)

/-! ## §3. Use. -/

/-- Other entries in the place of the watched modules, if there are any. -/
def override (s : Settings) (entries : List String) : Settings :=
  if entries.isEmpty then s else { s with watchedModules := entries }

/-- What is said when nothing is watched. -/
def emptyWatchListMessage : String := "No watched modules configured"

/-- The watch list of the settings, unless it would be empty. -/
def watchList? (s : Settings) : Option WatchList :=
  let w := WatchList.ofNames s.watchedModules
  if w.isEmpty then none else some w

end Settings

end ImportSplit
