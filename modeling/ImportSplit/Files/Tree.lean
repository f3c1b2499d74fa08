/-
  ImportSplit.Files.Tree
  ────────────────────────────────
  **FILES AND DIRECTORIES.**

  An entry is a file or a directory of named entries.  A file holds the bytes
  of a text, or others.  `FileTree` adds the working directory, from which
  relative paths are looked up; a path is followed step by step, and each step
  has to start in a directory.
-/
import ImportSplit.Files.Path

namespace ImportSplit.Files

/-! ## §1. Entries. -/

/-- What a file holds. -/
inductive Contents where
  /-- The bytes of a text. -/
  | text (t : String)
  /-- Bytes that are no text. -/
  | binary (bytes : List UInt8)
  deriving Repr, DecidableEq, Inhabited

/-- The text that a file holds. -/
def Contents.text? : Contents → Option String
  | text t => some t
  | binary _ => none

/-- Contents given by their text; for those that have none stands a byte that is
in no text. -/
instance : Coe (Option String) Contents :=
  ⟨fun text => text.elim (.binary [0xFF]) .text⟩

mutual
/-- A file or a directory. -/
inductive Entry where
  | file (contents : Contents)
  | directory (entries : Listing)
/-- The named entries of a directory. -/
inductive Listing where
  | nil
  | cons (name : String) (entry : Entry) (rest : Listing)
end

instance : Inhabited Listing := ⟨.nil⟩
instance : Inhabited Entry := ⟨.directory .nil⟩

namespace Listing

/-- The entry of this name. -/
def find? (name : String) : Listing → Option Entry
  | nil => none
  | cons n e rest => if n = name then some e else rest.find? name

/-- Puts an entry in, in the place of one of the same name. -/
def insert (name : String) (entry : Entry) : Listing → Listing
  | nil => cons name entry nil
  | cons n e rest => if n = name then cons n entry rest else cons n e (rest.insert name entry)

end Listing

namespace Entry

/-- What an entry holds below it; a file holds nothing. -/
def listing : Entry → Listing
  | file _ => .nil
  | directory entries => entries

/-- The entry is a directory. -/
def isDirectory : Entry → Bool
  | file _ => false
  | directory _ => true

/-- The entry below this one along the names. -/
def find? : List String → Entry → Option Entry
  | [], e => some e
  | n :: names, e => (e.listing.find? n).bind (find? names)

/-- Puts an entry in at the end of the names, making directories on the way. -/
def insert (new : Entry) : List String → Entry → Entry
  | [], _ => new
  | n :: names, e =>
      .directory (e.listing.insert n (insert new names ((e.listing.find? n).getD default)))

end Entry

mutual
/-- The texts in an entry, with their paths below it. -/
def Entry.texts (path : String) : Entry → List (String × String)
  | .file (.text text) => [(path, text)]
  | .file (.binary _) => []
  | .directory entries => Listing.texts path entries
/-- The texts in a directory. -/
def Listing.texts (path : String) : Listing → List (String × String)
  | .nil => []
  | .cons name entry rest => Entry.texts (below path name) entry ++ Listing.texts path rest
end

/-! ## §2. Looking paths up. -/

/-- All files, and the directory that relative paths start from. -/
structure FileTree where
  root : Entry := .directory .nil
  workingDirectory : List String := []
  deriving Inhabited

namespace FileTree

/-- Follows segments from a directory; the names on the way to it come last
first. -/
def follow (t : FileTree) : List (List Char) → (names : List String) → Option (List String)
  | [], names => some names
  | s :: rest, names =>
      match t.root.find? names.reverse with
      | some (.directory entries) =>
          if s = [] ∨ s = ['.'] then t.follow rest names
          else if s = ['.', '.'] then t.follow rest names.tail
          else if (entries.find? (String.ofList s)).isSome then
            t.follow rest (String.ofList s :: names)
          else none
      | _ => none

/-- The names on the way to what a path denotes, if there is anything. -/
def locate? (t : FileTree) (path : String) : Option (List String) :=
  if path.isEmpty then none
  else
    let start := if path.toList.head? = some '/' then [] else t.workingDirectory.reverse
    (t.follow (segments path.toList) start).map List.reverse

/-- The entry that a path denotes. -/
def entry? (t : FileTree) (path : String) : Option Entry :=
  (t.locate? path).bind fun names => t.root.find? names

/-- The path denotes a directory. -/
def isDirectory (t : FileTree) (path : String) : Bool :=
  (t.entry? path).elim false Entry.isDirectory

/-- The path denotes a file. -/
def isFile (t : FileTree) (path : String) : Bool :=
  (t.entry? path).elim false fun e => !e.isDirectory

/-- The text of the file that a path denotes. -/
def read? (t : FileTree) (path : String) : Option String :=
  match t.entry? path with
  | some (.file contents) => contents.text?
  | _ => none

/-- Writes a text to the file that a path denotes. -/
def write (t : FileTree) (path text : String) : FileTree :=
  match t.locate? path with
  | some names => { t with root := Entry.insert (.file (.text text)) names t.root }
  | none => t

end FileTree

end ImportSplit.Files
