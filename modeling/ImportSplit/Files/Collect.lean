/-
  ImportSplit.Files.Collect
  ────────────────────────────────
  **WHICH FILES ARE MEANT.**

  A path that is no directory is meant itself, whether there is such a file or
  not.  A directory stands for all files in it that have the extension of a
  dialect, at any depth, except below directories that hold what was installed
  or built.
-/
import ImportSplit.Dialect
import ImportSplit.Files.Tree

namespace ImportSplit.Files

/-- Directories that hold what was installed or built. -/
def skippedDirectories : List String :=
  ["node_modules", ".git", "dist", "build", ".next", "coverage", ".turbo"]

/-- The dialect of a file, told by its extension. -/
def dialect? (path : String) : Option Dialect := (extension? path).bind Dialect.ofExtension?

mutual
/-- The sources in an entry that has this path and name. -/
def Entry.sources (path name : String) : Entry → List String
  | .file _ => if (dialect? path).isSome then [path] else []
  | .directory entries =>
      if skippedDirectories.contains name then [] else Listing.sources path entries
/-- The sources in a directory that has this path. -/
def Listing.sources (path : String) : Listing → List String
  | .nil => []
  | .cons name entry rest =>
      Entry.sources (below path name) name entry ++ Listing.sources path rest
end

/-- The paths that one root stands for. -/
def FileTree.sourcesOf (t : FileTree) (root : String) : List String :=
  match t.entry? root with
  | some (.directory entries) => Listing.sources root entries
  | _ => [root]

/-- The paths that the roots stand for, in order. -/
def FileTree.collect (t : FileTree) (roots : List String) : List String :=
  inOrder (roots.flatMap t.sourcesOf)

end ImportSplit.Files
