/-
  ImportSplit.CommandLine.Run
  ────────────────────────────────
  **RUNNING A REQUEST.**

  A run starts from a file tree and ends with an exit code, what it printed,
  what it complained of, and the file tree that it leaves.  All files are
  rewritten before the first one is printed or written, so no result depends
  on what the run writes.
-/
import ImportSplit.CommandLine.Arguments
import ImportSplit.Files.Rewriting
import ImportSplit.Files.SettingsFile

namespace ImportSplit.CommandLine

open Files

/-! ## §1. What a run leaves behind. -/

/-- The end of a run. -/
structure Ending where
  code : Nat := 0
  output : String := ""
  complaints : List String := []
  tree : FileTree
  deriving Inhabited

/-- The name of the program. -/
def programName : String := "barrelsplit"

/-- The version of the program. -/
def programVersion : String := "0.1.0"

/-- What is printed if no command is given. -/
def greeting : String :=
  s!"{programName} - barrel import splitter\n"
    ++ s!"Run '{programName} transform <paths>' to rewrite imports\n"
    ++ s!"Run '{programName} --help' for more information\n"

/-- How the program is used. -/
def usage : String :=
  s!"Usage: {programName} [-v] transform [-w MODULE] [-c FILE] [--write | --check] PATH...\n"
    ++ s!"       {programName} version\n"

/-! ## §2. Files. -/

/-- The text with a line end behind it, unless there is one. -/
def withLineEnd (text : String) : String :=
  if text.toList.getLast? = some '\n' then text else text ++ "\n"

/-- What is printed of one rewritten file; `headed` asks for a line with its
path before it. -/
def printed (mode : Mode) (headed : Bool) (r : Rewriting) : String :=
  match mode with
  | .print => (if headed then s!"// {r.path}\n" else "") ++ withLineEnd r.output
  | .check => if r.isChange then s!"{r.path}\n" else ""
  | .write => ""

/-- The tree with the changed files written. -/
def writeChanges (rs : List Rewriting) (t : FileTree) : FileTree :=
  (rs.filter Rewriting.isChange).foldl (fun t r => r.write t) t

/-- The results that are rewritten files. -/
def rewritings (results : List (Except FileFault Rewriting)) : List Rewriting :=
  results.filterMap fun
    | .ok r => some r
    | .error _ => none

/-- The faults among the results. -/
def faults (results : List (Except FileFault Rewriting)) : List FileFault :=
  results.filterMap fun
    | .ok _ => none
    | .error f => some f

/-- Rewrites the files that the roots stand for. -/
def rewriteAll (w : WatchList) (mode : Mode) (roots : List String) (t : FileTree) : Ending :=
  let paths := t.collect roots
  let results := paths.map (t.rewriting w)
  let rs := rewritings results
  let failed := !(faults results).isEmpty
  let found := mode == .check && rs.any Rewriting.isChange
  { code := if failed || found then 1 else 0
    output := String.join (rs.map (printed mode (paths.length > 1)))
    complaints := (faults results).map FileFault.message
    tree := if mode == .write then writeChanges rs t else t }

/-! ## §3. Requests. -/

/-- The settings that hold for a request. -/
def settingsFor (r : Transform) (t : FileTree) : Except SettingsFault Settings :=
  let found := match r.settings with
    | some path => t.settingsFile path
    | none => t.settingsOf "."
  found.map fun s => s.override r.watch

/-- What is said if the settings cannot be read; a file that was named is told. -/
def settingsComplaint : Option String → String
  | some path => s!"Failed to load config from {path}"
  | none => "Failed to load config"

/-- Runs a request to rewrite files. -/
def runTransform (r : Transform) (t : FileTree) : Ending :=
  match settingsFor r t with
  | .error _ => { code := 1, complaints := [settingsComplaint r.settings], tree := t }
  | .ok settings =>
      match settings.watchList? with
      | none =>
          { code := 1, complaints := ["Invalid configuration", Settings.emptyWatchListMessage],
            tree := t }
      | some w => rewriteAll w r.mode r.paths t

/-- Runs a request. -/
def Request.run (t : FileTree) : Request → Ending
  | .nothing => { output := greeting, tree := t }
  | .transform r => runTransform r t
  | .version => { output := s!"{programName} v{programVersion}\n", tree := t }
  | .shortVersion => { output := s!"{programName} {programVersion}\n", tree := t }
  | .help => { output := usage, tree := t }
  | .misused => { code := 2, complaints := [usage], tree := t }

end ImportSplit.CommandLine
