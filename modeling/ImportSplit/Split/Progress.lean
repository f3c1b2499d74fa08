/-
  ImportSplit.Split.Progress
  ────────────────────────────────
  **HOW FAR A SPLIT HAS COME.**

  While a module is walked, a split knows the handles bound so far, the direct
  imports that wait to be inserted, and its log.  Two steps move it on: a
  watched import declaration is taken apart (`classify`), and an access on a
  handle is rewritten (`rewrite`).  A step that finds nothing to do leaves the
  progress as it was.
-/
import ImportSplit.Split.Role
import ImportSplit.Split.Event
import ImportSplit.Tree.Accesses

namespace ImportSplit

/-- What a split knows at a point of the walk. -/
structure Progress where
  /-- The handles bound so far. -/
  handles : Handles := ∅
  /-- The direct imports to insert, in order. -/
  queued : List DirectImport := []
  /-- What was done, in order. -/
  log : List Event := []
  deriving Repr, DecidableEq, Inhabited

namespace Progress

/-- Adds an event to the log. -/
def note (s : Progress) (e : Event) : Progress :=
  { s with log := s.log ++ [e] }

/-- Puts a direct import last in the queue. -/
def enqueue (s : Progress) (d : DirectImport) : Progress :=
  { s with queued := s.queued ++ [d] }

/-- Hands the queue out as statements and leaves it empty. -/
def flush (s : Progress) : List Statement × Progress :=
  (s.queued.map DirectImport.statement, { s with queued := [] })

/-- Binds a handle. -/
def bindHandle (s : Progress) (h : Handle) : Progress :=
  { s with handles := s.handles.bind h }

/-! ## §1. Import declarations. -/

/-- Takes one specifier of an import from `module` apart. -/
def classifySpecifier (module : String) (s : Progress) (x : Specifier) : Progress :=
  match x.role module with
  | .direct d => (s.note (.namedImport d.name d.path)).enqueue d
  | .handle h => (s.note (.handleBound h.name h.module)).bindHandle h
  | .typeOnly => s.note (.typeKept module x)
  | .incomplete => s.note (.specifierSkipped module x)

/-- The declaration that stays behind for the types of a watched import, if it
imports any. -/
def typesLeft? (d : ImportDecl) : Option ImportDecl :=
  match d.specifiers.filter (fun x => x.role d.source = .typeOnly) with
  | [] => none
  | types => some { specifiers := types, source := d.source }

/-- Takes a watched import declaration apart.  What stays in its place is the
declaration of its types. -/
def classify (d : ImportDecl) (s : Progress) : Option ImportDecl × Progress :=
  (typesLeft? d, d.specifiers.foldl (classifySpecifier d.source) s)

/-! ## §2. Accesses. -/

/-- Rewrites an access on a handle to the name of a direct import of its own,
also when the same member was met before. -/
def rewrite (a : Access) (s : Progress) : Option Node × Progress :=
  match a.objectName? with
  | none => (none, s)
  | some object =>
      match s.handles.module? object with
      | none => (none, s)
      | some module =>
          let d := DirectImport.ofAccess module a.property
          (some (.identifier d.name),
            (s.note (.accessRewritten object a.property)).enqueue d)

end Progress

end ImportSplit
