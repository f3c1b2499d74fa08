/-
  ImportSplit.Split.Pass
  ────────────────────────────────
  **SPLITTING THE IMPORTS OF A MODULE.**

  Imports of whole watched modules become imports of the members that the
  module uses:

      `import _ from "lodash";`           ↦  `import lodash_map from "lodash/map";`
      `import { get } from "lodash/fp";`  ↦  `import get from "lodash/fp/get";`
      const a = _.map(xs, f);               const a = lodash_map(xs, f);

  A watched declaration goes away when it is met; only its types stay behind.
  Its named members are queued as direct imports at once, and each later
  access on one of its handles queues one more.  The queue is inserted at the
  top of the module, after the line `#!…` and the directives (`prologueEnd`).
-/
import ImportSplit.Split.Progress
import ImportSplit.Traversal
import ImportSplit.WatchList

namespace ImportSplit

/-! ## §1. Where direct imports go. -/

/-- How many statements the hashbang line and the directives at the start
span.  Comments between them belong to the span, comments behind them do not. -/
def prologueEnd : List Statement → Nat
  | [] => 0
  | s :: rest =>
      if s.isHashbang || s.isDirective then prologueEnd rest + 1
      else if s.isComment then
        match prologueEnd rest with
        | 0 => 0
        | n + 1 => n + 2
      else 0

/-- The statements with imports after the prologue. -/
def insertImports (imports body : List Statement) : List Statement :=
  body.take (prologueEnd body) ++ imports ++ body.drop (prologueEnd body)

/-! ## §2. The pass as a visitor. -/

namespace Split

/-- Takes a declaration apart if its source is watched. -/
def onImport (w : WatchList) (d : ImportDecl) (s : Progress) : ImportEdit × Progress :=
  if w.watches d.source then
    match Progress.classify d s with
    | (some types, s') => (.replace types, s')
    | (none, s') => (.remove, s')
  else (.keep, s)

/-- Takes the queue and inserts it; with an empty queue nothing happens. -/
def leave (p : Program) (s : Progress) : Program × Progress :=
  if s.queued.isEmpty then (p, s)
  else
    let (imports, s') := s.flush
    (⟨insertImports imports p.body⟩,
      s'.note (.importsInserted imports.length (prologueEnd p.body)))

/-- The pass for these watched modules. -/
def visitor (w : WatchList) : Visitor Progress where
  enter _ := {}
  onImport := onImport w
  onAccess := Progress.rewrite
  leave := leave

/-- A rewritten access is a name, which holds no access. -/
theorem visitor_shrinks (w : WatchList) : (visitor w).Shrinks := by
  intro a s s' r h
  simp only [visitor, Progress.rewrite] at h
  split at h
  · simp at h
  · split at h
    · simp at h
    · simp only [Prod.mk.injEq, Option.some.injEq] at h
      rw [← h.1]
      simp [Node.accessCount, Node.accesses, Access.node]

/-- The pass, which always finishes. -/
def pass (w : WatchList) : ShrinkingVisitor Progress :=
  { visitor w with shrinks := visitor_shrinks w }

end Split

/-- The module with the imports of watched modules split, and the log. -/
def Program.splitLogged (w : WatchList) (p : Program) : Program × List Event :=
  let (q, s) := (Split.pass w).run p
  (q, s.log)

/-- The module with the imports of watched modules split. -/
def Program.split (w : WatchList) (p : Program) : Program :=
  (p.splitLogged w).1

end ImportSplit
