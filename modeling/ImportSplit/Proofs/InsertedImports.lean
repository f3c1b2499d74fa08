/-
  ImportSplit.Proofs.InsertedImports
  ────────────────────────────────
  **THE IMPORTS THAT STAND IN A SPLIT MODULE.**

  `inserted` is read off the split module itself: of its statements those are
  taken away that stay of the module, and what is left are direct imports.

      `import _ from "lodash";`   ↦  `import lodash_map from "lodash/map";`
      `import r from "react";`       `import r from "react";`
      _.map(xs, r);                  lodash_map(xs, r);

  Here that is the first line, the import of `lodash_map`.

  They are the direct imports that the module makes, in some order
  (`inserted_perm`).
-/
import Mathlib.Data.List.Count
import ImportSplit.Proofs.Stateless

namespace ImportSplit

/-! ## §1. Statements among inserted imports. -/

theorem insertImports_perm (imports body : List Statement) :
    (insertImports imports body).Perm (imports ++ body) := by
  unfold insertImports
  have hswap : (body.take (prologueEnd body) ++ imports).Perm
      (imports ++ body.take (prologueEnd body)) := List.perm_append_comm
  have hall := hswap.append_right (body.drop (prologueEnd body))
  rwa [List.append_assoc imports, List.take_append_drop] at hall

theorem insertImports_nil (body : List Statement) : insertImports [] body = body := by
  show body.take (prologueEnd body) ++ [] ++ body.drop (prologueEnd body) = body
  rw [List.append_nil, List.take_append_drop]

theorem Program.split_body_perm (w : WatchList) (p : Program) :
    (p.split w).body.Perm ((p.directImports w).map DirectImport.statement ++ p.kept w) := by
  rw [p.split_body w]
  exact insertImports_perm _ _

/-- A statement of a split module was inserted, or it was kept of a statement. -/
theorem Program.mem_split_body {w : WatchList} {p : Program} {s : Statement}
    (hs : s ∈ (p.split w).body) :
    (∃ d ∈ p.directImports w, s = d.statement) ∨ ∃ scope, ∃ t ∈ p.body, s ∈ t.kept w scope := by
  rw [(p.split_body_perm w).mem_iff, List.mem_append] at hs
  rcases hs with hs | hs
  · obtain ⟨d, hd, hds⟩ := List.mem_map.1 hs
    exact .inl ⟨d, hd, hds.symm⟩
  · obtain ⟨before, t, rest, hbody, hst⟩ := Program.mem_inScope_iff.1 hs
    exact .inr ⟨scopeAt w before, t, by simp [hbody], hst⟩

/-! ## §2. Inserted imports. -/

/-- The direct import that a statement is, if it was not read from a text. -/
def Statement.direct? : Statement → Option DirectImport
  | importing { specifiers := [.byDefault (some name)], source := path, raw := none } =>
      some ⟨name, path⟩
  | _ => none

theorem Statement.direct?_eq_some_iff {s : Statement} {d : DirectImport} :
    s.direct? = some d ↔ s = d.statement := by
  constructor
  · intro h
    unfold direct? at h
    split at h
    · cases h
      rfl
    · cases h
  · rintro rfl
    rfl

namespace Program

/-- The direct imports that stand in the split module besides the statements that
stay. -/
def inserted (w : WatchList) (p : Program) : List DirectImport :=
  ((p.split w).body.diff (p.kept w)).filterMap Statement.direct?

variable {w : WatchList} {p : Program}

/-- An inserted import is a statement of the split module. -/
theorem statement_mem_of_mem_inserted {d : DirectImport} (hd : d ∈ p.inserted w) :
    d.statement ∈ (p.split w).body := by
  obtain ⟨s, hs, hsd⟩ := List.mem_filterMap.1 hd
  rw [← Statement.direct?_eq_some_iff.1 hsd]
  exact List.diff_subset _ _ hs

/-- **A split inserts the direct imports that the module makes**, and nothing else. -/
theorem inserted_perm (w : WatchList) (p : Program) : (p.inserted w).Perm (p.directImports w) := by
  have hdiff : ((p.split w).body.diff (p.kept w)).Perm
      ((p.directImports w).map DirectImport.statement) := by
    refine List.perm_iff_count.2 fun s => ?_
    rw [List.count_diff, (p.split_body_perm w).count_eq, List.count_append, Nat.add_sub_cancel]
  have hall : ((p.directImports w).map DirectImport.statement).filterMap Statement.direct?
      = p.directImports w := by
    rw [List.filterMap_map]
    exact List.filterMap_some
  unfold inserted
  rw [← hall]
  exact hdiff.filterMap _

theorem mem_inserted_iff {d : DirectImport} : d ∈ p.inserted w ↔ d ∈ p.directImports w :=
  (p.inserted_perm w).mem_iff

end Program

end ImportSplit
