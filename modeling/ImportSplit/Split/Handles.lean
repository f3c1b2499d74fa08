/-
  ImportSplit.Split.Handles
  ────────────────────────────────
  **HANDLES.**

  A handle is a name that stands for a whole module: `_` after
  `import _ from "lodash"`.  `Handles` records which names are handles at a
  point of a program, and of which module.  A name that is bound again
  belongs to the later module only:

      (hs.bind h).module? x = if h.name = x then some h.module else hs.module? x

  Of handles that are bound one after the other, the last one of its name counts
  (`scopeOf`).
-/

namespace ImportSplit

/-- A name that stands for a whole module. -/
structure Handle where
  name : String
  module : String
  deriving Repr, DecidableEq, Inhabited

/-- The module that a name stands for, if it is a handle. -/
abbrev Scope := String → Option String

/-- Nothing is a handle. -/
def Scope.none : Scope := fun _ => Option.none

/-- The module of the last of these handles that has a name. -/
def scopeOf (hs : List Handle) : Scope := fun x =>
  (hs.reverse.find? (·.name = x)).map Handle.module

/-- Later handles are found first. -/
theorem scopeOf_append (hs more : List Handle) (x : String) :
    scopeOf (hs ++ more) x = (scopeOf more x).or (scopeOf hs x) := by
  unfold scopeOf
  rw [List.reverse_append, List.find?_append, Option.map_or]

theorem scopeOf_eq_none_iff {hs : List Handle} {x : String} :
    scopeOf hs x = none ↔ ∀ h ∈ hs, h.name ≠ x := by
  unfold scopeOf
  rw [Option.map_eq_none_iff, List.find?_eq_none]
  simp only [List.mem_reverse, decide_eq_true_eq, ne_eq]

/-- The handles known at a point of a program, one for each name. -/
structure Handles where
  entries : List Handle
  deriving Repr, DecidableEq

namespace Handles

/-- No name is a handle. -/
def empty : Handles := ⟨[]⟩

instance : Inhabited Handles := ⟨empty⟩
instance : EmptyCollection Handles := ⟨empty⟩

/-- Binds a name; what it was bound to before is forgotten. -/
def bind (hs : Handles) (h : Handle) : Handles :=
  ⟨h :: hs.entries.filter (·.name ≠ h.name)⟩

/-- The handle of this name. -/
def find? (hs : Handles) (name : String) : Option Handle :=
  hs.entries.find? (·.name = name)

/-- The module that the name stands for. -/
def module? (hs : Handles) (name : String) : Option String :=
  (hs.find? name).map Handle.module

/-- How many names are handles. -/
def size (hs : Handles) : Nat := hs.entries.length

/-- No name is a handle. -/
def isEmpty (hs : Handles) : Bool := hs.entries.isEmpty

@[simp] theorem find?_empty (x : String) : (∅ : Handles).find? x = none := rfl

/-- The later binding of a name wins, and binding a name leaves all others. -/
theorem find?_bind (hs : Handles) (h : Handle) (x : String) :
    (hs.bind h).find? x = if h.name = x then some h else hs.find? x := by
  by_cases hx : h.name = x
  · simp [bind, find?, hx]
  · simp only [bind, find?, List.find?_cons, hx, decide_false, List.find?_filter, if_false]
    congr 1
    funext y
    by_cases hy : y.name = x
    · subst hy
      simp [Ne.symm hx]
    · simp [hy]

theorem module?_bind (hs : Handles) (h : Handle) (x : String) :
    (hs.bind h).module? x = if h.name = x then some h.module else hs.module? x := by
  simp only [module?, find?_bind]
  split <;> rfl

/-- After binding handles in order, a name stands for the last one of its name. -/
theorem module?_foldl_bind (hs : List Handle) (t : Handles) (x : String) :
    (hs.foldl bind t).module? x = (scopeOf hs x).or (t.module? x) := by
  induction hs generalizing t with
  | nil => rfl
  | cons h hs ih =>
      have hsplit : scopeOf (h :: hs) x = (scopeOf hs x).or (scopeOf [h] x) :=
        scopeOf_append [h] hs x
      rw [List.foldl_cons, ih, module?_bind, hsplit]
      unfold scopeOf
      cases hs.reverse.find? (·.name = x) with
      | some g => rfl
      | none => by_cases hx : h.name = x <;> simp [hx]

end Handles

end ImportSplit
