/-
  ImportSplit.Proofs.Bindings
  ────────────────────────────────
  **WHICH NAMES A SPLIT MODULE BINDS, AND TO WHAT.**

  A binding is a local name with the path that its declaration imports from.
  The bindings of a split module are of two sorts (`mem_bindings_split_iff`):

      own         — of an import that is not watched, of a type that stays, of
                    a named member under the name that the module gave it
      generated   — of an access on a handle, under its flattened path

  The own bindings keep the names of the module, which are distinct if they
  were before; so of two bindings in conflict one is generated
  (`generated_of_conflict`).  A split does not look for such a conflict: an
  access `_.map` is bound to `lodash_map` also where that name is imported.
-/
import ImportSplit.Proofs.Meaning
import ImportSplit.Proofs.Points

namespace ImportSplit

/-! ## §1. Bindings. -/

/-- A local name, and the path that its declaration imports from. -/
structure Binding where
  name : String
  source : String
  deriving Repr, DecidableEq

/-- The bindings of a declaration, in order. -/
def ImportDecl.bindings (d : ImportDecl) : List Binding :=
  d.specifiers.filterMap fun x => x.bound?.map (⟨·, d.source⟩)

/-- The binding of a direct import. -/
def DirectImport.binding (m : DirectImport) : Binding := ⟨m.name, m.path⟩

/-- What a specifier of a watched import from `module` binds in the split module
under its own name: a member is bound to its path, a type to the module. -/
def Specifier.ownBinding? (module : String) (x : Specifier) : Option Binding :=
  match x.member? module with
  | some m => some m.binding
  | none => if x.isFullType then x.bound?.map (⟨·, module⟩) else none

namespace Statement

/-- The bindings of a statement. -/
def bindings : Statement → List Binding
  | importing d => d.bindings
  | other _ => []

/-- What a statement binds in the split module under its own names. -/
def ownBindings (w : WatchList) : Statement → List Binding
  | importing d =>
      if w.watches d.source then d.specifiers.filterMap (Specifier.ownBinding? d.source)
      else d.bindings
  | other _ => []

end Statement

namespace Program

/-- The bindings of a module, in order. -/
def bindings (p : Program) : List Binding := p.body.flatMap Statement.bindings

/-- Bindings of the same name are bindings to the same path. -/
def ConflictFree (p : Program) : Prop :=
  ∀ b ∈ p.bindings, ∀ c ∈ p.bindings, b.name = c.name → b.source = c.source

instance (p : Program) : Decidable p.ConflictFree :=
  inferInstanceAs
    (Decidable (∀ b ∈ p.bindings, ∀ c ∈ p.bindings, b.name = c.name → b.source = c.source))

/-- What the split module binds under names of the module. -/
def ownBindings (w : WatchList) (p : Program) : List Binding :=
  p.body.flatMap (Statement.ownBindings w)

/-- The direct imports for the accesses on handles, in order. -/
def generated (w : WatchList) (p : Program) : List DirectImport :=
  p.inScope w Statement.accessImports

end Program

/-! ## §2. Own names. -/

namespace Specifier

/-- A type that stays is bound to its module. -/
theorem ownBinding?_of_isFullType {x : Specifier} (hx : x.isFullType = true) (module : String) :
    x.ownBinding? module = x.bound?.map (⟨·, module⟩) := by
  unfold ownBinding?
  rw [(handle?_member?_of_isFullType hx module).2]
  exact if_pos hx

/-- An own binding is that of a named member or of a type. -/
theorem ownBinding?_eq_some_iff {module : String} {x : Specifier} {b : Binding} :
    x.ownBinding? module = some b ↔
      (∃ m, x.member? module = some m ∧ m.binding = b)
        ∨ x.isFullType = true ∧ x.bound?.map (⟨·, module⟩) = some b := by
  by_cases hfull : x.isFullType = true
  · -- a type is no member
    rw [ownBinding?_of_isFullType hfull, (handle?_member?_of_isFullType hfull module).2]
    simp [hfull]
  · unfold ownBinding?
    cases x.member? module with
    | none => simp [hfull]
    | some m => simp [hfull]

/-- It has the name that the specifier binds. -/
theorem bound?_of_ownBinding? {module : String} {x : Specifier} {b : Binding}
    (h : x.ownBinding? module = some b) : x.bound? = some b.name := by
  rcases ownBinding?_eq_some_iff.1 h with ⟨m, hm, rfl⟩ | ⟨-, hbound⟩
  · exact bound?_of_member? hm
  · obtain ⟨y, hy, rfl⟩ := Option.map_eq_some_iff.1 hbound
    exact hy

end Specifier

namespace Program

/-- The own bindings of the split module have names of the module, in order. -/
theorem ownBindings_sublist (w : WatchList) (p : Program) :
    ((p.ownBindings w).map Binding.name).Sublist p.boundNames := by
  refine sublist_boundNames (fun d => ?_) (fun _ => rfl) p
  show ((if w.watches d.source then d.specifiers.filterMap (Specifier.ownBinding? d.source)
    else d.bindings).map Binding.name).Sublist _
  by_cases hw : w.watches d.source = true
  · rw [if_pos hw]
    exact Specifier.sublist_bound? (fun _ _ => Specifier.bound?_of_ownBinding?) d.specifiers
  · rw [if_neg hw]
    refine Specifier.sublist_bound? (fun x b hb => ?_) d.specifiers
    obtain ⟨y, hy, rfl⟩ := Option.map_eq_some_iff.1 hb
    exact hy

/-- So own bindings of the same name are one binding, if no name is bound twice. -/
theorem eq_of_mem_ownBindings {w : WatchList} {p : Program} (h : p.boundNames.Nodup)
    {b c : Binding} (hb : b ∈ p.ownBindings w) (hc : c ∈ p.ownBindings w)
    (hname : b.name = c.name) : b = c := by
  have hnodup : ((p.ownBindings w).map Binding.name).Nodup := (ownBindings_sublist w p).nodup h
  exact List.inj_on_of_nodup_map hnodup hb hc hname

end Program

/-! ## §3. Bindings of a split module. -/

namespace Statement

variable {w : WatchList} {scope : Scope} {b : Binding}

/-- A binding of a watched declaration is that of a member, or of a type. -/
theorem mem_ownBindings_iff {d : ImportDecl} (hw : w.watches d.source = true) :
    b ∈ (importing d).ownBindings w ↔
      (∃ m ∈ d.members, m.binding = b)
        ∨ b ∈ ({ specifiers := d.types, source := d.source } : ImportDecl).bindings := by
  show b ∈ (if w.watches d.source then d.specifiers.filterMap (Specifier.ownBinding? d.source)
    else d.bindings) ↔ _
  rw [if_pos hw, List.mem_filterMap]
  constructor
  · rintro ⟨x, hx, hown⟩
    rcases Specifier.ownBinding?_eq_some_iff.1 hown with ⟨m, hm, rfl⟩ | ⟨hfull, hbound⟩
    · exact .inl ⟨m, List.mem_filterMap.2 ⟨x, hx, hm⟩, rfl⟩
    · exact .inr (List.mem_filterMap.2 ⟨x, List.mem_filter.2 ⟨hx, hfull⟩, hbound⟩)
  · rintro (⟨m, hm, rfl⟩ | htype)
    · obtain ⟨x, hx, hxm⟩ := List.mem_filterMap.1 hm
      exact ⟨x, hx, Specifier.ownBinding?_eq_some_iff.2 (.inl ⟨m, hxm, rfl⟩)⟩
    · obtain ⟨x, hx, hbound⟩ := List.mem_filterMap.1 htype
      obtain ⟨hx, hfull⟩ := List.mem_filter.1 hx
      exact ⟨x, hx, Specifier.ownBinding?_eq_some_iff.2 (.inr ⟨hfull, hbound⟩)⟩

/-- What a statement binds in the split module, by a direct import or by what
stays of it, is generated for an access or its own. -/
theorem binding_cases (s : Statement) :
    ((∃ m ∈ s.directImports w scope, m.binding = b) ∨ ∃ t ∈ s.kept w scope, b ∈ t.bindings) ↔
      (∃ m ∈ s.accessImports scope, m.binding = b) ∨ b ∈ s.ownBindings w := by
  cases s with
  | other n =>
      -- what stays of the statement is no import
      show ((∃ m ∈ n.directImports scope, m.binding = b)
          ∨ ∃ t ∈ [other (n.direct scope)], b ∈ t.bindings)
        ↔ (∃ m ∈ n.directImports scope, m.binding = b) ∨ b ∈ ([] : List Binding)
      simp [bindings]
  | importing d =>
      have hnone : ¬ ∃ m ∈ (importing d).accessImports scope, m.binding = b := by
        rintro ⟨m, hm, -⟩
        cases hm
      rw [or_iff_right hnone]
      show ((∃ m ∈ (if w.watches d.source then d.members else []), m.binding = b)
          ∨ ∃ t ∈ (if w.watches d.source then
              (if d.types.isEmpty then [] else [importing { specifiers := d.types, source := d.source }])
            else [importing d]), b ∈ t.bindings)
        ↔ b ∈ (importing d).ownBindings w
      by_cases hw : w.watches d.source = true
      · rw [if_pos hw, if_pos hw, mem_ownBindings_iff hw]
        apply or_congr_right
        -- without types nothing stays, and nothing is bound
        cases ht : d.types with
        | nil => simp [ImportDecl.bindings]
        | cons x xs => simp [bindings]
      · rw [if_neg hw, if_neg hw]
        have hown : (importing d).ownBindings w = d.bindings := if_neg hw
        simp [bindings, hown]

end Statement

namespace Program

variable {w : WatchList} {p : Program} {b c : Binding}

/-- **A split module binds the names of its generated imports, and its own.** -/
theorem mem_bindings_split_iff :
    b ∈ (p.split w).bindings ↔ (∃ m ∈ p.generated w, m.binding = b) ∨ b ∈ p.ownBindings w := by
  have hinserted : b ∈ (p.split w).bindings ↔
      (∃ m ∈ p.directImports w, m.binding = b) ∨ ∃ t ∈ p.kept w, b ∈ t.bindings := by
    have hone : ∀ m : DirectImport, b ∈ m.statement.bindings ↔ m.binding = b := by
      intro m
      show b ∈ [m.binding] ↔ m.binding = b
      rw [List.mem_singleton]
      exact eq_comm
    unfold bindings
    rw [p.split_body w, ((insertImports_perm _ _).flatMap_right _).mem_iff, List.flatMap_append,
      List.mem_append, List.mem_flatMap, List.mem_flatMap]
    simp only [List.mem_map, exists_exists_and_eq_and, hone]
  rw [hinserted]
  -- both sides say what the statements bind, each at its place
  constructor
  · intro h
    obtain ⟨before, s, rest, hbody, hs⟩ : ∃ before s rest, p.body = before ++ s :: rest
        ∧ ((∃ m ∈ s.directImports w (scopeAt w before), m.binding = b)
          ∨ ∃ t ∈ s.kept w (scopeAt w before), b ∈ t.bindings) := by
      rcases h with ⟨m, hm, hb⟩ | ⟨t, ht, hb⟩
      · obtain ⟨before, s, rest, hbody, hm⟩ := mem_inScope_iff.1 hm
        exact ⟨before, s, rest, hbody, .inl ⟨m, hm, hb⟩⟩
      · obtain ⟨before, s, rest, hbody, ht⟩ := mem_inScope_iff.1 ht
        exact ⟨before, s, rest, hbody, .inr ⟨t, ht, hb⟩⟩
    rcases s.binding_cases.1 hs with ⟨m, hm, hb⟩ | hown
    · exact .inl ⟨m, mem_inScope_iff.2 ⟨before, s, rest, hbody, hm⟩, hb⟩
    · exact .inr (List.mem_flatMap.2 ⟨s, by simp [hbody], hown⟩)
  · intro h
    obtain ⟨before, s, rest, hbody, hs⟩ : ∃ before s rest, p.body = before ++ s :: rest
        ∧ ((∃ m ∈ s.accessImports (scopeAt w before), m.binding = b) ∨ b ∈ s.ownBindings w) := by
      rcases h with ⟨m, hm, hb⟩ | hown
      · obtain ⟨before, s, rest, hbody, hm⟩ := mem_inScope_iff.1 hm
        exact ⟨before, s, rest, hbody, .inl ⟨m, hm, hb⟩⟩
      · obtain ⟨s, hs, hown⟩ := List.mem_flatMap.1 hown
        obtain ⟨before, rest, hbody⟩ := List.append_of_mem hs
        exact ⟨before, s, rest, hbody, .inr hown⟩
    rcases s.binding_cases.2 hs with ⟨m, hm, hb⟩ | ⟨t, ht, hb⟩
    · exact .inl ⟨m, mem_inScope_iff.2 ⟨before, s, rest, hbody, hm⟩, hb⟩
    · exact .inr ⟨t, mem_inScope_iff.2 ⟨before, s, rest, hbody, ht⟩, hb⟩

/-- Of two bindings of the same name to different paths one is generated. -/
theorem generated_of_conflict (h : p.boundNames.Nodup) (hb : b ∈ (p.split w).bindings)
    (hc : c ∈ (p.split w).bindings) (hname : b.name = c.name) :
    b.source = c.source ∨ ∃ m ∈ p.generated w, m.binding = b ∨ m.binding = c := by
  rcases mem_bindings_split_iff.1 hb with ⟨m, hm, hmb⟩ | hb
  · exact .inr ⟨m, hm, .inl hmb⟩
  rcases mem_bindings_split_iff.1 hc with ⟨m, hm, hmc⟩ | hc
  · exact .inr ⟨m, hm, .inr hmc⟩
  exact .inl (congrArg Binding.source (eq_of_mem_ownBindings h hb hc hname))

/-! ## §4. Conflicts. -/

/-- **Where no name is imported twice, a split brings about a conflict exactly by
its generated names.**  Bindings of the same name are to the same path unless one
of them is generated for an access; and there is no conflict at all exactly if
generated names that are equal belong to the same path, also where one of them is
a name of the module. -/
theorem conflictFree_split_iff (h : p.boundNames.Nodup) :
    (∀ b ∈ (p.split w).bindings, ∀ c ∈ (p.split w).bindings, b.name = c.name →
        b.source = c.source ∨ ∃ m ∈ p.generated w, m.binding = b ∨ m.binding = c)
      ∧ ((p.split w).ConflictFree ↔
          Consistent (p.generated w)
            ∧ ∀ m ∈ p.generated w, ∀ b ∈ p.ownBindings w, b.name = m.name → b.source = m.path) := by
  refine ⟨fun b hb c hc => generated_of_conflict h hb hc, ?_⟩
  have hgenerated : ∀ m ∈ p.generated w, m.binding ∈ (p.split w).bindings :=
    fun m hm => mem_bindings_split_iff.2 (.inl ⟨m, hm, rfl⟩)
  constructor
  · intro hfree
    constructor
    · intro m hm n hn hname
      exact hfree m.binding (hgenerated m hm) n.binding (hgenerated n hn) hname
    · intro m hm b hb hname
      exact hfree b (mem_bindings_split_iff.2 (.inr hb)) m.binding (hgenerated m hm) hname
  · rintro ⟨hagree, hown⟩ b hb c hc hname
    rcases mem_bindings_split_iff.1 hb with ⟨m, hm, rfl⟩ | hb
    · rcases mem_bindings_split_iff.1 hc with ⟨n, hn, rfl⟩ | hc
      · exact hagree m hm n hn hname
      · exact (hown m hm c hc hname.symm).symm
    · rcases mem_bindings_split_iff.1 hc with ⟨n, hn, rfl⟩ | hc
      · exact hown n hn b hb hname
      · exact congrArg Binding.source (eq_of_mem_ownBindings h hb hc hname)

/-- `import _ from "lodash"; import fp, { each } from "lodash/fp";` before
`each(_.fp_map, fp.map)`: both accesses are flattened to `lodash_fp_map`. -/
def flattenedSample : Program where
  body := [
    .importing { specifiers := [.byDefault (some "_")], source := "lodash" },
    .importing { specifiers := [.byDefault (some "fp"), .named (some "each") (some "each")]
                 source := "lodash/fp" },
    .other (.construct "call_expression" [
      .node (.identifier "each"), .text "(",
      .node (.member (.identifier "_") "." "fp_map"), .text ", ",
      .node (.member (.identifier "fp") "." "map"), .text ")"])]

theorem conflictFree_split_iff_flattened :
    flattenedSample.boundNames.Nodup
      ∧ (∃ m ∈ flattenedSample.generated ⟨["lodash", "lodash/fp"]⟩,
          m.binding = ⟨"lodash_fp_map", "lodash/fp_map"⟩
            ∨ m.binding = ⟨"lodash_fp_map", "lodash/fp/map"⟩)
      ∧ ¬ (flattenedSample.split ⟨["lodash", "lodash/fp"]⟩).ConflictFree := by
  have hsample := conflictFree_split_iff (p := flattenedSample) (w := ⟨["lodash", "lodash/fp"]⟩)
    (by decide)
  refine ⟨by decide, ?_, ?_⟩
  · exact (hsample.1 ⟨"lodash_fp_map", "lodash/fp_map"⟩ (by decide)
      ⟨"lodash_fp_map", "lodash/fp/map"⟩ (by decide) rfl).resolve_left (by decide)
  · intro hfree
    have hagree := (hsample.2.1 hfree).1
    revert hagree
    decide

/-- A name of the module may be generated as well: `import _ from "lodash";` and
`import lodash_map from "other";` before `_.map(x)`. -/
theorem conflict_with_own_name :
    ¬ ∀ (w : WatchList) (p : Program), p.boundNames.Nodup → (p.split w).ConflictFree := by
  intro h
  have hfree := h ⟨["lodash"]⟩
    { body := [
        .importing { specifiers := [.byDefault (some "_")], source := "lodash" },
        .importing { specifiers := [.byDefault (some "lodash_map")], source := "other" },
        .other (.construct "call_expression" [
          .node (.member (.identifier "_") "." "map"), .text "(", .node (.identifier "x"),
          .text ")"])] } (by decide)
  revert hfree
  decide

end Program

end ImportSplit
