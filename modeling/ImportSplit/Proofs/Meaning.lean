/-
  ImportSplit.Proofs.Meaning
  ────────────────────────────────
  **A SPLIT KEEPS WHAT THE NAMES OF A MODULE MEAN.**

  The meaning of a statement is its tree with a reference to a path in the
  place of everything that comes from a watched module:

      before the split    handles stand for modules, named members for paths
      after the split     inserted imports stand for paths, nothing is a handle

      _.map(get)   =   ⟨lodash/map⟩(⟨lodash/get⟩)   =   lodash_map(get)

  The two agree where the names of a module are `Clear` (§2): a split resolves
  a handle by the imports above and invents names of its own, so an import
  below its use and a name that is taken already are left out.
-/
import Mathlib.Data.List.Nodup
import ImportSplit.Proofs.SecondRun

namespace ImportSplit

/-! ## §1. Meanings. -/

mutual
/-- A node with its references to modules resolved. -/
inductive Meaning where
  /-- What the module at the path exports by default. -/
  | reference (path : String)
  | name (name : String)
  | member (object : Meaning) (operator property : String)
  | construct (kind : String) (parts : List PartMeaning)
  | token (kind text : String)
/-- A part with its references to modules resolved. -/
inductive PartMeaning where
  | text (text : String)
  | node (meaning : Meaning)
end

mutual
/-- The meaning of a node where `handles` tells the module of a handle, and
`paths` the path that a name stands for. -/
def Node.meaning (handles paths : Scope) : Node → Meaning
  | .identifier name =>
      match paths name with
      | some path => .reference path
      | none => .name name
  | .member object operator property =>
      match object.name?.bind handles with
      | some module => .reference (memberPath module property)
      | none => .member (object.meaning handles paths) operator property
  | .construct kind parts => .construct kind (Part.meanings handles paths parts)
  | .token kind text => .token kind text
/-- The meanings of parts, in order. -/
def Part.meanings (handles paths : Scope) : List Part → List PartMeaning
  | [] => []
  | p :: rest => p.meaning handles paths :: Part.meanings handles paths rest
/-- The meaning of a part. -/
def Part.meaning (handles paths : Scope) : Part → PartMeaning
  | .text text => .text text
  | .node n => .node (n.meaning handles paths)
end

theorem Part.meanings_eq_map (handles paths : Scope) (ps : List Part) :
    Part.meanings handles paths ps = ps.map (Part.meaning handles paths) := by
  induction ps with
  | nil => rfl
  | cons p ps ih => rw [Part.meanings, ih, List.map_cons]

/-- **A substituted node means what the node meant**, if every replaced access
and every name in it does. -/
theorem Node.meaning_direct {scope handles members paths : Scope} {n : Node}
    (haccess : ∀ a ∈ n.accesses, a.objectName?.bind handles = a.objectName?.bind scope)
    (hname : ∀ x ∈ n.identifiers, paths x = members x)
    (hnew : ∀ d ∈ n.directImports scope, paths d.name = some d.path) :
    (n.direct scope).meaning Scope.none paths = n.meaning handles members := by
  induction n using Node.induction with
  | identifier name =>
      show (match paths name with | some path => Meaning.reference path | none => .name name) = _
      rw [hname name List.mem_cons_self]
      rfl
  | token kind text => rfl
  | member object operator property ih =>
      have hself := haccess ⟨object, operator, property⟩ List.mem_cons_self
      simp only [Access.objectName?] at hself
      cases hscope : object.name?.bind scope with
      | some module =>
          obtain ⟨hdirect, himports⟩ := Node.direct_member_of_some operator property hscope
          -- the new name stands for the path that the access referred to
          have hpath : paths (memberName module property) = some (memberPath module property) :=
            hnew (.ofAccess module property) (himports ▸ List.mem_cons_self)
          rw [hdirect]
          simp only [meaning, hself, hscope, hpath]
      | none =>
          obtain ⟨hdirect, himports⟩ := Node.direct_member_of_none operator property hscope
          have hobject := ih (fun a ha => haccess a (List.mem_cons_of_mem _ ha)) hname
            (fun d hd => hnew d (himports ▸ hd))
          -- the access stays an access, since nothing is a handle any more
          have hnohandle : (object.direct scope).name?.bind Scope.none = none := by
            cases (object.direct scope).name? <;> rfl
          rw [hdirect]
          simp only [meaning, hself, hscope, hnohandle, hobject]
  | construct kind parts ih =>
      show Meaning.construct kind (Part.meanings Scope.none paths (Part.directList scope parts))
        = .construct kind (Part.meanings handles members parts)
      rw [Part.meanings_eq_map, Part.meanings_eq_map, Part.directList_eq_map, List.map_map]
      congr 1
      refine List.map_congr_left fun p hp => ?_
      cases p with
      | text text => rfl
      | node n =>
          show PartMeaning.node _ = .node _
          congr 1
          refine ih n hp (fun a ha => haccess a ?_) (fun x hx => hname x ?_)
            (fun d hd => hnew d ?_)
          · show a ∈ Part.accessesOfList parts
            rw [Part.accessesOfList_eq_flatMap]
            exact List.mem_flatMap.2 ⟨_, hp, ha⟩
          · show x ∈ Part.identifiersOfList parts
            rw [Part.identifiersOfList_eq_flatMap]
            exact List.mem_flatMap.2 ⟨_, hp, hx⟩
          · obtain ⟨a, ha, had⟩ := List.mem_filterMap.1 hd
            refine List.mem_filterMap.2 ⟨a, ?_, had⟩
            show a ∈ Part.accessesOfList parts
            rw [Part.accessesOfList_eq_flatMap]
            exact List.mem_flatMap.2 ⟨_, hp, ha⟩

/-! ## §2. The names of a module. -/

/-- The node, if the statement is no import declaration. -/
def Statement.node? : Statement → Option Node
  | importing _ => none
  | other n => some n

/-- What stays of an import is no other statement. -/
theorem Statement.filterMap_node?_kept (w : WatchList) (scope : Scope) (d : ImportDecl) :
    ((importing d).kept w scope).filterMap node? = [] := by
  rcases kept_importing w scope d with ⟨hkept, -⟩ | ⟨e, hkept, -⟩ <;> rw [hkept] <;> rfl

/-- The path of the first of the direct imports that binds a name. -/
def pathIn (ds : List DirectImport) : Scope := fun x =>
  (ds.find? (·.name = x)).map DirectImport.path

/-- Direct imports that bind the same name import the same path. -/
def Consistent (ds : List DirectImport) : Prop :=
  ∀ d ∈ ds, ∀ e ∈ ds, d.name = e.name → d.path = e.path

instance (ds : List DirectImport) : Decidable (Consistent ds) :=
  inferInstanceAs (Decidable (∀ d ∈ ds, ∀ e ∈ ds, d.name = e.name → d.path = e.path))

theorem Consistent.pathIn_eq_some_iff {ds : List DirectImport} (h : Consistent ds)
    {x path : String} : pathIn ds x = some path ↔ ∃ d ∈ ds, d.name = x ∧ d.path = path := by
  constructor
  · intro hx
    obtain ⟨d, hd, hpath⟩ := Option.map_eq_some_iff.1 hx
    have hname : d.name = x := by simpa using List.find?_some hd
    exact ⟨d, List.mem_of_find?_eq_some hd, hname, hpath⟩
  · rintro ⟨d, hd, rfl, rfl⟩
    have hsome : (ds.find? (·.name = d.name)).isSome = true :=
      List.find?_isSome.2 ⟨d, hd, by simp⟩
    obtain ⟨e, he⟩ := Option.isSome_iff_exists.1 hsome
    have hname : e.name = d.name := by simpa using List.find?_some he
    unfold pathIn
    rw [he, Option.map_some, h e (List.mem_of_find?_eq_some he) d hd hname]

namespace Program

/-- The statements that are no import declarations. -/
def others (p : Program) : List Node := p.body.filterMap Statement.node?

/-- The names inside these statements. -/
def identifiers (p : Program) : List String := p.others.flatMap Node.identifiers

/-- The names that import declarations bind. -/
def boundNames (p : Program) : List String :=
  p.imports.flatMap fun d => d.specifiers.filterMap Specifier.bound?

/-- The direct imports for the accesses on handles of the module. -/
def accessImports (w : WatchList) (p : Program) : List DirectImport :=
  p.accesses.filterMap (Access.direct? (scopeAt w p.body))

/-- The names of a module do not get in the way of a split. -/
structure Clear (w : WatchList) (p : Program) : Prop where
  /-- No name is imported twice. -/
  distinct : p.boundNames.Nodup
  /-- A handle is bound above the statements that use it. -/
  ordered : p.body.Pairwise fun s t =>
    ∀ a ∈ s.accesses, ∀ h ∈ t.handles w, a.objectName? ≠ some h.name
  /-- A name made for an access is new. -/
  fresh : ∀ d ∈ p.accessImports w, d.name ∉ p.identifiers ∧ d.name ∉ p.boundNames
  /-- Accesses for which the same name is made are of the same member. -/
  agreeing : Consistent (p.accessImports w)

instance (w : WatchList) (p : Program) : Decidable (p.Clear w) :=
  decidable_of_iff
    (p.boundNames.Nodup
      ∧ (p.body.Pairwise fun s t =>
        ∀ a ∈ s.accesses, ∀ h ∈ t.handles w, a.objectName? ≠ some h.name)
      ∧ (∀ d ∈ p.accessImports w, d.name ∉ p.identifiers ∧ d.name ∉ p.boundNames)
      ∧ Consistent (p.accessImports w))
    ⟨fun ⟨hd, ho, hf, ha⟩ => ⟨hd, ho, hf, ha⟩,
      fun h => ⟨h.distinct, h.ordered, h.fresh, h.agreeing⟩⟩

variable {w : WatchList} {p : Program}

/-- A handle that is bound above its uses is not bound again below them. -/
theorem Clear.scopeAt_eq (h : p.Clear w) {before rest : List Statement} {n : Node}
    (hbody : p.body = before ++ .other n :: rest) {a : Access} (ha : a ∈ n.accesses) :
    a.objectName?.bind (scopeAt w p.body) = a.objectName?.bind (scopeAt w before) := by
  have hordered := h.ordered
  rw [hbody, List.pairwise_append, List.pairwise_cons] at hordered
  cases hx : a.objectName? with
  | none => rfl
  | some x =>
      show scopeAt w p.body x = scopeAt w before x
      -- no statement from here on binds the name
      have hbelow : scopeOf ((Statement.other n :: rest).flatMap (Statement.handles w)) x = none := by
        refine scopeOf_eq_none_iff.2 fun g hg hname => ?_
        obtain ⟨t, ht, hgt⟩ := List.mem_flatMap.1 hg
        rcases List.mem_cons.1 ht with rfl | ht
        · exact absurd hgt List.not_mem_nil
        · exact hordered.2.1.1 t ht a ha g hgt (by rw [hx, hname])
      unfold scopeAt
      rw [hbody, List.flatMap_append, scopeOf_append, hbelow, Option.none_or]

/-- So a statement makes the direct imports that the handles of the whole
module make of it. -/
theorem Clear.directImports_eq (h : p.Clear w) {before rest : List Statement} {n : Node}
    (hbody : p.body = before ++ .other n :: rest) :
    n.directImports (scopeAt w before) = n.directImports (scopeAt w p.body) := by
  refine List.filterMap_congr fun a ha => ?_
  unfold Access.direct?
  rw [h.scopeAt_eq hbody ha]

/-- The inserted imports are those of the named members and of the accesses. -/
theorem Clear.mem_inserted_iff (h : p.Clear w) {d : DirectImport} :
    d ∈ p.inserted w ↔ d ∈ p.members w ∨ d ∈ p.accessImports w := by
  rw [Program.mem_inserted_iff, directImports, mem_inScope_iff]
  constructor
  · rintro ⟨before, s, rest, hbody, hd⟩
    have hs : s ∈ p.body := by simp [hbody]
    cases s with
    | importing c => exact .inl (List.mem_flatMap.2 ⟨_, hs, hd⟩)
    | other n =>
        have hd : d ∈ n.directImports (scopeAt w before) := hd
        rw [h.directImports_eq hbody] at hd
        obtain ⟨a, ha, had⟩ := List.mem_filterMap.1 hd
        exact .inr (List.mem_filterMap.2 ⟨a, List.mem_flatMap.2 ⟨_, hs, ha⟩, had⟩)
  · rintro (hd | hd)
    · obtain ⟨s, hs, hd⟩ := List.mem_flatMap.1 hd
      obtain ⟨before, rest, hbody⟩ := List.append_of_mem hs
      refine ⟨before, s, rest, hbody, ?_⟩
      cases s with
      | importing c => exact hd
      | other n => exact absurd hd List.not_mem_nil
    · obtain ⟨a, ha, had⟩ := List.mem_filterMap.1 hd
      obtain ⟨s, hs, ha⟩ := List.mem_flatMap.1 ha
      obtain ⟨before, rest, hbody⟩ := List.append_of_mem hs
      refine ⟨before, s, rest, hbody, ?_⟩
      cases s with
      | importing c => exact absurd ha List.not_mem_nil
      | other n =>
          show d ∈ n.directImports (scopeAt w before)
          rw [h.directImports_eq hbody]
          exact List.mem_filterMap.2 ⟨a, ha, had⟩

end Program

/-! ## §3. Every inserted name stands for one path. -/

/-- Names that are found specifier by specifier are a part of the names that
the specifiers bind. -/
theorem Specifier.sublist_bound? {α : Type} {f : Specifier → Option α} {name : α → String}
    (hf : ∀ x b, f x = some b → x.bound? = some (name b)) (xs : List Specifier) :
    ((xs.filterMap f).map name).Sublist (xs.filterMap Specifier.bound?) := by
  induction xs with
  | nil => exact .slnil
  | cons x xs ih =>
      cases hx : f x with
      | none =>
          rw [List.filterMap_cons_none hx]
          cases hb : x.bound? with
          | none => rwa [List.filterMap_cons_none hb]
          | some y =>
              rw [List.filterMap_cons_some hb]
              exact ih.cons _
      | some b =>
          rw [List.filterMap_cons_some hx, List.map_cons, List.filterMap_cons_some (hf x b hx)]
          exact ih.cons_cons _

namespace Program

variable {w : WatchList} {p : Program}

/-- Names that are found in the declarations of a module are a part of the names
that it binds. -/
theorem sublist_boundNames {α : Type} {f : Statement → List α} {name : α → String}
    (himport : ∀ d, ((f (.importing d)).map name).Sublist
      (d.specifiers.filterMap Specifier.bound?))
    (hother : ∀ n, f (.other n) = []) (p : Program) :
    ((p.body.flatMap f).map name).Sublist p.boundNames := by
  unfold boundNames imports
  induction p.body with
  | nil => exact .slnil
  | cons s rest ih =>
      rw [List.flatMap_cons, List.map_append]
      cases s with
      | importing d => exact (himport d).append ih
      | other n =>
          rw [hother]
          exact ih

/-- The named members of a module keep names that it binds. -/
theorem members_sublist (w : WatchList) (p : Program) :
    ((p.members w).map DirectImport.name).Sublist p.boundNames := by
  refine sublist_boundNames (fun d => ?_) (fun _ => rfl) p
  show ((if w.watches d.source = true then d.members else []).map DirectImport.name).Sublist _
  by_cases hw : w.watches d.source = true
  · rw [if_pos hw]
    exact Specifier.sublist_bound? (fun _ _ => Specifier.bound?_of_member?) d.specifiers
  · rw [if_neg hw]
    exact List.nil_sublist _

theorem name_mem_boundNames {d : DirectImport} (hd : d ∈ p.members w) :
    d.name ∈ p.boundNames :=
  (members_sublist w p).mem (List.mem_map_of_mem hd)

theorem Clear.consistent_members (h : p.Clear w) : Consistent (p.members w) := by
  intro d hd e he hname
  have hnodup : ((p.members w).map DirectImport.name).Nodup :=
    (members_sublist w p).nodup h.distinct
  rw [List.inj_on_of_nodup_map hnodup hd he hname]

/-- **No two inserted imports bind the same name to different paths.** -/
theorem Clear.consistent_inserted (h : p.Clear w) : Consistent (p.inserted w) := by
  intro d hd e he hname
  -- two members, a member and an access, an access and a member, two accesses
  rcases h.mem_inserted_iff.1 hd with hd | hd <;> rcases h.mem_inserted_iff.1 he with he | he
  · exact h.consistent_members d hd e he hname
  · exact absurd (hname ▸ name_mem_boundNames hd) (h.fresh e he).2
  · exact absurd (hname ▸ name_mem_boundNames he) (h.fresh d hd).2
  · exact h.agreeing d hd e he hname

/-- A name of the module stands for the same path before and after the split. -/
theorem Clear.pathIn_inserted (h : p.Clear w) {x : String} (hx : x ∈ p.identifiers) :
    pathIn (p.inserted w) x = pathIn (p.members w) x := by
  refine Option.ext fun path => ?_
  rw [h.consistent_inserted.pathIn_eq_some_iff, h.consistent_members.pathIn_eq_some_iff]
  constructor
  · rintro ⟨d, hd, rfl, hpath⟩
    rcases h.mem_inserted_iff.1 hd with hd | hd
    · exact ⟨d, hd, rfl, hpath⟩
    · exact absurd hx (h.fresh d hd).1
  · rintro ⟨d, hd, hname, hpath⟩
    exact ⟨d, h.mem_inserted_iff.2 (.inl hd), hname, hpath⟩

/-! ## §4. The split. -/

/-- A statement of the module means the same at its place after the split. -/
theorem Clear.meaning_direct (h : p.Clear w) {before rest : List Statement} {n : Node}
    (hbody : p.body = before ++ .other n :: rest) :
    (n.direct (scopeAt w before)).meaning Scope.none (pathIn (p.inserted w))
      = n.meaning (scopeAt w p.body) (pathIn (p.members w)) := by
  have hn : n ∈ p.others := by
    refine List.mem_filterMap.2 ⟨.other n, ?_, rfl⟩
    simp [hbody]
  refine Node.meaning_direct (fun a ha => h.scopeAt_eq hbody ha) (fun x hx => ?_) (fun d hd => ?_)
  · exact h.pathIn_inserted (List.mem_flatMap.2 ⟨n, hn, hx⟩)
  · have hinserted : d ∈ p.inserted w :=
      Program.mem_inserted_iff.2 (mem_inScope_iff.2 ⟨before, .other n, rest, hbody, hd⟩)
    exact h.consistent_inserted.pathIn_eq_some_iff.2 ⟨d, hinserted, rfl, rfl⟩

/-- Inserted imports are no other statements. -/
theorem filterMap_node?_insertImports (ds : List DirectImport) (body : List Statement) :
    (insertImports (ds.map DirectImport.statement) body).filterMap Statement.node?
      = body.filterMap Statement.node? := by
  have hinserted : (ds.map DirectImport.statement).filterMap Statement.node? = [] := by
    rw [List.filterMap_map]
    exact List.filterMap_eq_nil_iff.2 fun d _ => rfl
  unfold insertImports
  rw [List.filterMap_append, List.filterMap_append, hinserted, List.append_nil,
    ← List.filterMap_append, List.take_append_drop]

/-- The other statements of a split module are the other statements among what is
kept. -/
theorem others_split (w : WatchList) (p : Program) :
    (p.split w).others = (p.kept w).filterMap Statement.node? := by
  unfold others
  rw [p.split_body w, filterMap_node?_insertImports]

/-- The other statements of a split module are those of the module, each
substituted in the scope before it. -/
theorem map_others_split {α : Type} {f g : Node → α}
    (h : ∀ before n rest, p.body = before ++ .other n :: rest →
      f (n.direct (scopeAt w before)) = g n) :
    (p.split w).others.map f = p.others.map g := by
  -- the induction is on the statements that follow a place in the module
  have hafter : ∀ rest before : List Statement, p.body = before ++ rest →
      ((inScopeAfter w (Statement.kept w) before rest).filterMap Statement.node?).map f
        = (rest.filterMap Statement.node?).map g := by
    intro rest
    induction rest with
    | nil => exact fun _ _ => rfl
    | cons s rest ih =>
        intro before hbody
        have hrest := ih (before ++ [s]) (by rw [hbody, List.append_assoc]; rfl)
        rw [inScopeAfter, List.filterMap_append, List.map_append, hrest]
        cases s with
        | importing d =>
            rw [Statement.filterMap_node?_kept]
            rfl
        | other n =>
            show f (n.direct (scopeAt w before)) :: _ = g n :: _
            rw [h before n rest hbody]
            rfl
  rw [others_split, kept, inScope_eq]
  exact hafter p.body [] rfl

/-- **A split keeps the meaning of every statement.**  If the names of the
module are clear, its statements with handles and named members resolved are
those of the split module with the imports resolved that were inserted there, and
every inserted name stands for one path. -/
theorem meaning_split (h : p.Clear w) :
    (p.split w).others.map (Node.meaning Scope.none (pathIn (p.inserted w)))
        = p.others.map (Node.meaning (scopeAt w p.body) (pathIn (p.members w)))
      ∧ Consistent (p.inserted w) :=
  ⟨map_others_split fun _ _ _ hbody => h.meaning_direct hbody, h.consistent_inserted⟩

/-- A module with a default, a renamed and a whole import, whose last statement
is `each(_.chunk.size, (fp).flow)`. -/
def sample : Program where
  body := [
    .importing { specifiers := [.byDefault (some "_"), .named (some "map") (some "each")]
                 source := "lodash" },
    .importing { specifiers := [.whole (some "fp")], source := "lodash/fp" },
    .other (.construct "call_expression" [
      .node (.identifier "each"), .text "(",
      .node (.member (.member (.identifier "_") "." "chunk") "." "size"), .text ", ",
      .node (.member (.construct "parenthesized_expression"
        [.text "(", .node (.identifier "fp"), .text ")"]) "." "flow"), .text ")"])]

theorem meaning_split_sample :
    sample.Clear ⟨["lodash", "lodash/fp"]⟩
      ∧ (sample.split ⟨["lodash", "lodash/fp"]⟩).others.map
          (Node.meaning Scope.none (pathIn (sample.inserted ⟨["lodash", "lodash/fp"]⟩)))
        = [.construct "call_expression" [
            .node (.reference "lodash/map"), .text "(",
            .node (.member (.reference "lodash/chunk") "." "size"), .text ", ",
            .node (.reference "lodash/fp/flow"), .text ")"]] :=
  ⟨by decide, (meaning_split (by decide)).1⟩

end Program

end ImportSplit
