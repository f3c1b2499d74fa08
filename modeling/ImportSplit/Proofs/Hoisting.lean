/-
  ImportSplit.Proofs.Hoisting
  ────────────────────────────────
  **WHERE AN IMPORT STANDS.**

  An import takes effect in all of its module, wherever it stands.  A split goes
  through the module once, from the top, so it tells the two apart:

      A, d, B        accesses of A on handles of d stay
      d, A, B        accesses of A on handles of d are rewritten

  If no name is imported twice, this is all the difference: with the import at
  the top, the direct imports of those accesses come on top of the others
  (`inserted_around_perm`).  So the two are split alike exactly if nothing above
  the import is an access on one of its handles (`split_around_iff`).
-/
import ImportSplit.Proofs.Meaning

namespace ImportSplit

/-! ## §1. Handles in any order. -/

/-- Where names are distinct, a name stands for the module of its one handle. -/
theorem scopeOf_eq_some_iff {hs : List Handle} (hnodup : (hs.map Handle.name).Nodup)
    {x module : String} : scopeOf hs x = some module ↔ ⟨x, module⟩ ∈ hs := by
  constructor
  · intro h
    obtain ⟨g, hg, rfl⟩ := Option.map_eq_some_iff.1 h
    obtain rfl : g.name = x := by simpa using List.find?_some hg
    exact List.mem_reverse.1 (List.mem_of_find?_eq_some hg)
  · intro hmem
    cases hx : scopeOf hs x with
    | none => exact absurd rfl (scopeOf_eq_none_iff.1 hx _ hmem)
    | some other =>
        obtain ⟨g, hg, rfl⟩ := Option.map_eq_some_iff.1 hx
        have hname : g.name = x := by simpa using List.find?_some hg
        have hgmem : g ∈ hs := List.mem_reverse.1 (List.mem_of_find?_eq_some hg)
        rw [List.inj_on_of_nodup_map hnodup hgmem hmem hname]

/-- So the order of the handles does not matter. -/
theorem scopeOf_perm {hs hs' : List Handle} (hnodup : (hs.map Handle.name).Nodup)
    (hperm : hs.Perm hs') : scopeOf hs = scopeOf hs' := by
  have hnodup' : (hs'.map Handle.name).Nodup := (hperm.map _).nodup_iff.1 hnodup
  refine funext fun x => Option.ext fun module => ?_
  rw [scopeOf_eq_some_iff hnodup, scopeOf_eq_some_iff hnodup', hperm.mem_iff]

/-- The names of the handles of a module are names that it binds. -/
theorem Specifier.bound?_of_handle? {module : String} {x : Specifier} {h : Handle}
    (hx : x.handle? module = some h) : x.bound? = some h.name := by
  cases x with
  | byDefault bound | whole bound =>
      obtain ⟨b, hb, rfl⟩ := Option.map_eq_some_iff.1 hx
      exact hb
  | named exported bound =>
      simp only [handle?] at hx
      split at hx
      · obtain ⟨b, hb, rfl⟩ := Option.map_eq_some_iff.1 hx
        exact hb
      · cases hx
  | typeOnly exported bound => cases hx

theorem Program.handles_sublist (w : WatchList) (p : Program) :
    ((p.body.flatMap (Statement.handles w)).map Handle.name).Sublist p.boundNames := by
  refine sublist_boundNames (fun d => ?_) (fun _ => rfl) p
  show ((if w.watches d.source = true then d.handles else []).map Handle.name).Sublist _
  by_cases hw : w.watches d.source = true
  · rw [if_pos hw]
    exact Specifier.sublist_bound? (fun _ _ => Specifier.bound?_of_handle?) d.specifiers
  · rw [if_neg hw]
    exact List.nil_sublist _

/-! ## §2. A node in two scopes. -/

/-- A node is rewritten alike where its accesses are on the same modules. -/
theorem Node.direct_congr {scope scope' : Scope} (n : Node) :
    (∀ a ∈ n.accesses, a.objectName?.bind scope = a.objectName?.bind scope') →
      n.direct scope = n.direct scope' := by
  induction n using Node.induction with
  | identifier name => exact fun _ => rfl
  | token kind text => exact fun _ => rfl
  | member object operator property ih =>
      intro h
      have hself := h ⟨object, operator, property⟩ List.mem_cons_self
      simp only [Access.objectName?] at hself
      simp only [direct, hself, ih fun a ha => h a (List.mem_cons_of_mem _ ha)]
  | construct kind parts ih =>
      intro h
      rw [direct, direct, Part.directList_eq_map, Part.directList_eq_map]
      congr 1
      refine List.map_congr_left fun p hp => ?_
      cases p with
      | text text => rfl
      | node n =>
          show Part.node _ = Part.node _
          rw [ih n hp fun a ha => h a ?_]
          show a ∈ Part.accessesOfList parts
          rw [Part.accessesOfList_eq_flatMap]
          exact List.mem_flatMap.2 ⟨_, hp, ha⟩

/-- In a scope put together of two that share no name, accesses make the imports
that they make in the one and in the other. -/
theorem filterMap_direct?_or {scope inner outer : Scope}
    (hor : ∀ x, scope x = (inner x).or (outer x))
    (hdisjoint : ∀ x, inner x = none ∨ outer x = none) (as : List Access) :
    (as.filterMap (Access.direct? scope)).Perm
      (as.filterMap (Access.direct? inner) ++ as.filterMap (Access.direct? outer)) := by
  induction as with
  | nil => exact .nil
  | cons a as ih =>
      have hself : (a.direct? scope = a.direct? inner ∧ a.direct? outer = none)
          ∨ (a.direct? scope = a.direct? outer ∧ a.direct? inner = none) := by
        unfold Access.direct?
        cases a.objectName? with
        | none => exact .inl ⟨rfl, rfl⟩
        | some x =>
            simp only [Option.bind_some, hor x]
            rcases hdisjoint x with hx | hx <;> simp [hx]
      rcases hself with ⟨hscope, hnone⟩ | ⟨hscope, hnone⟩
      · rw [List.filterMap_cons, List.filterMap_cons, List.filterMap_cons, hscope, hnone]
        cases a.direct? inner with
        | none => exact ih
        | some m => exact ih.cons m
      · rw [List.filterMap_cons, List.filterMap_cons, List.filterMap_cons, hscope, hnone]
        cases a.direct? outer with
        | none => exact ih
        | some m => exact (ih.cons m).trans List.perm_middle.symm

/-! ## §3. Statements below one more. -/

section
variable {w : WatchList}

/-- No two handles that the statements bind have the same name. -/
def DistinctHandles (w : WatchList) (l : List Statement) : Prop :=
  ((l.flatMap (Statement.handles w)).map Handle.name).Nodup

theorem DistinctHandles.append_left {l more : List Statement} (h : DistinctHandles w (l ++ more)) :
    DistinctHandles w l := by
  unfold DistinctHandles at h
  rw [List.flatMap_append, List.map_append] at h
  exact (List.nodup_append.1 h).1

theorem scopeAt_perm {before before' : List Statement} (h : DistinctHandles w before)
    (hperm : before.Perm before') : scopeAt w before = scopeAt w before' :=
  scopeOf_perm h (hperm.flatMap_right _)

/-- What statements give does not depend on the order of those above. -/
theorem inScopeAfter_perm {α : Type} (f : Scope → Statement → List α) (rest : List Statement) :
    ∀ {before before' : List Statement}, DistinctHandles w (before ++ rest) →
      before.Perm before' → inScopeAfter w f before rest = inScopeAfter w f before' rest := by
  induction rest with
  | nil => exact fun _ _ => rfl
  | cons s rest ih =>
      intro before before' h hperm
      have hscope := scopeAt_perm h.append_left hperm
      have hdistinct : DistinctHandles w (before ++ [s] ++ rest) := by simpa using h
      have hrest := ih hdistinct (hperm.append_right [s])
      rw [inScopeAfter, inScopeAfter, hscope, hrest]

/-- The direct imports for the accesses of statements on handles of `t`. -/
def importsOn (w : WatchList) (t : Statement) (l : List Statement) : List DirectImport :=
  l.flatMap fun s => s.accesses.filterMap (Access.direct? (scopeOf (t.handles w)))

theorem importsOn_eq_nil_iff {t : Statement} {l : List Statement} :
    importsOn w t l = []
      ↔ ∀ s ∈ l, ∀ a ∈ s.accesses, ∀ h ∈ t.handles w, a.objectName? ≠ some h.name := by
  unfold importsOn
  simp only [List.flatMap_eq_nil_iff, List.filterMap_eq_nil_iff]
  refine forall₄_congr fun s _ a _ => ?_
  unfold Access.direct?
  rw [Option.map_eq_none_iff, Option.bind_eq_none_iff]
  constructor
  · intro hnone h hh hname
    exact scopeOf_eq_none_iff.1 (hnone h.name hname) h hh rfl
  · intro hne x hx
    refine scopeOf_eq_none_iff.2 fun h hh hname => hne h hh ?_
    rw [hx, hname]

/-- A statement at the top binds its handles below all others. -/
theorem scopeAt_cons (t : Statement) (above : List Statement) (x : String) :
    scopeAt w (t :: above) x = (scopeAt w above x).or (scopeOf (t.handles w) x) := by
  unfold scopeAt
  rw [List.flatMap_cons, scopeOf_append]

theorem DistinctHandles.disjoint {t : Statement} {above : List Statement}
    (h : DistinctHandles w (t :: above)) (x : String) :
    scopeAt w above x = none ∨ scopeOf (t.handles w) x = none := by
  unfold DistinctHandles at h
  rw [List.flatMap_cons, List.map_append, List.nodup_append] at h
  unfold scopeAt
  rw [scopeOf_eq_none_iff, scopeOf_eq_none_iff]
  by_cases hx : ∃ g ∈ t.handles w, g.name = x
  · obtain ⟨g, hg, rfl⟩ := hx
    exact .inl fun k hk hname =>
      h.2.2 _ (List.mem_map_of_mem hg) _ (List.mem_map_of_mem hk) hname.symm
  · exact .inr fun g hg hname => hx ⟨g, hg, hname⟩

/-- With one more statement at the top, statements make the direct imports for
accesses on its handles on top of the others. -/
theorem directImports_below (t : Statement) :
    ∀ rest above : List Statement, DistinctHandles w (t :: above ++ rest) →
      (inScopeAfter w (Statement.directImports w) (t :: above) rest).Perm
        (inScopeAfter w (Statement.directImports w) above rest ++ importsOn w t rest) := by
  intro rest
  induction rest with
  | nil => exact fun _ _ => .nil
  | cons s rest ih =>
      intro above h
      have hrest := ih (above ++ [s]) (by simpa using h)
      have hself : (s.directImports w (scopeAt w (t :: above))).Perm
          (s.directImports w (scopeAt w above)
            ++ s.accesses.filterMap (Access.direct? (scopeOf (t.handles w)))) := by
        cases s with
        | importing d =>
            show List.Perm _ (_ ++ [])
            rw [List.append_nil]
            exact .rfl
        | other n =>
            exact filterMap_direct?_or (scopeAt_cons t above) h.append_left.disjoint n.accesses
      have hsplit : importsOn w t (s :: rest)
          = s.accesses.filterMap (Access.direct? (scopeOf (t.handles w))) ++ importsOn w t rest :=
        List.flatMap_cons
      rw [inScopeAfter, inScopeAfter, hsplit]
      refine (hself.append hrest).trans ?_
      -- the two lists in the middle change places
      rw [List.append_assoc, List.append_assoc]
      refine .append_left _ ?_
      rw [← List.append_assoc, ← List.append_assoc]
      exact List.perm_append_comm.append_right _

/-- Statements without such accesses stay as they are. -/
theorem kept_below {t : Statement} :
    ∀ rest above : List Statement, importsOn w t rest = [] →
      inScopeAfter w (Statement.kept w) (t :: above) rest
        = inScopeAfter w (Statement.kept w) above rest := by
  intro rest
  induction rest with
  | nil => exact fun _ _ => rfl
  | cons s rest ih =>
      intro above h
      rw [importsOn_eq_nil_iff, List.forall_mem_cons] at h
      have hrest := ih (above ++ [s]) (importsOn_eq_nil_iff.2 h.2)
      have hself : s.kept w (scopeAt w (t :: above)) = s.kept w (scopeAt w above) := by
        cases s with
        | importing d => rfl
        | other n =>
            show [Statement.other _] = [Statement.other _]
            rw [n.direct_congr fun a ha => ?_]
            cases hx : a.objectName? with
            | none => rfl
            | some x =>
                have hnone : scopeOf (t.handles w) x = none :=
                  scopeOf_eq_none_iff.2 fun g hg hname => h.1 a ha g hg (by rw [hx, hname])
                show scopeAt w (t :: above) x = scopeAt w above x
                rw [scopeAt_cons, hnone, Option.or_none]
      rw [inScopeAfter, inScopeAfter, hself]
      exact congrArg _ hrest

end

/-! ## §4. An import moved to the top. -/

namespace Program

/-- An import declaration among other statements. -/
def around (above : List Statement) (d : ImportDecl) (below : List Statement) : Program :=
  ⟨above ++ .importing d :: below⟩

variable {w : WatchList} {above below : List Statement} {d : ImportDecl}

theorem around_perm :
    (around [] d (above ++ below)).body.Perm (around above d below).body :=
  List.perm_middle.symm

theorem distinctHandles_around (h : (around above d below).boundNames.Nodup) :
    DistinctHandles w (.importing d :: (above ++ below)) :=
  ((around_perm.flatMap_right _).map _).nodup_iff.2
    ((handles_sublist w (around above d below)).nodup h)

/-- What a module around an import gives: what is above the import, the import
itself, and what is below. -/
theorem inScope_around {α : Type} (f : Scope → Statement → List α) :
    (around above d below).inScope w f
      = inScopeAfter w f [] above ++ (f (scopeAt w above) (.importing d)
        ++ inScopeAfter w f (above ++ [.importing d]) below) := by
  rw [inScope_eq]
  exact inScopeAfter_append f [] above (.importing d :: below)

/-- With the import at the top, only the statements above it are in another scope. -/
theorem inScope_around_top {α : Type} (f : Scope → Statement → List α)
    (h : (around above d below).boundNames.Nodup) :
    (around [] d (above ++ below)).inScope w f
      = f (scopeAt w []) (.importing d) ++ (inScopeAfter w f [.importing d] above
        ++ inScopeAfter w f (above ++ [.importing d]) below) := by
  have hbelow : inScopeAfter w f (.importing d :: above) below
      = inScopeAfter w f (above ++ [.importing d]) below :=
    inScopeAfter_perm f below (distinctHandles_around h) (List.perm_append_singleton _ _).symm
  rw [inScope_around, inScopeAfter_append, ← hbelow]
  rfl

/-- At the top an import makes the direct imports for the accesses above it on
its handles, besides all others. -/
theorem directImports_around_perm (h : (around above d below).boundNames.Nodup) :
    ((around [] d (above ++ below)).directImports w).Perm
      ((around above d below).directImports w ++ importsOn w (.importing d) above) := by
  have habove := directImports_below (w := w) (.importing d) above []
    (distinctHandles_around h).append_left
  rw [directImports, directImports, inScope_around_top _ h, inScope_around]
  show (((Statement.importing d).directImports w (scopeAt w above)) ++ _).Perm _
  refine List.perm_iff_count.2 fun e => ?_
  have hcount := habove.count_eq e
  simp only [List.count_append] at hcount ⊢
  omega

/-- **With the import at the top, its split holds the direct imports for the
accesses above it on its handles, besides all others.** -/
theorem inserted_around_perm (h : (around above d below).boundNames.Nodup) :
    ((around [] d (above ++ below)).inserted w).Perm
      ((around above d below).inserted w ++ importsOn w (.importing d) above) :=
  ((inserted_perm w _).trans (directImports_around_perm h)).trans
    ((inserted_perm w _).symm.append_right _)

/-- Without such accesses the other statements are rewritten alike. -/
theorem others_around (h : (around above d below).boundNames.Nodup)
    (hnone : importsOn w (.importing d) above = []) :
    ((around [] d (above ++ below)).split w).others = ((around above d below).split w).others := by
  rw [others_split, others_split, kept, kept, inScope_around_top _ h, inScope_around,
    kept_below above [] hnone]
  simp only [List.filterMap_append, Statement.filterMap_node?_kept, List.nil_append]

/-- The accesses of a module are those of its other statements. -/
theorem accesses_eq (p : Program) : p.accesses = p.others.flatMap Node.accesses := by
  unfold accesses others
  induction p.body with
  | nil => rfl
  | cons s rest ih =>
      rw [List.flatMap_cons, ih]
      cases s with
      | importing d => rfl
      | other n => rfl

/-- In modules of the same statements that keep the same accesses, as many direct
imports are inserted. -/
theorem length_inserted_eq {p q : Program} (hperm : p.body.Perm q.body)
    (h : (p.split w).others = (q.split w).others) :
    (p.inserted w).length = (q.inserted w).length := by
  have hp := p.accessCount_split w
  have hq := q.accessCount_split w
  have hsplit : (p.split w).accessCount = (q.split w).accessCount := by
    rw [accessCount, accessCount, accesses_eq, accesses_eq, h]
  have hcount : p.accessCount = q.accessCount := (hperm.flatMap_right _).length_eq
  have hmembers : (p.members w).length = (q.members w).length :=
    (hperm.flatMap_right _).length_eq
  rw [(inserted_perm w p).length_eq, (inserted_perm w q).length_eq]
  omega

/-- **An import may be moved to the top exactly if nothing above it is an access
on one of its handles.**  If no name is imported twice, this is when the other
statements are rewritten alike, and it is when the same direct imports stand in
the split modules. -/
theorem split_around_iff (h : (around above d below).boundNames.Nodup) :
    (((around above d below).split w).others = ((around [] d (above ++ below)).split w).others
      ↔ ∀ s ∈ above, ∀ a ∈ s.accesses, ∀ g ∈ (Statement.importing d).handles w,
          a.objectName? ≠ some g.name)
      ∧ (((around above d below).inserted w).Perm ((around [] d (above ++ below)).inserted w)
        ↔ ∀ s ∈ above, ∀ a ∈ s.accesses, ∀ g ∈ (Statement.importing d).handles w,
          a.objectName? ≠ some g.name) := by
  rw [← importsOn_eq_nil_iff]
  have hinserted := inserted_around_perm (w := w) h
  -- as many direct imports on both sides leave none for such accesses
  have hnil : ((around above d below).inserted w).length
      = ((around [] d (above ++ below)).inserted w).length → importsOn w (.importing d) above = [] := by
    intro hlength
    have hsum := hinserted.length_eq
    rw [List.length_append] at hsum
    exact List.length_eq_zero_iff.1 (by omega)
  refine ⟨⟨fun hsame => hnil (length_inserted_eq around_perm.symm hsame), fun hnone => ?_⟩,
    ⟨fun hperm => hnil hperm.length_eq, fun hnone => ?_⟩⟩
  · exact (others_around h hnone).symm
  · rw [hnone, List.append_nil] at hinserted
    exact hinserted.symm

/-- `_.map`, as a statement. -/
def mapUse : Statement := .other (.member (.identifier "_") "." "map")

/-- `import _ from "lodash";`, as it is built. -/
def lodashImport : ImportDecl := { specifiers := [.byDefault (some "_")], source := "lodash" }

theorem split_around_iff_below :
    (around [.other (.identifier "_")] lodashImport [mapUse]).boundNames.Nodup
      ∧ ((around [.other (.identifier "_")] lodashImport [mapUse]).split .standard).others
        = ((around [] lodashImport [.other (.identifier "_"), mapUse]).split .standard).others
      ∧ ((around [.other (.identifier "_")] lodashImport [mapUse]).inserted .standard).Perm
        ((around [] lodashImport [.other (.identifier "_"), mapUse]).inserted .standard) := by
  have hnodup : (around [.other (.identifier "_")] lodashImport [mapUse]).boundNames.Nodup := by
    decide
  obtain ⟨hothers, hinserted⟩ := split_around_iff (w := .standard) hnodup
  -- a bare name is no access
  exact ⟨hnodup, hothers.2 (by decide), hinserted.2 (by decide)⟩

/-- An access above its import stays, and would be rewritten below it: `_.map`
before `import _ from "lodash";`. -/
theorem not_split_around_eq :
    ¬ ∀ (w : WatchList) (above below : List Statement) (d : ImportDecl),
      w.watches d.source = true → (around above d below).boundNames.Nodup →
      ((around above d below).split w).others
          = ((around [] d (above ++ below)).split w).others
        ∧ ((around above d below).inserted w).Perm
          ((around [] d (above ++ below)).inserted w) := by
  intro h
  obtain ⟨hothers, -⟩ := h .standard [mapUse] [] lodashImport (by decide) (by decide)
  exact absurd hothers (by decide +kernel)

end Program

end ImportSplit
