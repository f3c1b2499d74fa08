/-
  ImportSplit.Proofs.SecondRun
  ────────────────────────────────
  **SPLITTING A MODULE THAT WAS SPLIT.**

  A split is counted in two ways:

    • accesses (`accessCount_split`) — every access on a handle turns into a
      direct import, every named member adds one more;
    • statements (`statementCount_split`) — every direct import adds a
      statement, every watched import without types takes one away.

  In a module that was split, a watched import either has nothing but types
  (§2), which a second split rebuilds as they are, or it was inserted by the
  first, and then both counts cannot stay the same.
-/
import ImportSplit.Proofs.InsertedImports

namespace ImportSplit

/-! ## §1. Two counts. -/

namespace Statement

/-- The named members of a watched import. -/
def members (w : WatchList) : Statement → List DirectImport
  | importing d => if w.watches d.source then d.members else []
  | other _ => []

theorem accessCount_kept (w : WatchList) (scope : Scope) (s : Statement) :
    ((s.kept w scope).flatMap accesses).length + (s.directImports w scope).length
      = s.accesses.length + (s.members w).length := by
  cases s with
  | importing d =>
      -- neither the import nor what is left of it holds an access
      have hnone : ((importing d).kept w scope).flatMap accesses = [] := by
        rcases kept_importing w scope d with ⟨hkept, -⟩ | ⟨e, hkept, -⟩ <;> rw [hkept] <;> rfl
      rw [hnone]
      rfl
  | other n =>
      have hn := n.accessCount_direct scope
      simp only [Node.accessCount] at hn
      simpa [kept, directImports, members, accesses] using hn

theorem length_kept (w : WatchList) (scope : Scope) (s : Statement) :
    (s.kept w scope).length + (if s.goesAway w then 1 else 0) = 1 := by
  cases s with
  | importing d =>
      rcases kept_importing w scope d with ⟨hkept, hgone⟩ | ⟨e, hkept, hstays⟩
      · rw [hkept, hgone]
        rfl
      · rw [hkept, hstays]
        rfl
  | other n => rfl

end Statement

theorem accessCount_inScopeAfter (w : WatchList) :
    ∀ (rest before : List Statement),
      ((inScopeAfter w (Statement.kept w) before rest).flatMap Statement.accesses).length
          + (inScopeAfter w (Statement.directImports w) before rest).length
        = (rest.flatMap Statement.accesses).length
          + (rest.flatMap (Statement.members w)).length := by
  intro rest
  induction rest with
  | nil => exact fun _ => rfl
  | cons s rest ih =>
      intro before
      have hs := s.accessCount_kept w (scopeAt w before)
      have hrest := ih (before ++ [s])
      simp only [inScopeAfter, List.flatMap_append, List.flatMap_cons, List.length_append]
      omega

theorem length_inScopeAfter_kept (w : WatchList) :
    ∀ (rest before : List Statement),
      (inScopeAfter w (Statement.kept w) before rest).length
          + rest.countP (Statement.goesAway w) = rest.length := by
  intro rest
  induction rest with
  | nil => exact fun _ => rfl
  | cons s rest ih =>
      intro before
      have hs := s.length_kept w (scopeAt w before)
      have hrest := ih (before ++ [s])
      simp only [inScopeAfter, List.length_append, List.countP_cons, List.length_cons]
      omega

namespace Program

/-- The named members of the watched imports of a module. -/
def members (w : WatchList) (p : Program) : List DirectImport :=
  p.body.flatMap (Statement.members w)

/-- **Accesses and direct imports of a split module are as many as accesses and
named members of the module.** -/
theorem accessCount_split (w : WatchList) (p : Program) :
    (p.split w).accessCount + (p.directImports w).length
      = p.accessCount + (p.members w).length := by
  have hinserted : ∀ ds : List DirectImport,
      (ds.map DirectImport.statement).flatMap Statement.accesses = [] := by
    intro ds
    induction ds with
    | nil => rfl
    | cons d ds ih => exact ih
  unfold accessCount accesses
  rw [((p.split_body_perm w).flatMap_right _).length_eq, List.flatMap_append, hinserted,
    List.nil_append]
  unfold kept directImports
  rw [inScope_eq, inScope_eq]
  exact accessCount_inScopeAfter w p.body []

/-- **Statements of a split module are as many as the statements that do not go
away and the direct imports.** -/
theorem statementCount_split (w : WatchList) (p : Program) :
    (p.split w).body.length + p.body.countP (Statement.goesAway w)
      = p.body.length + (p.directImports w).length := by
  rw [(p.split_body_perm w).length_eq, List.length_append, List.length_map]
  have hkept : (p.kept w).length + p.body.countP (Statement.goesAway w) = p.body.length := by
    unfold kept
    rw [inScope_eq]
    exact length_inScopeAfter_kept w p.body []
  omega

end Program

/-! ## §2. Modules that a split leaves alone. -/

/-- A statement that a split leaves alone where nothing is a handle: if it is a
watched import, it was built to hold types, at least one, and nothing else. -/
def Statement.Settled (w : WatchList) : Statement → Prop
  | importing d => w.watches d.source = true →
      d.raw = none ∧ d.specifiers ≠ [] ∧ ∀ x ∈ d.specifiers, x.isFullType = true
  | other _ => True

/-- A full type binds no handle and is no member. -/
theorem Specifier.handle?_member?_of_isFullType {x : Specifier} (hx : x.isFullType = true)
    (module : String) : x.handle? module = none ∧ x.member? module = none := by
  rcases x.role_cases module with ⟨_, -, -, -, ht⟩ | ⟨_, -, -, -, ht⟩ | ⟨-, hh, hm⟩
  · rw [hx] at ht
    cases ht
  · rw [hx] at ht
    cases ht
  · exact ⟨hh, hm⟩

/-- A declaration of nothing but full types binds no handle, has no named
member, and is rebuilt as it is. -/
theorem ImportDecl.of_full_types {d : ImportDecl}
    (h : ∀ x ∈ d.specifiers, x.isFullType = true) :
    d.handles = [] ∧ d.members = [] ∧ d.types = d.specifiers := by
  refine ⟨?_, ?_, List.filter_eq_self.2 h⟩
  · exact List.filterMap_eq_nil_iff.2 fun x hx =>
      (Specifier.handle?_member?_of_isFullType (h x hx) d.source).1
  · exact List.filterMap_eq_nil_iff.2 fun x hx =>
      (Specifier.handle?_member?_of_isFullType (h x hx) d.source).2

namespace Statement

theorem Settled.handles_eq_nil {w : WatchList} {s : Statement} (h : s.Settled w) :
    s.handles w = [] := by
  cases s with
  | importing d =>
      show (if w.watches d.source = true then d.handles else []) = []
      by_cases hw : w.watches d.source = true
      · rw [if_pos hw]
        exact (ImportDecl.of_full_types (h hw).2.2).1
      · rw [if_neg hw]
  | other n => rfl

/-- A settled statement is kept as it is, and makes no direct import. -/
theorem Settled.kept_eq {w : WatchList} {s : Statement} (h : s.Settled w) {scope : Scope}
    (hscope : ∀ x, scope x = none) :
    s.kept w scope = [s] ∧ s.directImports w scope = [] := by
  cases s with
  | importing d =>
      unfold kept directImports
      by_cases hw : w.watches d.source = true
      · obtain ⟨hraw, hne, hfull⟩ := h hw
        obtain ⟨-, hmembers, htypes⟩ := ImportDecl.of_full_types hfull
        have hd : ({ specifiers := d.specifiers, source := d.source } : ImportDecl) = d := by
          rw [← hraw]
        simp [hw, hmembers, htypes, hne, hd]
      · simp [hw]
  | other n =>
      constructor
      · show [other (n.direct scope)] = [other n]
        rw [Node.direct_of_no_handles hscope]
      · exact Node.directImports_of_no_handles hscope n

end Statement

/-- Behind settled statements no name is a handle. -/
theorem scopeAt_of_settled {w : WatchList} {before : List Statement}
    (h : ∀ s ∈ before, s.Settled w) (x : String) : scopeAt w before x = none := by
  have hnil : before.flatMap (Statement.handles w) = [] :=
    List.flatMap_eq_nil_iff.2 fun s hs => (h s hs).handles_eq_nil
  unfold scopeAt
  rw [hnil]
  rfl

theorem inScopeAfter_of_settled {w : WatchList} :
    ∀ rest before : List Statement, (∀ s ∈ before ++ rest, s.Settled w) →
      inScopeAfter w (Statement.kept w) before rest = rest
        ∧ inScopeAfter w (Statement.directImports w) before rest = [] := by
  intro rest
  induction rest with
  | nil => exact fun _ _ => ⟨rfl, rfl⟩
  | cons s rest ih =>
      intro before h
      have hscope : ∀ x, scopeAt w before x = none :=
        scopeAt_of_settled fun t ht => h t (List.mem_append_left _ ht)
      have hs : s.Settled w := h s (List.mem_append_right _ List.mem_cons_self)
      obtain ⟨hkept, hnone⟩ := hs.kept_eq hscope
      obtain ⟨hrest, hnone'⟩ := ih (before ++ [s]) (by
        rw [List.append_assoc]
        exact h)
      exact ⟨by rw [inScopeAfter, hkept, hrest]; rfl, by rw [inScopeAfter, hnone, hnone']; rfl⟩

/-- A module of settled statements is its own split. -/
theorem Program.split_of_settled {w : WatchList} {q : Program} (h : ∀ s ∈ q.body, s.Settled w) :
    q.split w = q := by
  obtain ⟨hkept, hnone⟩ := inScopeAfter_of_settled q.body [] h
  have hbody : (q.split w).body = q.body := by
    rw [q.split_body w, kept, directImports, inScope_eq, inScope_eq, hkept, hnone,
      List.map_nil, insertImports_nil]
  exact congrArg Program.mk hbody

/-- **A module without named members of watched modules is its own split only if
none of its imports goes away.** -/
theorem Program.goesAway_of_split_eq {w : WatchList} {q : Program} (hmembers : q.members w = [])
    (h : q.split w = q) : ∀ s ∈ q.body, s.goesAway w = false := by
  have haccesses := q.accessCount_split w
  have hstatements := q.statementCount_split w
  rw [h, hmembers, List.length_nil] at haccesses
  rw [h] at hstatements
  -- nothing was queued, by the count of accesses; so nothing went away, by that of statements
  have hcount : q.body.countP (Statement.goesAway w) = 0 := by omega
  intro s hs
  exact Bool.eq_false_iff.2 (List.countP_eq_zero.1 hcount s hs)

/-! ## §3. The second run. -/

/-- What is kept of a statement is settled. -/
theorem Statement.settled_of_mem_kept {w : WatchList} {scope : Scope} {s t : Statement}
    (h : s ∈ t.kept w scope) : s.Settled w := by
  cases t with
  | importing d =>
      rcases mem_kept_importing_iff.1 h with ⟨hw, rfl⟩ | ⟨-, hne, rfl⟩
      · intro hwatched
        rw [hwatched] at hw
        cases hw
      · intro _
        exact ⟨rfl, hne, fun x hx => (List.mem_filter.1 hx).2⟩
  | other n =>
      rw [List.mem_singleton.1 h]
      trivial

/-- A split module has no named members of watched modules left. -/
theorem Program.members_split (w : WatchList) (p : Program) : (p.split w).members w = [] := by
  refine List.flatMap_eq_nil_iff.2 fun s hs => ?_
  rcases Program.mem_split_body hs with ⟨d, -, rfl⟩ | ⟨scope, t, -, hst⟩
  · -- an inserted import binds by default
    show (if w.watches d.path = true then [] else []) = ([] : List DirectImport)
    exact ite_self _
  · have hsettled := Statement.settled_of_mem_kept hst
    cases s with
    | importing d =>
        show (if w.watches d.source = true then d.members else []) = []
        by_cases hw : w.watches d.source = true
        · rw [if_pos hw]
          exact (ImportDecl.of_full_types (hsettled hw).2.2).2.1
        · rw [if_neg hw]
    | other n => rfl

/-- **A second split changes nothing exactly if the first one inserted no import
of a watched module.** -/
theorem Program.split_split_eq_iff (w : WatchList) (p : Program) :
    (p.split w).split w = p.split w ↔ ∀ d ∈ p.queued w, w.watches d.path = false := by
  rw [p.queued_eq w]
  constructor
  · intro h d hd
    have hmem := Program.statement_mem_of_mem_inserted (Program.mem_inserted_iff.2 hd)
    -- an inserted import has no types: if it is watched, it goes away
    have hstays := Program.goesAway_of_split_eq (p.members_split w) h d.statement hmem
    have hgo : (w.watches d.path && true) = false := hstays
    rwa [Bool.and_true] at hgo
  · intro h
    refine Program.split_of_settled fun s hs => ?_
    rcases Program.mem_split_body hs with ⟨d, hd, rfl⟩ | ⟨scope, t, -, hst⟩
    · intro hwatched
      have hw : w.watches d.path = true := hwatched
      rw [h d hd] at hw
      cases hw
    · exact Statement.settled_of_mem_kept hst

end ImportSplit
