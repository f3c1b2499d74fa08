/-
  ImportSplit.Proofs.Remaining
  ────────────────────────────────
  **THE ACCESSES THAT A WALK LEAVES.**

  An access that is not on a handle stays, and its object is walked.  The walk
  may turn that object into a name, also inside of parentheses, and the access
  is not met again:

      ((_.a)).b      _ ↦ lodash      ↦      ((lodash_a)).b

  So an access on a handle can be left, but only on a name that the walk made
  itself:

    • `Node.name?_direct` — what denotes a name after the substitution denoted
      it before, or the name was made inside of it,
    • `Node.makes_of_mem_accesses_direct` — so a handle with an access left on
      it was made,
    • `Split.walk_complete` — the same, said of the walk of a node.
-/
import ImportSplit.Proofs.Stateless

namespace ImportSplit

variable {scope : Scope}

/-! ## §1. Names that are made. -/

/-- The name is that of a direct import which replaces an access of the node. -/
def Node.Makes (scope : Scope) (n : Node) (x : String) : Prop :=
  ∃ d ∈ n.directImports scope, d.name = x

theorem Node.makes_construct_iff {kind : String} {parts : List Part} {x : String} :
    (Node.construct kind parts).Makes scope x ↔ ∃ n, .node n ∈ parts ∧ n.Makes scope x := by
  unfold Makes
  rw [Node.directImports_construct]
  constructor
  · rintro ⟨d, hd, rfl⟩
    obtain ⟨n, hn, hd⟩ := List.mem_flatMap.1 hd
    obtain ⟨p, hp, hpn⟩ := List.mem_filterMap.1 hn
    cases p with
    | text text => cases hpn
    | node m =>
        cases hpn
        exact ⟨n, hp, d, hd, rfl⟩
  · rintro ⟨n, hn, d, hd, rfl⟩
    refine ⟨d, List.mem_flatMap.2 ⟨n, ?_, hd⟩, rfl⟩
    exact List.mem_filterMap.2 ⟨.node n, hn, rfl⟩

/-! ## §2. Names that are denoted. -/

/-- Parentheses stay parentheses. -/
theorem Part.onlyParentheses_directList (ps : List Part) :
    Part.onlyParentheses (Part.directList scope ps) = Part.onlyParentheses ps := by
  induction ps with
  | nil => rfl
  | cons p ps ih =>
      cases p with
      | text text => exact ih
      | node n =>
          show (((n.direct scope).isToken "(" || (n.direct scope).isToken ")")
              && Part.onlyParentheses (Part.directList scope ps))
            = ((n.isToken "(" || n.isToken ")") && Part.onlyParentheses ps)
          rw [Node.isToken_direct, Node.isToken_direct, ih]

/-- The lone name among parts was there before, or is made by one of them. -/
theorem Part.loneName?_directList {ps : List Part} {x : String}
    (hnode : ∀ n, .node n ∈ ps → (n.direct scope).name? = some x →
      n.name? = some x ∨ n.Makes scope x)
    (h : Part.loneName? (Part.directList scope ps) = some x) :
    Part.loneName? ps = some x ∨ ∃ n, .node n ∈ ps ∧ n.Makes scope x := by
  induction ps with
  | nil => cases h
  | cons p ps ih =>
      have hrest := ih fun n hn => hnode n (List.mem_cons_of_mem _ hn)
      have hmore : (∃ n, .node n ∈ ps ∧ n.Makes scope x) →
          ∃ n, .node n ∈ p :: ps ∧ n.Makes scope x := by
        rintro ⟨n, hn, hx⟩
        exact ⟨n, List.mem_cons_of_mem _ hn, hx⟩
      cases p with
      | text text => exact (hrest h).imp_right hmore
      | node n =>
          simp only [directList, direct, loneName?, Node.isToken_direct,
            Part.onlyParentheses_directList] at h ⊢
          by_cases hparen : (n.isToken "(" || n.isToken ")") = true
          · rw [if_pos hparen] at h ⊢
            exact (hrest h).imp_right hmore
          · rw [if_neg hparen] at h ⊢
            by_cases honly : Part.onlyParentheses ps = true
            · rw [if_pos honly] at h ⊢
              exact (hnode n List.mem_cons_self h).imp_right fun hx =>
                ⟨n, List.mem_cons_self, hx⟩
            · rw [if_neg honly] at h
              cases h

/-- **What denotes a name after the substitution denoted it before, or the name
was made inside of it.** -/
theorem Node.name?_direct (n : Node) {x : String} (h : (n.direct scope).name? = some x) :
    n.name? = some x ∨ n.Makes scope x := by
  induction n using Node.induction with
  | identifier name => exact .inl h
  | member object operator property ih =>
      right
      cases hobject : object.name?.bind scope with
      | some module =>
          obtain ⟨hdirect, himports⟩ := direct_member_of_some operator property hobject
          rw [hdirect] at h
          refine ⟨.ofAccess module property, ?_, Option.some.inj h⟩
          rw [himports]
          exact List.mem_cons_self
      | none =>
          -- the access stays, and an access denotes no name
          rw [(direct_member_of_none operator property hobject).1] at h
          cases h
  | construct kind parts ih =>
      simp only [direct, name?] at h ⊢
      by_cases hkind : (kind == "parenthesized_expression") = true
      · rw [if_pos hkind] at h ⊢
        exact (Part.loneName?_directList ih h).imp_right makes_construct_iff.2
      · rw [if_neg hkind] at h
        cases h
  | token kind text => cases h

/-! ## §3. Accesses that are left. -/

/-- **A handle with an access left on it was made by the substitution.** -/
theorem Node.makes_of_mem_accesses_direct (n : Node) {a : Access} {x : String}
    (ha : a ∈ (n.direct scope).accesses) (hx : a.objectName? = some x)
    (hscope : (scope x).isSome) : n.Makes scope x := by
  induction n using Node.induction with
  | identifier name => cases ha
  | member object operator property ih =>
      cases hobject : object.name?.bind scope with
      | some module =>
          -- nothing is left of an access on a handle
          rw [(direct_member_of_some operator property hobject).1] at ha
          cases ha
      | none =>
          obtain ⟨hdirect, himports⟩ := direct_member_of_none operator property hobject
          unfold Makes
          rw [hdirect] at ha
          rw [himports]
          rcases List.mem_cons.1 ha with rfl | ha
          · -- the access itself: its object denotes a name that it did not denote before
            rcases object.name?_direct hx with hbefore | hmade
            · rw [hbefore, Option.bind_some] at hobject
              rw [hobject] at hscope
              cases hscope
            · exact hmade
          · exact ih ha
  | construct kind parts ih =>
      have hparts : a ∈ Part.accessesOfList (Part.directList scope parts) := ha
      rw [Part.accessesOfList_eq_flatMap, Part.directList_eq_map] at hparts
      obtain ⟨q, hq, ha⟩ := List.mem_flatMap.1 hparts
      obtain ⟨p, hp, rfl⟩ := List.mem_map.1 hq
      cases p with
      | text text => cases ha
      | node n => exact makes_construct_iff.2 ⟨n, hp, ih n hp ha⟩
  | token kind text => cases ha

/-- **A walk leaves no access on a handle but on the names that it makes.**
Whatever the handles are, the walk of a node ends, binds none anew, and queues
direct imports, one for each access that it replaces.  If the object of an access
that is left, at any depth and through any parentheses, is the name of a handle,
then it is the name of one of these imports; so if none of their names is one of a
handle, no access on a handle is left.  As many nested replacements as there are
accesses are enough, and `more` change nothing. -/
theorem Split.walk_complete (w : WatchList) (n : Node) (s : Progress) (more : Nat) :
    ∃ n' s' made, (Split.visitor w).walk (n.accessCount + more) n s = some (n', s')
      ∧ s'.handles = s.handles ∧ s'.queued = s.queued ++ made
      ∧ n'.accessCount + made.length = n.accessCount
      ∧ (∀ a ∈ n'.accesses, ∀ x, a.objectName? = some x → (s.handles.module? x).isSome →
          ∃ d ∈ made, d.name = x)
      ∧ ((∀ d ∈ made, s.handles.module? d.name = none) →
          ∀ a ∈ n'.accesses, a.objectName?.bind s.handles.module? = none) := by
  obtain ⟨hhandles, hqueued⟩ := Progress.rewriteAll_spec n.accesses s
  have hleft : ∀ a ∈ (n.direct s.handles.module?).accesses, ∀ x, a.objectName? = some x →
      (s.handles.module? x).isSome → ∃ d ∈ n.directImports s.handles.module?, d.name = x :=
    fun a ha x hx hscope => n.makes_of_mem_accesses_direct ha hx hscope
  refine ⟨_, _, n.directImports s.handles.module?, Split.walk_eq (Nat.le_add_right _ more) s,
    hhandles, hqueued, n.accessCount_direct _, hleft, ?_⟩
  intro hmade a ha
  rw [Option.bind_eq_none_iff]
  intro x hx
  rw [← Option.not_isSome_iff_eq_none]
  intro hscope
  obtain ⟨d, hd, rfl⟩ := hleft a ha x hx hscope
  rw [hmade d hd] at hscope
  cases hscope

end ImportSplit
