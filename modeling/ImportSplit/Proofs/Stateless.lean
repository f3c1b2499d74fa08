/-
  ImportSplit.Proofs.Stateless
  ────────────────────────────────
  **WHAT A SPLIT DOES, READ OFF THE MODULE.**

  The pass threads one state through the module.  Without a state, the result
  is a function of every statement and of the scope before it, `scopeAt`: the
  module of the last handle that a watched import above binds to a name.

      statement            is kept as              makes the direct imports
      ─────────            ──────────              ────────────────────────
      unwatched import     itself                  none
      watched import       its types, if any       one for each named member
      anything else        `n.direct scope`        one for each replaced access

  The walk of the pass is followed once, on nodes (§3) and on statements (§4).
  What is known of a split afterwards comes from `split_body` and `queued_eq`, and
  what the state gathers on the way from `foldl_behind_of_append`.
-/
import ImportSplit.Proofs.Substitution
import ImportSplit.Split.Pass

namespace ImportSplit

/-! ## §1. The specification. -/

namespace Specifier

/-- The handle that a specifier of an import from `module` binds. -/
def handle? (module : String) : Specifier → Option Handle
  | byDefault bound | whole bound => bound.map (⟨·, module⟩)
  | named exported bound => if exported = some "default" then bound.map (⟨·, module⟩) else none
  | typeOnly .. => none

/-- The direct import of a named member; `default` is no member. -/
def member? (module : String) : Specifier → Option DirectImport
  | named (some exported) (some bound) =>
      if exported = "default" then none else some (.ofNamed bound module exported)
  | _ => none

/-- A type with both its names. -/
def isFullType : Specifier → Bool
  | typeOnly exported bound => exported.isSome && bound.isSome
  | _ => false

end Specifier

namespace ImportDecl

/-- The handles that the declaration binds, if its source is watched. -/
def handles (d : ImportDecl) : List Handle :=
  d.specifiers.filterMap (Specifier.handle? d.source)

/-- The direct imports of its named members. -/
def members (d : ImportDecl) : List DirectImport :=
  d.specifiers.filterMap (Specifier.member? d.source)

/-- Its types. -/
def types (d : ImportDecl) : List Specifier :=
  d.specifiers.filter Specifier.isFullType

end ImportDecl

namespace Statement

/-- The handles that a statement binds. -/
def handles (w : WatchList) : Statement → List Handle
  | importing d => if w.watches d.source then d.handles else []
  | other _ => []

/-- What stays of a statement. -/
def kept (w : WatchList) (scope : Scope) : Statement → List Statement
  | importing d =>
      if w.watches d.source then
        if d.types.isEmpty then [] else [importing { specifiers := d.types, source := d.source }]
      else [importing d]
  | other n => [other (n.direct scope)]

/-- The statement is a watched import that a split takes away altogether. -/
def goesAway (w : WatchList) : Statement → Bool
  | importing d => w.watches d.source && d.types.isEmpty
  | other _ => false

/-- An import that does not go away stays as an import. -/
theorem kept_importing (w : WatchList) (scope : Scope) (d : ImportDecl) :
    (importing d).kept w scope = [] ∧ (importing d).goesAway w = true
      ∨ ∃ e, (importing d).kept w scope = [importing e] ∧ (importing d).goesAway w = false := by
  unfold kept goesAway
  by_cases hw : w.watches d.source = true
  · by_cases ht : d.types.isEmpty = true
    · exact .inl (by simp [hw, ht])
    · exact .inr ⟨{ specifiers := d.types, source := d.source }, by simp [hw, ht]⟩
  · exact .inr ⟨d, by simp [hw]⟩

/-- What stays of an import is all of it, or its types. -/
theorem mem_kept_importing_iff {w : WatchList} {scope : Scope} {d : ImportDecl} {s : Statement} :
    s ∈ (importing d).kept w scope
      ↔ w.watches d.source = false ∧ s = importing d
        ∨ w.watches d.source = true ∧ d.types ≠ []
          ∧ s = importing { specifiers := d.types, source := d.source } := by
  unfold kept
  by_cases hw : w.watches d.source = true
  · by_cases ht : d.types = []
    · simp [hw, ht]
    · simp [hw, ht]
  · simp [hw]

/-- The direct imports that a statement makes. -/
def directImports (w : WatchList) (scope : Scope) : Statement → List DirectImport
  | importing d => if w.watches d.source then d.members else []
  | other n => n.directImports scope

end Statement

/-- The module of the last handle that one of the statements binds to a name. -/
def scopeAt (w : WatchList) (before : List Statement) : Scope :=
  scopeOf (before.flatMap (Statement.handles w))

namespace Program

/-- What the statements of a module give, each in the scope before it. -/
def inScope {α : Type} (w : WatchList) (f : Scope → Statement → List α) (p : Program) : List α :=
  p.body.zipIdx.flatMap fun (s, i) => f (scopeAt w (p.body.take i)) s

/-- The statements that stay. -/
def kept (w : WatchList) (p : Program) : List Statement :=
  p.inScope w (Statement.kept w)

/-- The direct imports that the module makes, in order. -/
def directImports (w : WatchList) (p : Program) : List DirectImport :=
  p.inScope w (Statement.directImports w)

/-- The direct imports in the queue when the pass leaves the module. -/
def queued (w : WatchList) (p : Program) : List DirectImport :=
  ((Split.pass w).walked p).2.queued

end Program

/-- What the statements behind `before` give. -/
def inScopeAfter {α : Type} (w : WatchList) (f : Scope → Statement → List α) :
    (before rest : List Statement) → List α
  | _, [] => []
  | before, s :: rest => f (scopeAt w before) s ++ inScopeAfter w f (before ++ [s]) rest

theorem inScopeAfter_append {α : Type} {w : WatchList} (f : Scope → Statement → List α)
    (before rest more : List Statement) :
    inScopeAfter w f before (rest ++ more)
      = inScopeAfter w f before rest ++ inScopeAfter w f (before ++ rest) more := by
  induction rest generalizing before with
  | nil =>
      rw [List.append_nil]
      rfl
  | cons s rest ih =>
      rw [List.cons_append, inScopeAfter, inScopeAfter, ih, List.append_assoc, List.append_assoc]
      rfl

theorem zipIdx_inScope {α : Type} (w : WatchList) (f : Scope → Statement → List α) :
    ∀ (rest before : List Statement),
      ((rest.zipIdx before.length).flatMap fun (s, i) =>
          f (scopeAt w ((before ++ rest).take i)) s)
        = inScopeAfter w f before rest := by
  intro rest
  induction rest with
  | nil => exact fun _ => rfl
  | cons s rest ih =>
      intro before
      have hrest := ih (before ++ [s])
      rw [List.append_assoc, List.length_append] at hrest
      rw [List.zipIdx_cons, List.flatMap_cons, inScopeAfter, ← hrest]
      simp

/-- Statement by statement, or place by place. -/
theorem Program.inScope_eq {α : Type} (w : WatchList) (f : Scope → Statement → List α)
    (p : Program) : p.inScope w f = inScopeAfter w f [] p.body :=
  zipIdx_inScope w f p.body []

/-- What the statements behind `before` give, each at its place. -/
theorem mem_inScopeAfter_iff {α : Type} {w : WatchList} {f : Scope → Statement → List α} {a : α} :
    ∀ {rest before : List Statement}, a ∈ inScopeAfter w f before rest ↔
      ∃ above s below, rest = above ++ s :: below ∧ a ∈ f (scopeAt w (before ++ above)) s := by
  intro rest
  induction rest with
  | nil => simp [inScopeAfter]
  | cons s rest ih =>
      intro before
      rw [inScopeAfter, List.mem_append, ih]
      constructor
      · rintro (ha | ⟨above, t, below, rfl, ha⟩)
        · exact ⟨[], s, rest, rfl, by rwa [List.append_nil]⟩
        · refine ⟨s :: above, t, below, rfl, ?_⟩
          rwa [List.append_assoc] at ha
      · rintro ⟨above, t, below, hsplit, ha⟩
        -- the statement is the first one, or stands behind it
        cases above with
        | nil =>
            obtain ⟨rfl, rfl⟩ := List.cons.inj hsplit
            rw [List.append_nil] at ha
            exact .inl ha
        | cons u above =>
            obtain ⟨rfl, rfl⟩ := List.cons.inj hsplit
            refine .inr ⟨above, t, below, rfl, ?_⟩
            rwa [List.append_assoc]

theorem Program.mem_inScope_iff {α : Type} {w : WatchList} {f : Scope → Statement → List α}
    {p : Program} {a : α} :
    a ∈ p.inScope w f ↔
      ∃ before s rest, p.body = before ++ s :: rest ∧ a ∈ f (scopeAt w before) s := by
  rw [Program.inScope_eq, mem_inScopeAfter_iff]
  rfl

/-! ## §2. One step of the pass. -/

/-- What a specifier turns into, told by what it binds. -/
theorem Specifier.role_cases (module : String) (x : Specifier) :
    (∃ h, x.role module = .handle h ∧ x.handle? module = some h ∧ x.member? module = none
        ∧ x.isFullType = false)
      ∨ (∃ d, x.role module = .direct d ∧ x.handle? module = none ∧ x.member? module = some d
        ∧ x.isFullType = false)
      ∨ ((x.role module = .typeOnly ∧ x.isFullType = true
          ∨ x.role module = .incomplete ∧ x.isFullType = false)
        ∧ x.handle? module = none ∧ x.member? module = none) := by
  cases x with
  | byDefault bound | whole bound =>
      cases bound with
      | none => exact .inr (.inr ⟨.inr ⟨rfl, rfl⟩, rfl, rfl⟩)
      | some b => exact .inl ⟨_, rfl, rfl, rfl, rfl⟩
  | named exported bound =>
      cases exported with
      | none => exact .inr (.inr ⟨.inr ⟨rfl, rfl⟩, rfl, rfl⟩)
      | some e =>
          cases bound with
          | none =>
              refine .inr (.inr ⟨.inr ⟨by simp [role], rfl⟩, ?_, rfl⟩)
              simp [handle?]
          | some b =>
              -- the default export of a module is the module itself
              by_cases he : e = "default"
              · subst he
                exact .inl ⟨_, rfl, rfl, rfl, rfl⟩
              · exact .inr (.inl ⟨.ofNamed b module e, by simp [role], by simp [handle?, he],
                  by simp [member?, he], rfl⟩)
  | typeOnly exported bound =>
      cases exported with
      | none => exact .inr (.inr ⟨.inr ⟨rfl, rfl⟩, rfl, rfl⟩)
      | some e =>
          cases bound with
          | none => exact .inr (.inr ⟨.inr ⟨rfl, rfl⟩, rfl, rfl⟩)
          | some b => exact .inr (.inr ⟨.inl ⟨rfl, rfl⟩, rfl, rfl⟩)

/-- The direct import of a named member is named and placed as its specifier says. -/
theorem Specifier.of_member? {module : String} {x : Specifier} {made : DirectImport}
    (h : x.member? module = some made) :
    ∃ member, x.exported? = some member ∧ x.bound? = some made.name
      ∧ made.path = memberPath module member := by
  unfold member? at h
  split at h
  · next exported bound =>
      split at h
      · cases h
      · cases h
        exact ⟨exported, rfl, rfl, rfl⟩
  · cases h

/-- It keeps the name that the specifier binds. -/
theorem Specifier.bound?_of_member? {module : String} {x : Specifier} {made : DirectImport}
    (h : x.member? module = some made) : x.bound? = some made.name := by
  obtain ⟨-, -, hbound, -⟩ := of_member? h
  exact hbound

namespace Progress

/-- A specifier binds its handle and queues its member. -/
theorem classifySpecifier_spec (module : String) (s : Progress) (x : Specifier) :
    (classifySpecifier module s x).handles
        = (x.handle? module).toList.foldl Handles.bind s.handles
      ∧ (classifySpecifier module s x).queued = s.queued ++ (x.member? module).toList := by
  unfold classifySpecifier
  rcases x.role_cases module with ⟨h, hr, hh, hm, -⟩ | ⟨d, hr, hh, hm, -⟩ | ⟨hr, hh, hm⟩
  · rw [hr, hh, hm]
    simp [note, bindHandle]
  · rw [hr, hh, hm]
    simp [note, enqueue]
  · rcases hr with ⟨hr, -⟩ | ⟨hr, -⟩ <;> rw [hr, hh, hm] <;> simp [note]

/-- So do the specifiers of a declaration, from left to right. -/
theorem classify_spec (d : ImportDecl) (s : Progress) :
    (classify d s).2.handles = d.handles.foldl Handles.bind s.handles
      ∧ (classify d s).2.queued = s.queued ++ d.members := by
  show (d.specifiers.foldl (classifySpecifier d.source) s).handles
        = (d.specifiers.filterMap (Specifier.handle? d.source)).foldl Handles.bind s.handles
      ∧ (d.specifiers.foldl (classifySpecifier d.source) s).queued
        = s.queued ++ d.specifiers.filterMap (Specifier.member? d.source)
  induction d.specifiers generalizing s with
  | nil => simp
  | cons x xs ih =>
      obtain ⟨hh, hq⟩ := classifySpecifier_spec d.source s x
      obtain ⟨ihh, ihq⟩ := ih (classifySpecifier d.source s x)
      rw [List.foldl_cons, ihh, ihq, hh, hq]
      cases hx : x.handle? d.source <;> cases hy : x.member? d.source <;> simp [hx, hy]

/-- What stays behind for types are exactly the types with both names. -/
theorem typesLeft?_eq (d : ImportDecl) :
    typesLeft? d = if d.types.isEmpty then none
      else some { specifiers := d.types, source := d.source } := by
  have htypes : d.specifiers.filter (fun x => x.role d.source = .typeOnly) = d.types := by
    refine List.filter_congr fun x _ => ?_
    rcases x.role_cases d.source with ⟨h, hr, -, -, ht⟩ | ⟨m, hr, -, -, ht⟩ | ⟨⟨hr, ht⟩ | ⟨hr, ht⟩, -⟩
      <;> simp [hr, ht]
  unfold typesLeft?
  rw [htypes]
  cases d.types <;> rfl

/-- An access on a handle becomes the name of its direct import, which is
queued; any other access changes nothing. -/
theorem rewrite_spec (a : Access) (s : Progress) :
    (rewrite a s).1 = (a.direct? s.handles.module?).map (fun d => .identifier d.name)
      ∧ (rewrite a s).2.handles = s.handles
      ∧ (rewrite a s).2.queued = s.queued ++ (a.direct? s.handles.module?).toList := by
  unfold rewrite Access.direct?
  cases a.objectName? with
  | none => simp
  | some x =>
      cases hx : s.handles.module? x with
      | none => simp [hx]
      | some m => simp [hx, note, enqueue]

end Progress

/-- One more statement binds its handles on top. -/
theorem scopeAt_append (w : WatchList) (before : List Statement) (s : Statement) (x : String) :
    scopeAt w (before ++ [s]) x = (scopeOf (s.handles w) x).or (scopeAt w before x) := by
  unfold scopeAt
  rw [List.flatMap_append, scopeOf_append, List.flatMap_cons, List.flatMap_nil, List.append_nil]

/-! ## §3. The walk of a node. -/

/-- The progress after the accesses of a node, in order. -/
def Progress.rewriteAll (s : Progress) (as : List Access) : Progress :=
  as.foldl (fun s a => (rewrite a s).2) s

/-- Rewriting accesses binds no handle and queues their direct imports. -/
theorem Progress.rewriteAll_spec (as : List Access) (s : Progress) :
    (s.rewriteAll as).handles = s.handles
      ∧ (s.rewriteAll as).queued
          = s.queued ++ as.filterMap (Access.direct? s.handles.module?) := by
  induction as generalizing s with
  | nil => simp [rewriteAll]
  | cons a as ih =>
      obtain ⟨-, hh, hq⟩ := rewrite_spec a s
      obtain ⟨ihh, ihq⟩ := ih (rewrite a s).2
      show ((rewrite a s).2.rewriteAll as).handles = s.handles
        ∧ ((rewrite a s).2.rewriteAll as).queued
            = s.queued ++ (a :: as).filterMap (Access.direct? s.handles.module?)
      rw [ihh, ihq, hh, hq]
      cases hx : a.direct? s.handles.module? <;> simp [hx]

namespace Split

open Visitor

/-- Walking parts one by one, if the nodes among them are walked so. -/
theorem walkParts_eq {w : WatchList} {again : Node → Progress → Option (Node × Progress)}
    {ps : List Part}
    (hnode : ∀ n, .node n ∈ ps → ∀ s, (visitor w).walkWith again n s
      = some (n.direct s.handles.module?, s.rewriteAll n.accesses)) (s : Progress) :
    (visitor w).walkParts again ps s
      = some (Part.directList s.handles.module? ps, s.rewriteAll (Part.accessesOfList ps)) := by
  induction ps generalizing s with
  | nil => rfl
  | cons p ps ih =>
      have hps := ih fun n hn => hnode n (List.mem_cons_of_mem _ hn)
      have hp : (visitor w).walkPart again p s
          = some (p.direct s.handles.module?, s.rewriteAll p.accesses) := by
        cases p with
        | text t => rfl
        | node n =>
            simp only [walkPart, hnode n List.mem_cons_self s]
            rfl
      -- the scope is the same for all parts, because an access binds no handle
      have hh := (Progress.rewriteAll_spec p.accesses s).1
      simp only [walkParts, hp, hps, hh]
      simp only [Part.directList, Part.accessesOfList, Progress.rewriteAll, List.foldl_append]

/-- **The walk of a node substitutes its accesses and meets them in order.**
A replacement is a name, so walking it again does nothing. -/
theorem walkWith_eq {w : WatchList} {again : Node → Progress → Option (Node × Progress)}
    (n : Node) :
    (n.accesses = [] ∨ ∀ x s, again (.identifier x) s = some (.identifier x, s)) →
    ∀ s, (visitor w).walkWith again n s
      = some (n.direct s.handles.module?, s.rewriteAll n.accesses) := by
  induction n using Node.induction with
  | identifier name => exact fun _ s => rfl
  | token kind text => exact fun _ s => rfl
  | construct kind parts ih =>
      intro hagain s
      have hnode : ∀ n, .node n ∈ parts → ∀ s, (visitor w).walkWith again n s
          = some (n.direct s.handles.module?, s.rewriteAll n.accesses) := by
        intro n hn
        refine ih n hn (hagain.imp_left fun hnil => ?_)
        have hnil : parts.flatMap Part.accesses = [] := by
          rw [← Part.accessesOfList_eq_flatMap]
          exact hnil
        exact List.flatMap_eq_nil_iff.1 hnil _ hn
      simp only [walkWith, walkParts_eq hnode s]
      rfl
  | member object operator property ih =>
      intro hagain s
      -- an access is met before its object, and its replacement is walked again
      have hfix : ∀ x s, again (.identifier x) s = some (.identifier x, s) :=
        hagain.resolve_left (List.cons_ne_nil _ _)
      obtain ⟨hnew, hh, -⟩ := Progress.rewrite_spec ⟨object, operator, property⟩ s
      have hstep : s.rewriteAll (Node.member object operator property).accesses
          = (Progress.rewrite ⟨object, operator, property⟩ s).2.rewriteAll object.accesses := rfl
      have hon : (visitor w).onAccess ⟨object, operator, property⟩ s
          = ((Progress.rewrite ⟨object, operator, property⟩ s).1,
            (Progress.rewrite ⟨object, operator, property⟩ s).2) := rfl
      rw [hstep]
      simp only [walkWith, hon, hnew]
      cases hscope : object.name?.bind s.handles.module? with
      | some module =>
          -- the object is a handle: it is a name, so there is no access in it
          obtain ⟨x, hx, -⟩ := Option.bind_eq_some_iff.1 hscope
          rw [(Node.direct_member_of_some operator property hscope).1, (Node.lone_of_name? hx).1]
          simp only [Access.direct?, Access.objectName?, hscope, Option.map_some, hfix]
          rfl
      | none =>
          rw [(Node.direct_member_of_none operator property hscope).1]
          simp only [Access.direct?, Access.objectName?, hscope, Option.map_none,
            ih (.inr hfix), hh]

/-- As many nested replacements as there are accesses are enough. -/
theorem walk_eq {w : WatchList} {depth : Nat} {n : Node} (hn : n.accessCount ≤ depth)
    (s : Progress) :
    (visitor w).walk depth n s = some (n.direct s.handles.module?, s.rewriteAll n.accesses) := by
  cases depth with
  | zero =>
      refine walkWith_eq n (.inl ?_) s
      exact List.eq_nil_of_length_eq_zero (Nat.le_zero.1 hn)
  | succ depth =>
      refine walkWith_eq n (.inr fun x s => ?_) s
      cases depth <;> rfl

/-! ## §4. The walk of the statements. -/

/-- A watched declaration gives way to its types. -/
theorem onImport_watched {w : WatchList} {d : ImportDecl} (hw : w.watches d.source = true)
    (s : Progress) :
    onImport w d s
      = (if d.types.isEmpty then .remove
          else .replace { specifiers := d.types, source := d.source },
        (Progress.classify d s).2) := by
  have hclassify : Progress.classify d s
      = (Progress.typesLeft? d, (Progress.classify d s).2) := rfl
  unfold onImport
  rw [if_pos hw, hclassify, Progress.typesLeft?_eq]
  by_cases ht : d.types.isEmpty = true <;> simp only [ht] <;> rfl

/-- Taking a declaration apart leaves what is kept of it, queues its members
and binds its handles. -/
theorem onImport_eq (w : WatchList) (d : ImportDecl) {s : Progress} {before : List Statement}
    (hscope : s.handles.module? = scopeAt w before) :
    (onImport w d s).1.apply d = (Statement.importing d).kept w (scopeAt w before)
      ∧ (onImport w d s).2.queued
          = s.queued ++ (Statement.importing d).directImports w (scopeAt w before)
      ∧ (onImport w d s).2.handles.module? = scopeAt w (before ++ [.importing d]) := by
  have happend : scopeAt w (before ++ [.importing d])
      = fun x => (scopeOf ((Statement.importing d).handles w) x).or (scopeAt w before x) :=
    funext fun x => scopeAt_append w before (.importing d) x
  rw [happend]
  unfold Statement.kept Statement.directImports Statement.handles
  by_cases hw : w.watches d.source = true
  -- the handles of the declaration are bound on top of those before
  · obtain ⟨hh, hq⟩ := Progress.classify_spec d s
    rw [onImport_watched hw s]
    simp only [hw, if_true, hq]
    refine ⟨?_, trivial, funext fun x => ?_⟩
    · by_cases ht : d.types.isEmpty = true <;> simp only [ht] <;> rfl
    · rw [hh, Handles.module?_foldl_bind, hscope]
  · unfold onImport
    simp only [hw, Bool.false_eq_true, if_false, List.append_nil]
    refine ⟨rfl, trivial, funext fun x => ?_⟩
    rw [hscope]
    rfl

/-- The progress behind a statement. -/
def behind (w : WatchList) (s : Progress) : Statement → Progress
  | .importing d => (onImport w d s).2
  | .other n => s.rewriteAll n.accesses

/-- A statement queues its direct imports and binds its handles. -/
theorem behind_spec (w : WatchList) (t : Statement) {s : Progress} {before : List Statement}
    (hscope : s.handles.module? = scopeAt w before) :
    (behind w s t).queued = s.queued ++ t.directImports w (scopeAt w before)
      ∧ (behind w s t).handles.module? = scopeAt w (before ++ [t]) := by
  cases t with
  | importing d => exact (onImport_eq w d hscope).2
  | other n =>
      obtain ⟨hh, hqueue⟩ := Progress.rewriteAll_spec n.accesses s
      rw [hscope] at hqueue
      refine ⟨hqueue, funext fun x => ?_⟩
      -- a statement that is no import binds no handle
      show (s.rewriteAll n.accesses).handles.module? x = _
      rw [hh, hscope, scopeAt_append]
      rfl

/-- **The walk of the statements**, from the scope behind those before. -/
theorem walkBody_eq {w : WatchList} {depth : Nat} :
    ∀ (rest before : List Statement) (s : Progress),
      (rest.flatMap Statement.accesses).length ≤ depth →
      s.handles.module? = scopeAt w before →
      (visitor w).walkBody depth rest s
        = some (inScopeAfter w (Statement.kept w) before rest, rest.foldl (behind w) s) := by
  intro rest
  induction rest with
  | nil => exact fun before s _ _ => rfl
  | cons t rest ih =>
      intro before s hdepth hscope
      rw [List.flatMap_cons, List.length_append] at hdepth
      have hwalk := ih (before ++ [t]) (behind w s t) (by omega) (behind_spec w t hscope).2
      cases t with
      | importing d =>
          have hon : (visitor w).onImport d s
              = ((onImport w d s).1, behind w s (.importing d)) := rfl
          simp only [Visitor.walkBody, hon, hwalk, (onImport_eq w d hscope).1]
          rfl
      | other n =>
          have hn : n.accessCount ≤ depth := by
            show (Statement.other n).accesses.length ≤ depth
            omega
          have hbehind : behind w s (.other n) = s.rewriteAll n.accesses := rfl
          rw [hbehind] at hwalk
          simp only [Visitor.walkBody, walk_eq hn, hwalk, hscope]
          rfl

/-- A part of the progress to which each statement adds something, from the scope
before it, grows by all of it in order. -/
theorem foldl_behind_of_append {α : Type} {w : WatchList} {noted : Progress → List α}
    {f : Scope → Statement → List α}
    (hadd : ∀ t before s, s.handles.module? = scopeAt w before →
      noted (behind w s t) = noted s ++ f (scopeAt w before) t) :
    ∀ (rest before : List Statement) (s : Progress), s.handles.module? = scopeAt w before →
      noted (rest.foldl (behind w) s) = noted s ++ inScopeAfter w f before rest := by
  intro rest
  induction rest with
  | nil => exact fun before s _ => (List.append_nil _).symm
  | cons t rest ih =>
      intro before s hscope
      rw [List.foldl_cons, ih (before ++ [t]) (behind w s t) (behind_spec w t hscope).2,
        hadd t before s hscope, inScopeAfter, List.append_assoc]

end Split

/-! ## §5. The result of the pass. -/

namespace Program

/-- Behind all statements, their direct imports are queued. -/
theorem queued_foldl_behind (w : WatchList) (p : Program) :
    (p.body.foldl (Split.behind w) {}).queued = p.directImports w := by
  rw [directImports, inScope_eq]
  exact Split.foldl_behind_of_append (fun t _ _ h => (Split.behind_spec w t h).1) p.body [] {} rfl

/-- The pass leaves a module with what is kept of the statements, and the progress
behind all of them. -/
theorem walked_pass_eq (w : WatchList) (p : Program) :
    (Split.pass w).walked p = (p.kept w, p.body.foldl (Split.behind w) {}) := by
  have hbody : (Split.pass w).walkBody p.accessCount p.body ((Split.pass w).enter p)
      = some (p.kept w, p.body.foldl (Split.behind w) {}) := by
    rw [kept, inScope_eq]
    exact Split.walkBody_eq p.body [] {} (Nat.le_refl _) rfl
  exact Option.some_inj.1 ((Option.some_get _).trans hbody)

theorem run_pass_eq (w : WatchList) (p : Program) :
    (Split.pass w).run p = Split.leave ⟨p.kept w⟩ (p.body.foldl (Split.behind w) {}) := by
  rw [ShrinkingVisitor.run_eq_leave, p.walked_pass_eq w]
  rfl

/-- The queue holds the direct imports that the module makes. -/
theorem queued_eq (w : WatchList) (p : Program) : p.queued w = p.directImports w := by
  unfold queued
  rw [p.walked_pass_eq w]
  exact p.queued_foldl_behind w

/-- The statements of a split module. -/
theorem split_body (w : WatchList) (p : Program) :
    (p.split w).body = insertImports ((p.directImports w).map DirectImport.statement) (p.kept w) := by
  have hqueue := p.queued_foldl_behind w
  show ((Split.pass w).run p).1.body = _
  rw [p.run_pass_eq w]
  generalize p.body.foldl (Split.behind w) {} = s at hqueue
  rw [← hqueue]
  unfold Split.leave
  -- where nothing is queued the body is left as it is
  by_cases hempty : s.queued.isEmpty = true
  · rw [if_pos hempty, List.isEmpty_iff.1 hempty]
    simp [insertImports]
  · rw [if_neg hempty]
    rfl

/-- **A split without a state.**  For any watched modules and any module, the
pass inserts the direct imports of the statements, in order, behind the
prologue of what is kept of them. -/
theorem split_stateless (w : WatchList) (p : Program) :
    (p.split w).body
        = (p.kept w).take (prologueEnd (p.kept w))
          ++ (p.directImports w).map DirectImport.statement
          ++ (p.kept w).drop (prologueEnd (p.kept w))
      ∧ p.queued w = p.directImports w := by
  refine ⟨?_, p.queued_eq w⟩
  rw [p.split_body w]
  rfl

end Program

end ImportSplit
