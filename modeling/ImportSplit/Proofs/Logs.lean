/-
  ImportSplit.Proofs.Logs
  ────────────────────────────────
  **THE LOG ACCOUNTS FOR EVERY EDIT.**

  The log of a split is read off the module, statement by statement, each in the
  scope before it:

      statement            events
      ─────────            ──────
      unwatched import     none
      watched import       one for each specifier
      anything else        one for each access on a handle

  and behind them, if a direct import is inserted, one event that says how many
  are and where.  The events of edits are those of named specifiers and of
  accesses on handles, so they go along with the direct imports that the
  statements make, one by one.

    • `log_behind` — what one statement notes down,
    • `Program.log_eq` — the whole log,
    • `Statement.forall₂_edits` — each edit and its event,
    • `splitTextLogged_accounts` — what the log of a text accounts for.
-/
import Mathlib.Data.List.Forall2
import ImportSplit.Proofs.Pieces
import ImportSplit.Proofs.Stateless
import ImportSplit.Split.Source

namespace ImportSplit

/-! ## §1. The events of a statement. -/

/-- The event that tells what became of a specifier of an import from `module`. -/
def Specifier.event (module : String) : Specifier → Event
  | byDefault (some bound) | whole (some bound) => .handleBound bound module
  | named (some exported) (some bound) =>
      if exported = "default" then .handleBound bound module
      else .namedImport bound (memberPath module exported)
  | typeOnly (some exported) (some bound) =>
      .typeKept module (typeOnly (some exported) (some bound))
  | x => .specifierSkipped module x

/-- The event that tells of an access, if it is on a handle. -/
def Access.event? (scope : Scope) (a : Access) : Option Event :=
  a.objectName?.bind fun object => (scope object).map fun _ => .accessRewritten object a.property

/-- The events of a statement. -/
def Statement.events (w : WatchList) (scope : Scope) : Statement → List Event
  | importing d => if w.watches d.source then d.specifiers.map (Specifier.event d.source) else []
  | other n => n.accesses.filterMap (Access.event? scope)

/-- The event that tells of the direct imports, if there are any. -/
def Program.insertion (w : WatchList) (p : Program) : List Event :=
  if (p.directImports w).isEmpty then []
  else [.importsInserted (p.directImports w).length (prologueEnd (p.kept w))]

/-! ## §2. What a split notes down. -/

namespace Progress

theorem log_classifySpecifier (module : String) (s : Progress) (x : Specifier) :
    (classifySpecifier module s x).log = s.log ++ [x.event module] := by
  cases x with
  | byDefault bound | whole bound => cases bound <;> rfl
  | typeOnly exported bound => cases exported <;> cases bound <;> rfl
  | named exported bound =>
      cases exported with
      | none => rfl
      | some e =>
          cases bound with
          | none => simp [classifySpecifier, Specifier.role, Specifier.event, note]
          | some b =>
              by_cases he : e = "default"
              · subst he
                rfl
              · simp [classifySpecifier, Specifier.role, Specifier.event, he, note, enqueue,
                  DirectImport.ofNamed]

/-- Taking a declaration apart notes one event for each specifier. -/
theorem log_classify (d : ImportDecl) (s : Progress) :
    (classify d s).2.log = s.log ++ d.specifiers.map (Specifier.event d.source) := by
  show (d.specifiers.foldl (classifySpecifier d.source) s).log = _
  induction d.specifiers generalizing s with
  | nil => exact (List.append_nil _).symm
  | cons x xs ih =>
      rw [List.foldl_cons, ih, log_classifySpecifier, List.append_assoc]
      rfl

theorem log_rewrite (a : Access) (s : Progress) :
    (rewrite a s).2.log = s.log ++ (a.event? s.handles.module?).toList := by
  unfold rewrite Access.event?
  cases a.objectName? with
  | none => simp
  | some x =>
      cases hx : s.handles.module? x with
      | none => simp [hx]
      | some m => simp [hx, note, enqueue]

/-- Rewriting accesses notes one event for each access on a handle. -/
theorem log_rewriteAll (as : List Access) (s : Progress) :
    (s.rewriteAll as).log = s.log ++ as.filterMap (Access.event? s.handles.module?) := by
  induction as generalizing s with
  | nil => exact (List.append_nil _).symm
  | cons a as ih =>
      show ((rewrite a s).2.rewriteAll as).log = _
      rw [ih, log_rewrite, (rewrite_spec a s).2.1, List.append_assoc, List.filterMap_cons]
      cases a.event? s.handles.module? <;> rfl

end Progress

namespace Split

theorem log_onImport (w : WatchList) (d : ImportDecl) (scope : Scope) (s : Progress) :
    (onImport w d s).2.log = s.log ++ (Statement.importing d).events w scope := by
  rw [Statement.events]
  by_cases hw : w.watches d.source = true
  · rw [onImport_watched hw, if_pos hw]
    exact Progress.log_classify d s
  · unfold onImport
    rw [if_neg hw, if_neg hw, List.append_nil]

/-- A statement notes its events. -/
theorem log_behind {w : WatchList} (t : Statement) (before : List Statement) (s : Progress)
    (hscope : s.handles.module? = scopeAt w before) :
    (behind w s t).log = s.log ++ t.events w (scopeAt w before) := by
  cases t with
  | importing d => exact log_onImport w d (scopeAt w before) s
  | other n =>
      rw [← hscope]
      exact Progress.log_rewriteAll n.accesses s

end Split

/-- **The log of a split**: the events of the statements, each in the scope before
it, and the one that tells of the direct imports. -/
theorem Program.log_eq (w : WatchList) (p : Program) :
    (p.splitLogged w).2 = p.inScope w (Statement.events w) ++ p.insertion w := by
  have hlog : (p.body.foldl (Split.behind w) {}).log = p.inScope w (Statement.events w) := by
    rw [inScope_eq]
    exact Split.foldl_behind_of_append Split.log_behind p.body [] {} rfl
  show ((Split.pass w).run p).2.log = _
  rw [p.run_pass_eq w]
  unfold Split.leave insertion Progress.flush
  rw [p.queued_foldl_behind w]
  split
  · rw [List.append_nil]
    exact hlog
  · show (p.body.foldl (Split.behind w) {}).log ++ [_] = _
    rw [hlog, List.length_map]

/-! ## §3. Kinds of events. -/

namespace Event

/-- The event tells of an edit that makes a direct import. -/
def isEdit (e : Event) : Bool :=
  ["rewriting named import", "rewriting member access"].contains e.message

/-- The event tells what became of a specifier. -/
def isOfSpecifier (e : Event) : Bool :=
  ["rewriting named import", "registering namespace binding", "keeping type-only specifier",
    "skipping malformed import specifier"].contains e.message

/-- The event tells of the direct imports as they are inserted. -/
def isInsertion (e : Event) : Bool := e.message == "inserting synthetic imports"

end Event

/-- An event of a specifier tells of an edit exactly if the specifier is a named
member, and then of its direct import. -/
theorem Specifier.event_cases (module : String) (x : Specifier) :
    (x.event module).isOfSpecifier = true ∧ (x.event module).isInsertion = false
      ∧ ((∃ made, x.member? module = some made ∧ x.event module = .namedImport made.name made.path)
        ∨ x.member? module = none ∧ (x.event module).isEdit = false) := by
  cases x with
  | byDefault bound | whole bound => cases bound <;> exact ⟨rfl, rfl, .inr ⟨rfl, rfl⟩⟩
  | typeOnly exported bound =>
      cases exported <;> cases bound <;> exact ⟨rfl, rfl, .inr ⟨rfl, rfl⟩⟩
  | named exported bound =>
      cases exported with
      | none => exact ⟨rfl, rfl, .inr ⟨rfl, rfl⟩⟩
      | some e =>
          cases bound with
          | none => exact ⟨rfl, rfl, .inr ⟨rfl, rfl⟩⟩
          | some b =>
              by_cases he : e = "default"
              · subst he
                exact ⟨rfl, rfl, .inr ⟨rfl, rfl⟩⟩
              · have hevent : (named (some e) (some b)).event module
                    = .namedImport b (memberPath module e) := if_neg he
                have hmember : (named (some e) (some b)).member? module
                    = some (.ofNamed b module e) := if_neg he
                rw [hevent]
                exact ⟨rfl, rfl, .inl ⟨_, hmember, rfl⟩⟩

/-- The event of an access on a handle names the access, whose module gives the
direct import; no other access has an event. -/
theorem Access.event_cases (scope : Scope) (a : Access) :
    (∃ object module, a.objectName? = some object ∧ scope object = some module
        ∧ a.event? scope = some (.accessRewritten object a.property)
        ∧ a.direct? scope = some (.ofAccess module a.property))
      ∨ a.event? scope = none ∧ a.direct? scope = none := by
  unfold event? direct?
  cases a.objectName? with
  | none => exact .inr ⟨rfl, rfl⟩
  | some object =>
      cases hmodule : scope object with
      | none => simp [hmodule]
      | some module =>
          refine .inl ⟨object, module, rfl, hmodule, ?_, ?_⟩ <;> simp [hmodule]

theorem Access.eq_of_event? {scope : Scope} {a : Access} {e : Event}
    (h : a.event? scope = some e) : ∃ object, e = .accessRewritten object a.property := by
  rcases a.event_cases scope with ⟨object, module, -, -, hsome, -⟩ | ⟨hnone, -⟩
  · exact ⟨object, Option.some.inj (h.symm.trans hsome)⟩
  · rw [hnone] at h
    cases h

/-! ## §4. Edits and direct imports. -/

/-- The event tells how the statement makes the direct import. -/
def Statement.Tells (w : WatchList) (scope : Scope) (e : Event) (made : DirectImport) :
    Statement → Prop
  | importing d => w.watches d.source = true ∧ (∃ x ∈ d.specifiers, x.member? d.source = some made)
      ∧ e.message = "rewriting named import"
      ∧ e.fields = [("local", .text made.name), ("path", .text made.path)]
  | other n => ∃ a ∈ n.accesses, ∃ object module, a.objectName? = some object
      ∧ scope object = some module ∧ made = .ofAccess module a.property
      ∧ e.message = "rewriting member access"
      ∧ e.fields = [("object", .text object), ("property", .text a.property)]

/-- **Each edit of a statement has its event**, and they come in the same order. -/
theorem Statement.forall₂_edits (w : WatchList) (scope : Scope) (s : Statement) :
    List.Forall₂ (s.Tells w scope) ((s.events w scope).filter Event.isEdit)
      (s.directImports w scope) := by
  cases s with
  | importing d =>
      rw [events, directImports]
      by_cases hw : w.watches d.source = true
      · rw [if_pos hw, if_pos hw, ← List.filterMap_eq_filter, List.filterMap_map]
        refine List.rel_filterMap (R := fun x y => x = y ∧ x ∈ d.specifiers) ?_
          (List.forall₂_same.2 fun x hx => ⟨rfl, hx⟩)
        rintro x _ ⟨rfl, hx⟩
        rcases (x.event_cases d.source).2.2 with ⟨made, hmade, hevent⟩ | ⟨hmade, hevent⟩
        · have hguard : Option.guard Event.isEdit (x.event d.source)
              = some (.namedImport made.name made.path) := by
            rw [hevent]
            rfl
          rw [Function.comp_apply, hguard, hmade]
          exact .some ⟨hw, ⟨x, hx, hmade⟩, rfl, rfl⟩
        · have hguard : Option.guard Event.isEdit (x.event d.source) = none := by
            simp [hevent]
          rw [Function.comp_apply, hguard, hmade]
          exact .none
      · rw [if_neg hw, if_neg hw]
        exact .nil
  | other n =>
      show List.Forall₂ _ ((n.accesses.filterMap (Access.event? scope)).filter Event.isEdit)
        (n.accesses.filterMap (Access.direct? scope))
      rw [List.filter_filterMap]
      refine List.rel_filterMap (R := fun a b => a = b ∧ a ∈ n.accesses) ?_
        (List.forall₂_same.2 fun a ha => ⟨rfl, ha⟩)
      rintro a _ ⟨rfl, ha⟩
      rcases a.event_cases scope with
        ⟨object, module, hobject, hmodule, hevent, hmade⟩ | ⟨hevent, hmade⟩
      · simp only [hevent, hmade]
        exact .some ⟨a, ha, object, module, hobject, hmodule, rfl, rfl, rfl⟩
      · simp only [hevent, hmade]
        exact .none

/-- What the specifiers of a statement import from, if its source is watched. -/
def Statement.specifiers (w : WatchList) : Statement → List (String × Specifier)
  | importing d => if w.watches d.source then d.specifiers.map fun x => (d.source, x) else []
  | other _ => []

/-- **Each specifier of a watched import has its event**, and other statements have
no events of this kind. -/
theorem Statement.filter_isOfSpecifier (w : WatchList) (scope : Scope) (s : Statement) :
    (s.events w scope).filter Event.isOfSpecifier
      = (s.specifiers w).map fun (module, x) => x.event module := by
  cases s with
  | importing d =>
      rw [events, specifiers]
      by_cases hw : w.watches d.source = true
      · rw [if_pos hw, if_pos hw, List.map_map, List.filter_eq_self.2]
        · rfl
        · intro e he
          obtain ⟨x, -, rfl⟩ := List.mem_map.1 he
          exact (x.event_cases d.source).1
      · rw [if_neg hw, if_neg hw]
        rfl
  | other n =>
      rw [events, specifiers, List.map_nil, List.filter_eq_nil_iff]
      intro e he
      obtain ⟨a, -, hevent⟩ := List.mem_filterMap.1 he
      obtain ⟨object, rfl⟩ := Access.eq_of_event? hevent
      exact Bool.false_ne_true

/-- No event of a statement tells of the insertion. -/
theorem Statement.isInsertion_of_mem_events {w : WatchList} {scope : Scope} {s : Statement}
    {e : Event} (he : e ∈ s.events w scope) : e.isInsertion = false := by
  cases s with
  | importing d =>
      rw [events] at he
      split at he
      · obtain ⟨x, -, rfl⟩ := List.mem_map.1 he
        exact (x.event_cases d.source).2.1
      · cases he
  | other n =>
      obtain ⟨a, -, hevent⟩ := List.mem_filterMap.1 he
      obtain ⟨object, rfl⟩ := Access.eq_of_event? hevent
      rfl

/-! ## §5. The log of a module. -/

namespace Program

/-- The event tells how a statement of the module makes the direct import, in the
scope before the statement. -/
def Tells (w : WatchList) (p : Program) (e : Event) (made : DirectImport) : Prop :=
  ∃ before s rest, p.body = before ++ s :: rest ∧ s.Tells w (scopeAt w before) e made

theorem forall₂_edits_after {w : WatchList} {p : Program} :
    ∀ rest before : List Statement, p.body = before ++ rest →
      List.Forall₂ (p.Tells w)
        ((inScopeAfter w (Statement.events w) before rest).filter Event.isEdit)
        (inScopeAfter w (Statement.directImports w) before rest) := by
  intro rest
  induction rest with
  | nil => exact fun _ _ => .nil
  | cons s rest ih =>
      intro before hbody
      have hrest := ih (before ++ [s]) (by rw [hbody, List.append_assoc]; rfl)
      rw [inScopeAfter, inScopeAfter, List.filter_append]
      refine List.rel_append ?_ hrest
      exact (s.forall₂_edits w (scopeAt w before)).imp fun e made h => ⟨before, s, rest, hbody, h⟩

theorem filter_isOfSpecifier_after {w : WatchList} :
    ∀ rest before : List Statement,
      (inScopeAfter w (Statement.events w) before rest).filter Event.isOfSpecifier
        = (rest.flatMap (Statement.specifiers w)).map fun (module, x) => x.event module := by
  intro rest
  induction rest with
  | nil => exact fun _ => rfl
  | cons s rest ih =>
      intro before
      rw [inScopeAfter, List.filter_append, ih, s.filter_isOfSpecifier, List.flatMap_cons,
        List.map_append]

/-- **What a log accounts for.** -/
structure Accounts (w : WatchList) (p : Program) (log : List Event) : Prop where
  /-- The events of edits are as many as the direct imports that are inserted, and
  in the same order each tells how its import was made. -/
  edits : List.Forall₂ (p.Tells w) (log.filter Event.isEdit) (p.queued w)
  /-- Each specifier of a watched import has one event, in order. -/
  specifiers : log.filter Event.isOfSpecifier
    = (p.body.flatMap (Statement.specifiers w)).map fun (module, x) => x.event module
  /-- The insertion is told exactly if a direct import is inserted. -/
  inserts_iff : (∃ e ∈ log, e.message = "inserting synthetic imports") ↔ p.queued w ≠ []
  /-- It is told once and last, with the number of direct imports and the place of
  the first of them. -/
  inserts : p.queued w ≠ [] → ∃ earlier last above below, log = earlier ++ [last]
    ∧ (∀ e ∈ earlier, e.message ≠ "inserting synthetic imports")
    ∧ last.message = "inserting synthetic imports"
    ∧ last.fields = [("count", .number (p.queued w).length), ("at", .number above.length)]
    ∧ p.kept w = above ++ below
    ∧ (p.split w).body = above ++ (p.queued w).map DirectImport.statement ++ below

end Program

theorem prologueEnd_le_length (body : List Statement) : prologueEnd body ≤ body.length := by
  induction body with
  | nil => exact Nat.le_refl 0
  | cons s body ih =>
      rw [prologueEnd, List.length_cons]
      split
      · omega
      · split
        · split <;> omega
        · exact Nat.zero_le _

namespace Program

theorem filter_insertion (w : WatchList) (p : Program) {kind : Event → Bool}
    (hkind : ∀ count place, kind (.importsInserted count place) = false) :
    (p.insertion w).filter kind = [] := by
  unfold insertion
  split
  · rfl
  · rw [List.filter_cons_of_neg (by rw [hkind]; exact Bool.false_ne_true)]
    rfl

theorem insertion_eq_nil {w : WatchList} {p : Program} (h : p.queued w = []) :
    p.insertion w = [] := by
  rw [queued_eq] at h
  unfold insertion
  rw [h]
  rfl

theorem insertion_of_ne_nil {w : WatchList} {p : Program} (h : p.queued w ≠ []) :
    p.insertion w = [.importsInserted (p.queued w).length (prologueEnd (p.kept w))] := by
  rw [queued_eq] at h ⊢
  unfold insertion
  rw [if_neg fun hempty => h (List.isEmpty_iff.1 hempty)]

/-- The log of a split accounts for it. -/
theorem accounts_splitLogged (w : WatchList) (p : Program) :
    p.Accounts w (p.splitLogged w).2 := by
  have hno : ∀ e ∈ p.inScope w (Statement.events w), e.message ≠ "inserting synthetic imports" := by
    intro e he
    obtain ⟨before, s, rest, -, he⟩ := mem_inScope_iff.1 he
    exact beq_eq_false_iff_ne.1 (Statement.isInsertion_of_mem_events he)
  rw [p.log_eq w]
  constructor
  case edits =>
    rw [List.filter_append, filter_insertion w p fun _ _ => rfl, List.append_nil, inScope_eq,
      queued_eq, directImports, inScope_eq]
    exact forall₂_edits_after p.body [] rfl
  case specifiers =>
    rw [List.filter_append, filter_insertion w p fun _ _ => rfl, List.append_nil, inScope_eq]
    exact filter_isOfSpecifier_after p.body []
  case inserts_iff =>
    constructor
    · rintro ⟨e, he, hmessage⟩ hnil
      rw [insertion_eq_nil hnil, List.append_nil] at he
      exact hno e he hmessage
    · intro hne
      rw [insertion_of_ne_nil hne]
      exact ⟨_, List.mem_concat_self, rfl⟩
  case inserts =>
    intro hne
    refine ⟨_, _, (p.kept w).take (prologueEnd (p.kept w)), (p.kept w).drop (prologueEnd (p.kept w)),
      congrArg _ (insertion_of_ne_nil hne), hno, rfl, ?_, (List.take_append_drop _ _).symm, ?_⟩
    · rw [List.length_take_of_le (prologueEnd_le_length _)]
      rfl
    · rw [queued_eq, split_body]
      rfl

end Program

/-- **The log of a text that is a module accounts for every edit.** -/
theorem splitTextLogged_accounts (w : WatchList) {d : Dialect} {source : String} {p : Program}
    (h : Program.ofSource d source = .ok p) :
    ∃ log, splitTextLogged w d source = .ok ((p.split w).spelling, log) ∧ p.Accounts w log := by
  refine ⟨(p.splitLogged w).2, ?_, p.accounts_splitLogged w⟩
  unfold splitTextLogged
  rw [h]
  rfl

/-- A watched import of all kinds, and an access. -/
def mixedText : String := "import _, \x7bget, type T\x7d from \"lodash\";\n_.map;"

/-- The module that this text is. -/
def mixedModule : Program :=
  ⟨[.importing
      { specifiers := [.byDefault (some "_"), .named (some "get") (some "get"),
          .typeOnly (some "T") (some "T")]
        source := "lodash"
        raw := some "import _, \x7bget, type T\x7d from \"lodash\";" },
    .other (.construct "expression_statement"
      [.node (.member (.identifier "_") "." "map"), .node (.token ";" ";")])]⟩

theorem splitTextLogged_accounts_mixed :
    Program.ofSource .ts mixedText = .ok mixedModule
      ∧ ∃ log, splitTextLogged .standard .ts mixedText
          = .ok ("import get from \"lodash/get\";\nimport lodash_map from \"lodash/map\";\n"
            ++ "import type \x7b T \x7d from \"lodash\";\nlodash_map;", log)
        ∧ mixedModule.Accounts .standard log := by
  have hread : Program.ofSource .ts mixedText = .ok mixedModule :=
    Program.ofSource_eq_ok_iff.2 (by decide +kernel)
  have hspelling : (mixedModule.split .standard).spelling
      = "import get from \"lodash/get\";\nimport lodash_map from \"lodash/map\";\n"
        ++ "import type \x7b T \x7d from \"lodash\";\nlodash_map;" := by
    decide +kernel
  rw [← hspelling]
  exact ⟨hread, splitTextLogged_accounts .standard hread⟩

/-- The five events of this text, in the order in which they are told. -/
example : (mixedModule.splitLogged .standard).2
    = [.handleBound "_" "lodash", .namedImport "get" "lodash/get", .typeKept "lodash" (.typeOnly (some "T") (some "T")),
      .accessRewritten "_" "map", .importsInserted 2 0] := by
  decide +kernel

end ImportSplit
