/-
  ImportSplit.Proofs.Prologue
  ────────────────────────────────
  **THE DIRECTIVES OF A MODULE, BEFORE AND AFTER A SPLIT.**

  A string that stands as a statement is a directive if nothing but other
  directives, comments and the line `#!…` stands before it:

      "use strict" /* c */;      a directive
      f();
      "use strict";              none

  A split should leave the directives of a module as they are.  It knows a
  directive by `Statement.isDirective`, which a comment inside the statement
  hides; and where it takes an import away, a string behind the import may
  become a directive.  Nothing else can go wrong (`directives_split_iff`).
-/
import ImportSplit.Proofs.FixedText
import ImportSplit.Proofs.Semicolons

namespace ImportSplit

/-! ## §1. Directives. -/

/-- The nodes are a string literal and at most a semicolon behind it. -/
def Node.areString : List Node → Bool
  | [first] => first.kind == "string"
  | [first, last] => first.kind == "string" && last.isToken ";"
  | _ => false

namespace Statement

/-- A string that stands as a statement, comments in it aside. -/
def isStringStatement : Statement → Bool
  | other (.construct kind parts) =>
      kind == "expression_statement"
        && Node.areString ((Part.nodes parts).filter fun n => n.kind != "comment")
  | _ => false

/-- The statement may stand before a directive, or be one. -/
def opens (s : Statement) : Bool := s.isHashbang || s.isComment || s.isStringStatement

end Statement

/-- The directives among statements: the strings in front of everything else. -/
def directivesOf (body : List Statement) : List Statement :=
  (body.takeWhile Statement.opens).filter Statement.isStringStatement

namespace Program

/-- The hashbang line, the directives and the comments at the start. -/
def prologue (p : Program) : List Statement := p.body.takeWhile Statement.opens

/-- The directives of a module. -/
def directives (p : Program) : List Statement := directivesOf p.body

/-- What a split leaves of the statements behind the prologue, before it
rewrites them. -/
def leftBehind (w : WatchList) (p : Program) : List Statement :=
  (p.body.dropWhile Statement.opens).filter fun s => !s.goesAway w

end Program

/-! ## §2. What a rewriting cannot change. -/

/-- A property that no rewriting of accesses changes, and that no import has. -/
structure Steady (f : Statement → Bool) : Prop where
  direct : ∀ scope n, f (.other (n.direct scope)) = f (.other n)
  imported : ∀ d, f (.importing d) = false

namespace Steady

variable {f g : Statement → Bool}

theorem or (hf : Steady f) (hg : Steady g) : Steady fun s => f s || g s where
  direct scope n := by rw [hf.direct, hg.direct]
  imported d := by rw [hf.imported, hg.imported]; rfl

end Steady

theorem Node.areString_direct (scope : Scope) (ns : List Node) :
    Node.areString (ns.map (Node.direct scope)) = Node.areString ns := by
  have hstring : ∀ m : Node, ((m.direct scope).kind == "string") = (m.kind == "string") :=
    fun m => m.kind_direct scope (by decide) (by decide)
  rcases ns with _ | ⟨a, _ | ⟨b, _ | ⟨c, ns⟩⟩⟩
  · rfl
  · exact hstring a
  · show (_ == _ && _) = (_ == _ && _)
    rw [hstring, Node.isToken_direct]
  · rfl

namespace Statement

theorem steady_isHashbang : Steady isHashbang where
  direct scope n := n.kind_direct scope (by decide) (by decide)
  imported _ := rfl

theorem steady_isComment : Steady isComment where
  direct scope n := n.kind_direct scope (by decide) (by decide)
  imported _ := rfl

theorem steady_isDirective : Steady isDirective where
  imported _ := rfl
  direct scope n := by
    cases n with
    | identifier | token => rfl
    | member object operator property =>
        rw [Node.direct]
        split <;> rfl
    | construct kind parts =>
        have hstring : ∀ m : Node, ((m.direct scope).kind == "string") = (m.kind == "string") :=
          fun m => m.kind_direct scope (by decide) (by decide)
        simp only [Node.direct, isDirective, Part.nodes_directList]
        cases Part.nodes parts with
        | nil => rfl
        | cons first rest =>
            simp only [List.map_cons, hstring, List.all_map, Function.comp_def,
              Node.isToken_direct]

theorem steady_isStringStatement : Steady isStringStatement where
  imported _ := rfl
  direct scope n := by
    cases n with
    | identifier | token => rfl
    | member object operator property =>
        rw [Node.direct]
        split <;> rfl
    | construct kind parts =>
        have hcomment : ∀ m : Node, ((m.direct scope).kind != "comment") = (m.kind != "comment") :=
          fun m => congrArg not (m.kind_direct scope (by decide) (by decide))
        simp only [Node.direct, isStringStatement, Part.nodes_directList, List.filter_map,
          Function.comp_def, hcomment, Node.areString_direct]

theorem steady_opens : Steady opens :=
  (steady_isHashbang.or steady_isComment).or steady_isStringStatement

theorem steady_inPrologue : Steady inPrologue :=
  (steady_isHashbang.or steady_isDirective).or steady_isComment

end Statement

/-! ## §3. Runs of statements. -/

section
variable {w : WatchList} {f g : Statement → Bool}

/-- What stays of a statement has its steady properties. -/
theorem Steady.kept (hf : Steady f) {scope : Scope} {s t : Statement} (h : s ∈ t.kept w scope) :
    f s = f t := by
  cases t with
  | importing d =>
      rcases Statement.kept_importing w scope d with ⟨hnil, -⟩ | ⟨e, hone, -⟩
      · rw [hnil] at h
        cases h
      · rw [hone, List.mem_singleton] at h
        rw [h, hf.imported, hf.imported]
  | other n =>
      rw [List.mem_singleton.1 h]
      exact hf.direct scope n

/-- A run of what stays looks like a run of the statements that do not go away. -/
theorem forall_takeWhile_kept (hf : Steady f) (hg : Steady g) :
    ∀ rest before : List Statement,
      (∀ s ∈ (inScopeAfter w (Statement.kept w) before rest).takeWhile f, g s = false)
        ↔ ∀ s ∈ (rest.filter fun s => !s.goesAway w).takeWhile f, g s = false := by
  intro rest
  induction rest with
  | nil => exact fun _ => Iff.rfl
  | cons s rest ih =>
      intro before
      have hrest := ih (before ++ [s])
      rw [inScopeAfter, List.filter_cons]
      cases s with
      | importing d =>
          rcases Statement.kept_importing w (scopeAt w before) d with
            ⟨hkept, hgone⟩ | ⟨e, hkept, hstays⟩
          · rw [hkept, hgone]
            exact hrest
          · -- an import that stays ends both runs
            rw [hkept, hstays, List.cons_append, List.takeWhile_cons_of_neg (by simp [hf.imported])]
            simp [hf.imported]
      | other n =>
          show (∀ s ∈ (Statement.other (n.direct _) :: _).takeWhile f, _)
            ↔ ∀ s ∈ (Statement.other n :: _).takeWhile f, _
          rw [List.takeWhile_cons, List.takeWhile_cons, hf.direct]
          cases f (.other n) with
          | false => exact Iff.rfl
          | true =>
              simp only [if_true, List.forall_mem_cons, hg.direct]
              exact and_congr_right fun _ => hrest

/-- What may stand before a directive may stand in a prologue, or is a string. -/
theorem Statement.inPrologue_or_of_opens {s : Statement} (h : s.opens = true) :
    s.inPrologue = true ∨ s.isStringStatement = true := by
  rw [opens, Bool.or_eq_true, Bool.or_eq_true] at h
  unfold inPrologue
  rcases h with (h | h) | h
  · exact .inl (by rw [h, Bool.true_or, Bool.true_or])
  · exact .inl (by rw [h, Bool.or_true])
  · exact .inr h

/-- A string statement is neither a comment nor the line `#!…`. -/
theorem Statement.of_isStringStatement {s : Statement} (h : s.isStringStatement = true) :
    s.isHashbang = false ∧ s.isComment = false := by
  cases s with
  | importing e => cases h
  | other n =>
      cases n with
      | identifier | member | token => cases h
      | construct kind parts =>
          obtain rfl : kind = "expression_statement" := eq_of_beq (Bool.and_eq_true _ _ ▸ h).1
          exact ⟨rfl, rfl⟩

/-- Comments aside, imports are inserted behind the run of statements that may
stand in a prologue. -/
theorem filter_take_prologueEnd (hcomment : ∀ s : Statement, s.isComment = true → f s = false)
    (body : List Statement) :
    (body.take (prologueEnd body)).filter f = (body.takeWhile Statement.inPrologue).filter f := by
  induction body with
  | nil => rfl
  | cons s rest ih =>
      unfold prologueEnd
      by_cases hstart : (s.isHashbang || s.isDirective) = true
      · have hs : s.inPrologue = true := by
          unfold Statement.inPrologue
          rw [hstart, Bool.true_or]
        rw [if_pos hstart, List.take_succ_cons, List.takeWhile_cons_of_pos hs, List.filter_cons,
          List.filter_cons, ih]
      · rw [if_neg hstart]
        by_cases hs : s.isComment = true
        · have hin : s.inPrologue = true := by
            unfold Statement.inPrologue
            rw [hs, Bool.or_true]
          rw [if_pos hs, List.takeWhile_cons_of_pos hin,
            List.filter_cons_of_neg (by rw [hcomment s hs]; exact Bool.false_ne_true), ← ih]
          cases prologueEnd rest with
          | zero => rfl
          | succ n =>
              rw [List.take_succ_cons, List.filter_cons_of_neg
                (by rw [hcomment s hs]; exact Bool.false_ne_true)]
        · have hin : ¬ s.inPrologue = true := by
            unfold Statement.inPrologue
            rw [Bool.or_eq_true]
            exact fun h => h.elim hstart hs
          rw [if_neg hs, List.takeWhile_cons_of_neg hin]
          rfl

/-- Behind statements that may stand before a directive, further ones may follow. -/
theorem directivesOf_append {l more : List Statement} (hl : ∀ s ∈ l, s.opens = true) :
    directivesOf (l ++ more) = l.filter Statement.isStringStatement ++ directivesOf more := by
  unfold directivesOf
  rw [List.takeWhile_append_of_pos hl, List.filter_append]

theorem directivesOf_eq_nil_iff {l : List Statement} :
    directivesOf l = [] ↔ ∀ s ∈ l.takeWhile Statement.opens, s.isStringStatement = false := by
  unfold directivesOf
  simp only [List.filter_eq_nil_iff, Bool.not_eq_true]

end

/-! ## §4. The directives of a split module. -/

/-- A directive has one semicolon at most, so it is a string statement. -/
theorem Node.areString_of_semicolons {first : Node} {rest : List Node}
    (hfirst : (first.kind == "string") = true) (hrest : rest.all (Node.isToken ";") = true)
    (hone : (first :: rest).countP (Node.isToken ";") ≤ 1) :
    Node.areString ((first :: rest).filter fun n => n.kind != "comment") = true := by
  have hkind : (first.kind != "comment") = true := by
    rw [eq_of_beq hfirst]
    decide
  have hlength : rest.length ≤ 1 := by
    have hall : rest.countP (Node.isToken ";") = rest.length :=
      List.countP_eq_length.2 (List.all_eq_true.1 hrest)
    rw [List.countP_cons, hall] at hone
    omega
  rw [List.filter_cons, if_pos hkind]
  cases rest with
  | nil => exact hfirst
  | cons last rest =>
      obtain rfl : rest = [] := List.eq_nil_of_length_eq_zero (by simpa using hlength)
      have hlast : last.isToken ";" = true := List.all_eq_true.1 hrest last List.mem_cons_self
      rw [List.filter_cons]
      split
      · show (_ && _) = true
        rw [hfirst, hlast]
        rfl
      · exact hfirst

/-- Of statements that do not all have a property there is a first one without. -/
theorem exists_first {f : Statement → Bool} {l : List Statement} (h : ¬ ∀ s ∈ l, f s = true) :
    ∃ before s after, l = before ++ s :: after ∧ (∀ t ∈ before, f t = true) ∧ f s = false := by
  induction l with
  | nil => exact absurd (fun _ hs => absurd hs List.not_mem_nil) h
  | cons s rest ih =>
      by_cases hs : f s = true
      · obtain ⟨before, t, after, rfl, hbefore, ht⟩ :=
          ih fun hrest => h (List.forall_mem_cons.2 ⟨hs, hrest⟩)
        exact ⟨s :: before, t, after, rfl, List.forall_mem_cons.2 ⟨hs, hbefore⟩, ht⟩
      · exact ⟨[], s, rest, rfl, fun _ ht => absurd ht List.not_mem_nil, Bool.eq_false_iff.2 hs⟩

namespace Program

variable {w : WatchList} {d : Dialect} {source : String} {p : Program}

theorem opens_of_mem_prologue {s : Statement} (hs : s ∈ p.prologue) : s.opens = true :=
  List.all_eq_true.1 List.all_takeWhile s hs

/-- In a module that was read, what passes the test of a split for directives is
a string statement. -/
theorem isStringStatement_of_isDirective (h : ofSource d source = .ok p) {s : Statement}
    (hs : s ∈ p.body) (hdirective : s.isDirective = true) : s.isStringStatement = true := by
  obtain ⟨ns, hbody, hsegments, -⟩ := segments_of_ofSource? (ofSource_eq_ok_iff.1 h)
  rw [hbody] at hs
  obtain ⟨n, hn, rfl⟩ := List.mem_map.1 hs
  obtain ⟨t, hread⟩ := hsegments.readAt_of_mem n hn
  cases hdecl : ImportDecl.ofNode? n with
  | some decl =>
      rw [Statement.ofNode_of_some hdecl] at hdirective
      cases hdirective
  | none =>
      rw [Statement.ofNode_of_none hdecl] at hdirective ⊢
      cases n with
      | identifier | member | token => cases hdirective
      | construct kind parts =>
          obtain ⟨hkind, hnodes⟩ := Bool.and_eq_true _ _ ▸ hdirective
          obtain rfl : kind = "expression_statement" := eq_of_beq hkind
          have hone := hread.semicolons_le
          unfold Part.semicolons at hone
          show Node.areString _ = true
          cases hparts : Part.nodes parts with
          | nil =>
              rw [hparts] at hnodes
              cases hnodes
          | cons first rest =>
              rw [hparts] at hnodes hone
              obtain ⟨hfirst, hrest⟩ := Bool.and_eq_true _ _ ▸ hnodes
              exact Node.areString_of_semicolons hfirst hrest hone

/-- The prologue stays as it is, since no import stands above it. -/
theorem kept_eq_prologue_append (w : WatchList) (p : Program) :
    p.kept w = p.prologue
      ++ inScopeAfter w (Statement.kept w) p.prologue (p.body.dropWhile Statement.opens) := by
  have hsettled : ∀ s ∈ [] ++ p.prologue, s.Settled w := by
    intro s hs
    have hopens := opens_of_mem_prologue hs
    cases s with
    | importing e => cases hopens
    | other n => trivial
  have hbody : p.body = p.prologue ++ p.body.dropWhile Statement.opens :=
    List.takeWhile_append_dropWhile.symm
  unfold kept
  rw [inScope_eq]
  conv => lhs; rw [hbody]
  rw [inScopeAfter_append, (inScopeAfter_of_settled p.prologue [] hsettled).1]
  rfl

/-- Without direct imports the directives stay, and more may follow them. -/
theorem directives_split_of_nil (hnil : p.queued w = []) :
    (p.split w).directives = p.directives
      ↔ ∀ s ∈ (p.leftBehind w).takeWhile Statement.opens, s.isStringStatement = false := by
  have hbody : (p.split w).body = p.kept w := by
    rw [split_body, ← queued_eq, hnil, List.map_nil, insertImports_nil]
  unfold directives leftBehind
  rw [hbody, kept_eq_prologue_append, directivesOf_append fun _ => opens_of_mem_prologue,
    ← forall_takeWhile_kept Statement.steady_opens Statement.steady_isStringStatement,
    ← directivesOf_eq_nil_iff]
  show _ = p.prologue.filter Statement.isStringStatement ↔ _
  exact List.append_right_eq_self

/-- What stays and may stand in a prologue may stand before a directive. -/
theorem opens_of_inPrologue (h : ofSource d source = .ok p) {s : Statement} (hs : s ∈ p.kept w)
    (hin : s.inPrologue = true) : s.opens = true := by
  obtain ⟨before, t, rest, hbody, hst⟩ := mem_inScope_iff.1 hs
  have ht : t ∈ p.body := by simp [hbody]
  unfold Statement.opens
  rw [Statement.inPrologue, Bool.or_eq_true, Bool.or_eq_true] at hin
  rcases hin with (hin | hin) | hin
  · rw [hin, Bool.true_or, Bool.true_or]
  · rw [Statement.steady_isDirective.kept hst] at hin
    rw [Statement.steady_isStringStatement.kept hst, isStringStatement_of_isDirective h ht hin,
      Bool.or_true]
  · rw [hin, Bool.or_true, Bool.true_or]

/-- With direct imports the directives are those in front of them. -/
theorem directives_split_of_ne_nil (h : ofSource d source = .ok p) (hne : p.queued w ≠ []) :
    (p.split w).directives
      = ((p.kept w).takeWhile Statement.inPrologue).filter Statement.isStringStatement := by
  obtain ⟨m, ds, hqueued⟩ := List.exists_cons_of_ne_nil hne
  have hopens : ∀ s ∈ (p.kept w).take (prologueEnd (p.kept w)), s.opens = true := fun s hs =>
    opens_of_inPrologue h (List.mem_of_mem_take hs) (inPrologue_of_mem_take s hs)
  have hcomment : ∀ s : Statement, s.isComment = true → s.isStringStatement = false := by
    intro s hs
    refine Bool.eq_false_iff.2 fun hstring => ?_
    rw [(Statement.of_isStringStatement hstring).2] at hs
    cases hs
  unfold directives
  rw [split_body, ← queued_eq, hqueued, insertImports, List.append_assoc,
    directivesOf_append hopens, filter_take_prologueEnd hcomment]
  -- the first import ends the run
  exact List.append_nil _

/-- The pass knows all of the prologue if it knows the directives in it. -/
theorem forall_inPrologue_iff :
    (∀ s ∈ p.prologue, s.inPrologue = true) ↔ ∀ s ∈ p.directives, s.isDirective = true := by
  constructor
  · intro hall s hs
    obtain ⟨hmem, hstring⟩ := List.mem_filter.1 hs
    obtain ⟨hhashbang, hcomment⟩ := Statement.of_isStringStatement hstring
    have hin := hall s hmem
    rwa [Statement.inPrologue, hhashbang, hcomment, Bool.false_or, Bool.or_false] at hin
  · intro hall s hs
    rcases Statement.inPrologue_or_of_opens (opens_of_mem_prologue hs) with hin | hstring
    · exact hin
    · rw [Statement.inPrologue, hall s (List.mem_filter.2 ⟨hs, hstring⟩), Bool.or_true,
        Bool.true_or]

/-- Where the pass knows all of the prologue, the imports stand behind it. -/
theorem filter_takeWhile_kept (hall : ∀ s ∈ p.prologue, s.inPrologue = true) :
    ((p.kept w).takeWhile Statement.inPrologue).filter Statement.isStringStatement
      = p.prologue.filter Statement.isStringStatement
        ++ ((inScopeAfter w (Statement.kept w) p.prologue
            (p.body.dropWhile Statement.opens)).takeWhile Statement.inPrologue).filter
              Statement.isStringStatement := by
  rw [kept_eq_prologue_append, List.takeWhile_append_of_pos hall, List.filter_append]

/-- Otherwise they stand before the first directive that it does not know. -/
theorem filter_takeWhile_kept_ne (hall : ¬ ∀ s ∈ p.prologue, s.inPrologue = true) :
    ((p.kept w).takeWhile Statement.inPrologue).filter Statement.isStringStatement
      ≠ p.prologue.filter Statement.isStringStatement := by
  obtain ⟨before, s, after, hsplit, hbefore, hs⟩ := exists_first hall
  have hstring : s.isStringStatement = true := by
    have hmem : s ∈ p.prologue := by simp [hsplit]
    refine (Statement.inPrologue_or_of_opens (opens_of_mem_prologue hmem)).resolve_left ?_
    rw [hs]
    exact Bool.false_ne_true
  rw [kept_eq_prologue_append]
  generalize inScopeAfter w (Statement.kept w) _ _ = behind
  rw [hsplit, List.append_assoc, List.takeWhile_append_of_pos hbefore, List.cons_append,
    List.takeWhile_cons_of_neg (by rw [hs]; exact Bool.false_ne_true), List.append_nil,
    List.filter_append, List.filter_cons, if_pos hstring]
  intro hsame
  have hlength := congrArg List.length hsame
  rw [List.length_append, List.length_cons] at hlength
  omega

/-- **When a split keeps the directives of a module.**  Where it inserts nothing,
no string behind the prologue may come to the front when imports go away.  Where
it inserts imports, the pass has to know all the directives, so that the imports
stand behind them, and no string may come to stand before the imports. -/
theorem directives_split_iff (h : ofSource d source = .ok p) :
    (p.split w).directives = p.directives
      ↔ (p.queued w = [] →
          ∀ s ∈ (p.leftBehind w).takeWhile Statement.opens, s.isStringStatement = false)
        ∧ (p.queued w ≠ [] → (∀ s ∈ p.directives, s.isDirective = true)
          ∧ ∀ s ∈ (p.leftBehind w).takeWhile Statement.inPrologue,
            s.isStringStatement = false) := by
  by_cases hnil : p.queued w = []
  · simp only [directives_split_of_nil hnil, hnil, forall_const, ne_eq, not_true_eq_false,
      false_implies, and_true]
  · simp only [directives_split_of_ne_nil h hnil, hnil, ne_eq, not_false_eq_true, forall_const,
      false_implies, true_and, ← forall_inPrologue_iff]
    show _ = p.prologue.filter Statement.isStringStatement ↔ _
    by_cases hall : ∀ s ∈ p.prologue, s.inPrologue = true
    · rw [filter_takeWhile_kept hall, and_iff_right hall]
      simp only [List.append_right_eq_self, List.filter_eq_nil_iff, Bool.not_eq_true]
      exact forall_takeWhile_kept Statement.steady_inPrologue Statement.steady_isStringStatement _ _
    · exact iff_of_false (filter_takeWhile_kept_ne hall) fun hboth => hall hboth.1

theorem directives_split_iff_strict :
    ∃ p, ofSource .js "\"use strict\";\nimport _ from \"lodash\";\n_.map(x);" = .ok p
      ∧ (p.split .standard).directives = p.directives := by
  have hruns : (ofSource? .js "\"use strict\";\nimport _ from \"lodash\";\n_.map(x);").map
        (fun p => ((p.queued .standard).isEmpty, p.directives.all Statement.isDirective,
          ((p.leftBehind .standard).takeWhile Statement.inPrologue).any
            Statement.isStringStatement))
      = some (false, true, false) := by
    decide +kernel
  obtain ⟨p, hp, heq⟩ := Option.map_eq_some_iff.1 hruns
  simp only [Prod.mk.injEq] at heq
  obtain ⟨hqueued, hknown, hnone⟩ := heq
  have hsource := ofSource_eq_ok_iff.2 hp
  refine ⟨p, hsource, (directives_split_iff hsource).2 ⟨fun hnil => ?_, fun _ => ⟨?_, ?_⟩⟩⟩
  · rw [hnil] at hqueued
    cases hqueued
  · exact List.all_eq_true.1 hknown
  · exact fun s hs => Bool.eq_false_iff.2 (List.any_eq_false.1 hnone s hs)

/-- A comment inside a directive hides it from the pass, so an import is inserted
before it: `"use strict" /* c */;` before an import of `get`. -/
theorem not_directives_split_eq :
    ¬ ∀ (w : WatchList) (d : Dialect) (source : String) (p : Program),
      ofSource d source = .ok p → (p.split w).directives = p.directives := by
  intro h
  have hruns : (ofSource? .js
        "\"use strict\" /* c */;\nimport \x7bget\x7d from \"lodash\";\nget(o);").map
        (fun p => ((p.split .standard).directives.length, p.directives.length))
      = some (0, 1) := by
    decide +kernel
  obtain ⟨p, hp, hlengths⟩ := Option.map_eq_some_iff.1 hruns
  rw [h .standard .js _ p (ofSource_eq_ok_iff.2 hp)] at hlengths
  obtain ⟨hzero, hone⟩ := Prod.mk.inj hlengths
  rw [hzero] at hone
  cases hone

end Program

end ImportSplit
