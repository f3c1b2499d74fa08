/-
  ImportSplit.Proofs.TypeMarks
  ────────────────────────────────
  **TYPES ARE READ WHERE A DIALECT HAS THEM.**

  The word `type` before a name marks the import of a type.  It is read by a
  rule that is barred in a dialect without types:

      `{ type T }`       a type, or no import at all
      `{ type as T }`    a member `type`, in all dialects

  That no other rule reads the mark is checked on the rules of imports, together
  with the surroundings in which they are read (`Rule.sparesMarks`).
-/
import ImportSplit.Proofs.Amounts
import ImportSplit.Proofs.ReadImport

namespace ImportSplit

open Grammar

/-! ## §1. Trees without marks. -/

/-- The node marks a type. -/
def Node.isTypeMark (n : Node) : Bool := n.isToken "type" || n.isToken "typeof"

/-- The constructs on the way from an import to its specifiers. -/
def importKinds : List String :=
  ["import_statement", "import_clause", "named_imports", "import_specifier"]

mutual
/-- No specifier in the node is marked as a type. -/
def Node.Unmarked : Node → Prop
  | .construct kind parts =>
      kind ∈ importKinds → Part.AllUnmarked (kind == "import_specifier") parts
  | _ => True
/-- None is in the parts, and `inside` a specifier there is no mark. -/
def Part.AllUnmarked (inside : Bool) : List Part → Prop
  | [] => True
  | p :: rest => p.Unmarked inside ∧ Part.AllUnmarked inside rest
/-- The part is no such mark, and has no marked specifier. -/
def Part.Unmarked (inside : Bool) : Part → Prop
  | .text _ => True
  | .node n => (inside = true → n.isTypeMark = false) ∧ n.Unmarked
end

theorem Part.allUnmarked_iff {inside : Bool} {ps : List Part} :
    Part.AllUnmarked inside ps ↔ ∀ p ∈ ps, p.Unmarked inside := by
  induction ps with
  | nil => simp [Part.AllUnmarked]
  | cons p ps ih => simp [Part.AllUnmarked, ih]

/-- What is no mark in a specifier is none outside. -/
theorem Part.Unmarked.mono {inside outside : Bool} {p : Part} (h : p.Unmarked inside)
    (hle : outside = true → inside = true) : p.Unmarked outside := by
  cases p with
  | text t => trivial
  | node n => exact ⟨fun hout => h.1 (hle hout), h.2⟩

theorem Node.isTypeMark_build {kind : String} {ps : List Part} :
    (Node.build kind ps).isTypeMark = false := by
  unfold isTypeMark
  rw [isToken_build, isToken_build]
  rfl

theorem Node.unmarked_build {kind : String} {ps : List Part}
    (h : kind ∈ importKinds → Part.AllUnmarked (kind == "import_specifier") ps) :
    (Node.build kind ps).Unmarked := by
  by_cases hkind : kind ∈ importKinds
  · -- these are built of their parts as they are
    have hplain : kind ≠ "member_expression" ∧ kind ≠ "assignment_expression" := by
      constructor <;> rintro rfl <;> exact absurd hkind (by decide)
    unfold build
    rw [if_neg hplain.1, if_neg hplain.2]
    exact h
  · have hbuilt : (Node.build kind ps).kind = kind := kind_build kind ps
    cases hn : Node.build kind ps with
    | construct k parts =>
        rw [hn] at hbuilt
        obtain rfl : k = kind := hbuilt
        exact fun hk => absurd hk hkind
    | _ => trivial

theorem Part.AllUnmarked.node {inside : Bool} {ps : List Part} (h : Part.AllUnmarked inside ps)
    {n : Node} (hn : n ∈ Part.nodes ps) :
    (inside = true → n.isTypeMark = false) ∧ n.Unmarked := by
  obtain ⟨p, hp, hpn⟩ := List.mem_filterMap.1 hn
  cases p with
  | text t => cases hpn
  | node m =>
      obtain rfl : m = n := Option.some.inj hpn
      exact Part.allUnmarked_iff.1 h _ hp

/-- Blanks and comments are no marks. -/
theorem Part.IsGap.unmarked {p : Part} (h : p.IsGap) (inside : Bool) : p.Unmarked inside := by
  cases p with
  | text t => trivial
  | node n =>
      cases n with
      | token kind text =>
          refine ⟨fun _ => ?_, trivial⟩
          obtain ⟨hkind, hstarts⟩ := h
          obtain ⟨c, hc, hmem⟩ := hstarts (by rcases hkind with rfl | rfl <;> decide)
          have hmark : ∀ word, ('t' ∈ word.toList.head?) → (Node.token kind text).isToken word = false := by
            intro word hword
            refine Bool.eq_false_iff.2 fun heq => ?_
            obtain rfl : text = word := eq_of_beq heq
            obtain rfl : c = 't' := Option.some.inj (hc.symm.trans hword)
            rcases hkind with rfl | rfl <;> exact absurd hmem (by decide)
          unfold Node.isTypeMark
          rw [hmark "type" rfl, hmark "typeof" rfl]
          rfl
      | _ => cases h

/-! ## §2. Rules that read no marks. -/

namespace Grammar

/-- The token is no mark of a type. -/
def sparesMark (kind : String) : Lexeme → Bool
  | .keyword w => w != "type".toList && w != "typeof".toList
  | .string => true
  | _ => kind == "identifier"

namespace Rule

variable {ν : Type}

/-- The rule cannot be read in these surroundings. -/
def isOut (c : Context) : Rule ν → Bool
  | given p => !p c
  | seq first second => isOut c first || isOut c second
  | _ => false

/-- The rule makes a specifier of its row. -/
def makesSpecifier : Rule ν → Bool
  | wrap kind _ => kind == "import_specifier"
  | _ => false

/-- In these surroundings the rule reads no marked specifier, and `inside` a
specifier no mark. -/
def sparesMarks : (inside : Bool) → Context → Rule ν → Bool
  | inside, _, leaf kind lexeme => !inside || sparesMark kind lexeme
  | inside, c, seq first second =>
      isOut c first || (sparesMarks inside c first && sparesMarks inside c second)
  | inside, c, either first second => sparesMarks inside c first && sparesMarks inside c second
  | inside, c, many r => sparesMarks inside c r
  | inside, c, within f r => sparesMarks inside (f c) r
  | inside, c, scope r => (!inside || makesSpecifier r) && sparesMarks (makesSpecifier r) c r
  | inside, c, wrap kind r =>
      !importKinds.contains kind || (inside == (kind == "import_specifier") && sparesMarks inside c r)
  | _, _, call _ => false
  | _, _, _ => true

end Rule

variable {ν : Type} {rules : ν → Rule ν} {c : Context} {row row' : List Part} {s s' : List Char}

theorem Reads.isOut_eq_false {r : Rule ν} (h : Reads rules r c row s row' s') :
    r.isOut c = false := by
  induction h with
  | given hgiven => simp [Rule.isOut, hgiven]
  | seq _ _ ih₁ ih₂ => simp [Rule.isOut, ih₁, ih₂]
  | _ => rfl

theorem unmarked_leaf {kind : String} {lexeme : Lexeme} {inside : Bool} {n : Nat}
    (hleaf : (!inside || sparesMark kind lexeme) = true) (hsize : lexeme.size? s = some n) :
    (Part.node (.leaf kind (String.ofList (s.take n)))).Unmarked inside := by
  by_cases hkind : kind = "identifier"
  · subst hkind
    exact ⟨fun _ => rfl, trivial⟩
  · have htoken : Node.leaf kind (String.ofList (s.take n)) = .token kind (String.ofList (s.take n)) :=
      if_neg hkind
    rw [htoken]
    refine ⟨fun hinside => ?_, trivial⟩
    rw [hinside, Bool.not_true, Bool.false_or] at hleaf
    -- the text of a keyword is its word, and a string starts with its quote
    have hwords : ∀ word ∈ ["type", "typeof"],
        (word.toList != "type".toList && word.toList != "typeof".toList) = false
          ∧ word.toList.head? = some 't' := by decide
    have hnot : ∀ word ∈ ["type", "typeof"], s.take n ≠ word.toList := by
      intro word hword htake
      cases lexeme with
      | keyword w =>
          have hw : (word.toList != "type".toList && word.toList != "typeof".toList) = true := by
            rw [← htake, eq_of_keyword_size? hsize]
            exact hleaf
          rw [(hwords word hword).1] at hw
          cases hw
      | string =>
          obtain ⟨q, hq, hquote⟩ := head?_of_string hsize
          rw [htake, (hwords word hword).2] at hq
          obtain rfl : 't' = q := Option.some.inj hq
          exact absurd hquote (by decide)
      | _ => exact hkind (eq_of_beq hleaf)
    have htext : ∀ word ∈ ["type", "typeof"],
        (Node.token kind (String.ofList (s.take n))).isToken word = false := by
      intro word hword
      refine Bool.eq_false_iff.2 fun heq => hnot word hword ?_
      have heq : (String.ofList (s.take n) == word) = true := heq
      rw [← eq_of_beq heq, String.toList_ofList]
    unfold Node.isTypeMark
    rw [htext "type" (by decide), htext "typeof" (by decide)]
    rfl

/-- **A rule that spares marks adds none to the row.** -/
theorem Reads.unmarked {r : Rule ν} {inside : Bool} (h : Reads rules r c row s row' s')
    (hr : r.sparesMarks inside c = true) (hrow : ∀ p ∈ row, p.Unmarked inside) :
    ∀ p ∈ row', p.Unmarked inside := by
  induction h generalizing inside with
  | nothing | stays | stop | ahead | notAhead | holds | given => exact hrow
  | leaf hsize => exact List.forall_mem_cons.2 ⟨unmarked_leaf hr hsize, hrow⟩
  | gap | ends =>
      exact List.forall_mem_append.2 ⟨fun p hp => (isGap_of_readGap p hp).unmarked _, hrow⟩
  | seq hfirst _ ih₁ ih₂ =>
      unfold Rule.sparesMarks at hr
      rw [hfirst.isOut_eq_false, Bool.false_or] at hr
      obtain ⟨hr₁, hr₂⟩ := Bool.and_eq_true _ _ ▸ hr
      exact ih₂ hr₂ (ih₁ hr₁ hrow)
  | left _ ih => exact ih (Bool.and_eq_true _ _ ▸ hr).1 hrow
  | right _ ih => exact ih (Bool.and_eq_true _ _ ▸ hr).2 hrow
  | again _ _ ih₁ ih₂ => exact ih₂ hr (ih₁ hr hrow)
  -- the row inside starts fresh
  | @scope r c row s inner s' _ ih =>
      obtain ⟨hinside, hr⟩ := Bool.and_eq_true _ _ ▸ hr
      have hinner := ih hr fun p hp => absurd hp List.not_mem_nil
      refine List.forall_mem_append.2 ⟨fun p hp => (hinner p hp).mono ?_, List.forall_mem_append.2
        ⟨fun p hp => (isGap_of_readGap p hp).unmarked _, hrow⟩⟩
      rintro rfl
      simpa using hinside
  | @wrap r c row s kind row' s' _ ih =>
      refine List.forall_mem_singleton.2 ⟨fun _ => Node.isTypeMark_build, ?_⟩
      refine Node.unmarked_build fun hkind => ?_
      rcases Bool.or_eq_true _ _ ▸ hr with hother | hspares
      · rw [Bool.not_eq_true', List.contains_iff_mem.2 hkind] at hother
        cases hother
      · obtain ⟨hsame, hspares⟩ := Bool.and_eq_true _ _ ▸ hspares
        obtain rfl := eq_of_beq hsame
        exact Part.allUnmarked_iff.2 fun p hp => ih hspares hrow p (List.mem_reverse.1 hp)
  | call => cases hr
  | within _ ih => exact ih hr hrow

end Grammar

/-! ## §3. Imports. -/

/-- The specifier of a row without marks is no type. -/
theorem Specifier.isTypeOnly_ofParts {ps : List Part} (h : Part.AllUnmarked true ps) :
    (ofParts ps).isTypeOnly = false := by
  have hnone : ((Part.nodes ps).any fun n => n.isToken "type" || n.isToken "typeof") = false := by
    refine List.any_eq_false.2 fun n hn => ?_
    exact Bool.eq_false_iff.1 ((h.node hn).1 rfl)
  unfold ofParts
  simp only [hnone, Bool.false_eq_true, if_false]
  rfl

theorem ImportDecl.isTypeOnly_of_unmarked {n : Node} {d : ImportDecl} (hn : n.Unmarked)
    (h : ofNode? n = some d) : ∀ x ∈ d.specifiers, x.isTypeOnly = false := by
  obtain ⟨parts, source, rfl, -, hspecifiers, -, -⟩ := ImportDecl.of_ofNode? h
  rw [hspecifiers]
  intro x hx
  obtain ⟨clause, hclause, hx⟩ := List.mem_flatMap.1 hx
  obtain ⟨m, hm, hmx⟩ := List.mem_filterMap.1 hclause
  obtain rfl := Node.of_partsOf? hmx
  obtain ⟨k, hk, hx⟩ := List.mem_flatMap.1 hx
  have hparts : Part.AllUnmarked false parts := hn (by decide)
  have hclause : Part.AllUnmarked false clause := (hparts.node hm).2 (by decide)
  have hk : k.Unmarked := (hclause.node hk).2
  unfold Specifier.ofClauseNode at hx
  split at hx
  · rw [List.mem_singleton.1 hx]
    rfl
  · rw [List.mem_singleton.1 hx]
    rfl
  · next names _ =>
      obtain ⟨ps, hps, rfl⟩ := List.mem_map.1 hx
      obtain ⟨m, hm, hmps⟩ := List.mem_filterMap.1 hps
      obtain rfl := Node.of_partsOf? hmps
      have hnames : Part.AllUnmarked false names := hk (by decide)
      exact Specifier.isTypeOnly_ofParts ((hnames.node hm).2 (by decide))
  · cases hx

/-- Where a dialect has no types, no specifier that is read there is one. -/
theorem Grammar.ReadAt.isTypeOnly_of_not_hasTypes {d : Dialect} {s : List Char} {n : Node}
    (h : ReadAt d s n) (hd : d.hasTypes = false) {decl : ImportDecl}
    (hdecl : ImportDecl.ofNode? n = some decl) : ∀ x ∈ decl.specifiers, x.isTypeOnly = false := by
  obtain ⟨-, inner, s', rfl, hinner⟩ := h.reads_import (by rw [hdecl]; exact Option.some_ne_none _)
  have hspares : (Rule.row [Rule.keyword "import",
      .either (Rule.typed (Rule.row
        [.either (Rule.keyword "type") (Rule.keyword "typeof"), importRest])) importRest,
      importAttributes, Rule.semicolon false] : ModuleRule).sparesMarks false { dialect := d }
        = true := by
    cases d with
    | js | jsx => decide +kernel
    | ts | tsx => cases hd
  have hparts : Part.AllUnmarked false inner.reverse := by
    refine Part.allUnmarked_iff.2 fun p hp => ?_
    exact hinner.unmarked hspares (fun p hp => absurd hp List.not_mem_nil) p (List.mem_reverse.1 hp)
  have hn : (Node.construct "import_statement" inner.reverse).Unmarked := fun _ => hparts
  exact ImportDecl.isTypeOnly_of_unmarked hn hdecl

/-- **In a dialect without types no types are imported.** -/
theorem Program.types_eq_nil {d : Dialect} {source : String} {p : Program}
    (h : ofSource d source = .ok p) (hd : d.hasTypes = false) {i : ImportDecl}
    (hi : i ∈ p.imports) : i.types = [] := by
  obtain ⟨ns, hbody, hsegments, -⟩ := segments_of_ofSource? (ofSource_eq_ok_iff.1 h)
  obtain ⟨s, hs, hsi⟩ := List.mem_filterMap.1 hi
  rw [hbody] at hs
  obtain ⟨n, hn, rfl⟩ := List.mem_map.1 hs
  obtain ⟨t, hread⟩ := hsegments.readAt_of_mem n hn
  cases hdecl : ImportDecl.ofNode? n with
  | none =>
      rw [Statement.ofNode, hdecl] at hsi
      cases hsi
  | some decl =>
      rw [Statement.ofNode, hdecl] at hsi
      cases hsi
      refine List.filter_eq_nil_iff.2 fun x hx => ?_
      have hnot := hread.isTypeOnly_of_not_hasTypes hd hdecl x hx
      cases x with
      | typeOnly => cases hnot
      | byDefault | whole | named => exact Bool.false_ne_true

end ImportSplit
