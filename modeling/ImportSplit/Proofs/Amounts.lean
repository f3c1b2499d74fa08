/-
  ImportSplit.Proofs.Amounts
  ────────────────────────────────
  **HOW OFTEN A CHARACTER STANDS IN A DECLARATION.**

  No text that a split writes of its own holds a point or the letter `l`
  (`Unwritten`); where one of them stands in a declaration, it stands in a name
  or in the source:

    • in one that was read, they are counted once at least
      (`amount_ofNode?_le`),
    • in one that was built to hold types, exactly once (`amount_types`).
-/
import Mathlib.Algebra.GroupWithZero.Nat
import ImportSplit.Proofs.Stateless
import ImportSplit.Proofs.ReadTrees

namespace ImportSplit

/-- How often the character stands in the text. -/
def amount (c : Char) (s : String) : Nat := s.toList.count c

/-- A character that no split writes of its own. -/
def Unwritten (c : Char) : Prop := c = '.' ∨ c = 'l'

variable {c : Char}

/-! ## §1. Texts. -/

theorem amount_append (s t : String) : amount c (s ++ t) = amount c s + amount c t := by
  unfold amount
  rw [String.toList_append, List.count_append]

theorem Unwritten.count_escape (hc : Unwritten c) (e : Char) :
    (Text.escape e).count c = [e].count c := by
  rcases Text.escape_cases e with ⟨hself, -⟩ | ⟨d, hpair, hd⟩ | ⟨hcontrol, hcode⟩
  · rw [hself]
  · rw [hpair]
    rcases Text.of_simpleEscape? hd with ⟨rfl, rfl⟩ | ⟨rfl, rfl⟩ | ⟨rfl, rfl⟩ <;>
      rcases hc with rfl | rfl <;> rfl
  · -- neither the escape nor the control character is the character
    have hdigits : c ∉ Text.controlHex e.toNat := by
      intro hmem
      have hhex := Grammar.isHex_of_mem_controlHex (Text.toNat_lt_of_isControl hcontrol) c hmem
      rcases hc with rfl | rfl <;> revert hhex <;> decide
    have hne : c ≠ e := by
      rintro rfl
      rcases hc with rfl | rfl <;> revert hcontrol <;> decide
    have hmem : c ∉ Text.escape e := by
      rw [hcode]
      simp only [List.mem_cons, List.mem_append, List.not_mem_nil, or_false, not_or]
      refine ⟨?_, ?_, ?_, hdigits, ?_⟩ <;> rcases hc with rfl | rfl <;> decide
    rw [List.count_eq_zero_of_not_mem hmem, List.count_eq_zero_of_not_mem (by simpa using hne)]

/-- A literal holds the character as often as its text. -/
theorem Unwritten.amount_quote (hc : Unwritten c) (s : String) :
    amount c (Text.quote s) = amount c s := by
  -- character by character, and the quotes are none of them
  have hinside : ∀ t : List Char, (t.flatMap Text.escape).count c = t.count c := by
    intro t
    induction t with
    | nil => rfl
    | cons e t ih =>
        rw [List.flatMap_cons, List.count_append, ih, hc.count_escape, ← List.count_append]
        rfl
  have hquote : ['"'].count c = 0 := by
    rcases hc with rfl | rfl <;> rfl
  have htext : '"' :: s.toList.flatMap Text.escape ++ ['"']
      = ['"'] ++ s.toList.flatMap Text.escape ++ ['"'] := rfl
  unfold amount Text.quote
  rw [String.toList_ofList, htext, List.count_append, List.count_append, hquote, hinside]
  omega

theorem amount_intercalate {sep : String} (hsep : amount c sep = 0) (l : List String) :
    amount c (String.intercalate sep l) = (l.map (amount c)).sum := by
  induction l with
  | nil =>
      rw [String.intercalate_nil]
      rfl
  | cons s l ih =>
      cases l with
      | nil => simp
      | cons t l =>
          rw [String.intercalate_cons_cons, amount_append, amount_append, hsep, ih]
          simp

/-! ## §2. Sums over parts. -/

theorem sum_filterMap {α β : Type} (f : α → Option β) (g : β → Nat) (l : List α) :
    ((l.filterMap f).map g).sum = (l.map fun a => (f a).elim 0 g).sum := by
  induction l with
  | nil => rfl
  | cons a l ih =>
      rw [List.filterMap_cons, List.map_cons, List.sum_cons, ← ih]
      cases f a <;> simp

theorem sum_flatMap {α β : Type} (f : α → List β) (g : β → Nat) (l : List α) :
    ((l.flatMap f).map g).sum = (l.map fun a => ((f a).map g).sum).sum := by
  induction l with
  | nil => rfl
  | cons a l ih =>
      rw [List.flatMap_cons, List.map_append, List.sum_append_nat, ih, List.map_cons,
        List.sum_cons]

theorem sum_add_le {α : Type} {f g h : α → Nat} {l : List α} (hle : ∀ a ∈ l, f a + g a ≤ h a) :
    (l.map f).sum + (l.map g).sum ≤ (l.map h).sum := by
  induction l with
  | nil => exact Nat.le_refl _
  | cons a l ih =>
      have ha := hle a List.mem_cons_self
      have hl := ih fun b hb => hle b (List.mem_cons_of_mem _ hb)
      simp only [List.map_cons, List.sum_cons]
      omega

theorem sum_le {α : Type} {f h : α → Nat} {l : List α} (hle : ∀ a ∈ l, f a ≤ h a) :
    (l.map f).sum ≤ (l.map h).sum :=
  Nat.le_trans (Nat.le_add_right _ _) (sum_add_le (g := fun _ => 0) hle)

/-- What the nodes hold, the text of the parts holds too. -/
theorem sum_nodes_le {f : Node → Nat} {ps : List Part}
    (h : ∀ n, .node n ∈ ps → f n ≤ amount c n.spelling) :
    ((Part.nodes ps).map f).sum ≤ amount c (Part.spellingOfList ps) := by
  induction ps with
  | nil => exact Nat.zero_le _
  | cons p ps ih =>
      have hrest := ih fun n hn => h n (List.mem_cons_of_mem _ hn)
      rw [Part.spellingOfList_cons, amount_append]
      cases p with
      | text t => exact Nat.le_trans hrest (Nat.le_add_left _ _)
      | node n =>
          have hn : f n ≤ amount c n.spelling := h n List.mem_cons_self
          have hsum : ((Part.nodes (.node n :: ps)).map f).sum
              = f n + ((Part.nodes ps).map f).sum := rfl
          have hspelling : amount c (Part.node n).spelling = amount c n.spelling := by
            rw [Part.spelling]
          omega

/-! ## §3. Declarations that were read. -/

/-- The names of a specifier, as they are spelled in braces. -/
def Specifier.spelled : Specifier → String
  | named (some exported) (some bound) | typeOnly (some exported) (some bound) =>
      spellNamed exported bound
  | _ => ""

theorem Unwritten.amount_spellNamed_le (hc : Unwritten c) (exported bound : String) :
    amount c (Specifier.spellNamed exported bound) ≤ amount c exported + amount c bound := by
  unfold Specifier.spellNamed
  by_cases heq : exported = bound
  · rw [if_pos heq]
    exact Nat.le_add_left _ _
  · have has : amount c " as " = 0 := by
      rcases hc with rfl | rfl <;> rfl
    rw [if_neg heq, amount_append, amount_append, has]
    omega

/-- A literal holds what stands between its quotes. -/
theorem amount_quotedText_le (literal : String) :
    amount c (quotedText literal) ≤ amount c literal := by
  unfold quotedText
  split
  · next q rest hliteral =>
      split
      · unfold amount
        rw [String.toList_ofList, hliteral]
        have hdrop : rest.dropLast.Sublist (q :: rest) :=
          (List.dropLast_sublist rest).trans (List.sublist_cons_self q rest)
        exact hdrop.count_le c
      · exact Nat.le_refl _
  · exact Nat.le_refl _

theorem amount_of_exportName? {n : Node} {x : String × Bool} (h : n.exportName? = some x) :
    amount c x.1 ≤ amount c n.spelling := by
  unfold Node.exportName? at h
  split at h
  · cases h
    simp only [Node.spelling]
    exact Nat.le_refl _
  · cases h
    simp only [Node.spelling]
    exact amount_quotedText_le _
  · cases h

/-- The names among the parts stand in their text. -/
theorem sum_exportNames_le (ps : List Part) :
    ((Part.exportNames ps).map fun x => amount c x.1).sum ≤ amount c (Part.spellingOfList ps) := by
  unfold Part.exportNames
  rw [sum_filterMap]
  refine sum_nodes_le fun n _ => ?_
  cases hname : n.exportName? with
  | none => exact Nat.zero_le _
  | some x => exact amount_of_exportName? hname

/-- The specifier binds nothing, or it has two names, or one name that is no
string. -/
theorem Specifier.ofParts_cases (ps : List Part) :
    (∃ x y rest, Part.exportNames ps = x :: y :: rest
        ∧ (ofParts ps = .named (some x.1) (some y.1) ∨ ofParts ps = .typeOnly (some x.1) (some y.1)))
      ∨ (∃ x, Part.exportNames ps = [(x, false)]
        ∧ (ofParts ps = .named (some x) (some x) ∨ ofParts ps = .typeOnly (some x) (some x)))
      ∨ (ofParts ps).bound? = none := by
  unfold ofParts
  cases hnames : Part.exportNames ps with
  | nil =>
      refine .inr (.inr ?_)
      have hnil : (Part.nodes ps).filterMap Node.exportName? = [] := hnames
      simp only [hnil]
      split <;> rfl
  | cons x rest =>
      -- one name counts twice, unless it is a string
      cases rest with
      | nil =>
          obtain ⟨name, isString⟩ := x
          have hone : (Part.nodes ps).filterMap Node.exportName? = [(name, isString)] := hnames
          simp only [hone]
          cases isString with
          | true =>
              refine .inr (.inr ?_)
              split <;> rfl
          | false =>
              refine .inr (.inl ⟨name, rfl, ?_⟩)
              split
              · exact .inr rfl
              · exact .inl rfl
      | cons y rest =>
          have htwo : (Part.nodes ps).filterMap Node.exportName? = x :: y :: rest := hnames
          refine .inl ⟨x, y, rest, rfl, ?_⟩
          simp only [htwo]
          split
          · exact .inr rfl
          · exact .inl rfl

/-- A specifier that binds nothing is not spelled, and is no member. -/
theorem Specifier.of_bound?_none {x : Specifier} (h : x.bound? = none) :
    x.spelled = "" ∧ ∀ module, x.member? module = none := by
  cases x with
  | byDefault bound | whole bound => exact ⟨rfl, fun _ => rfl⟩
  | named exported bound =>
      obtain rfl : bound = none := h
      cases exported <;> exact ⟨rfl, fun _ => rfl⟩
  | typeOnly exported bound =>
      obtain rfl : bound = none := h
      cases exported <;> exact ⟨rfl, fun _ => rfl⟩

theorem Unwritten.amount_ofParts_le (hc : Unwritten c) (ps : List Part) :
    amount c (Specifier.ofParts ps).spelled ≤ amount c (Part.spellingOfList ps) := by
  refine Nat.le_trans ?_ (sum_exportNames_le ps)
  rcases Specifier.ofParts_cases ps with ⟨x, y, rest, hnames, hspecifier⟩ | ⟨x, hnames, hspecifier⟩ | hnone
  · have hspelled : (Specifier.ofParts ps).spelled = Specifier.spellNamed x.1 y.1 := by
      rcases hspecifier with h | h <;> rw [h] <;> rfl
    have hle := hc.amount_spellNamed_le x.1 y.1
    rw [hnames, hspelled]
    simp only [List.map_cons, List.sum_cons]
    omega
  · have hspelled : (Specifier.ofParts ps).spelled = x := by
      rcases hspecifier with h | h <;> rw [h] <;> exact if_pos rfl
    rw [hnames, hspelled]
    exact Nat.le_add_right _ _
  · rw [(Specifier.of_bound?_none hnone).1]
    exact Nat.zero_le _

theorem Node.of_partsOf? {kind : String} {n : Node} {ps : List Part}
    (h : n.partsOf? kind = some ps) : n = .construct kind ps := by
  cases n with
  | construct k parts =>
      have hparts : (if (k == kind) = true then some parts else none) = some ps := h
      by_cases hkind : (k == kind) = true
      · rw [if_pos hkind] at hparts
        rw [eq_of_beq hkind, Option.some.inj hparts]
      · rw [if_neg hkind] at hparts
        cases hparts
  | _ => cases h

/-- What is read off the parts of a construct of some kind, the construct holds. -/
theorem partsOf?_elim_le {kind : String} {f : List Part → Nat}
    (h : ∀ ps, f ps ≤ amount c (Part.spellingOfList ps)) (n : Node) :
    (n.partsOf? kind).elim 0 f ≤ amount c n.spelling := by
  cases hparts : n.partsOf? kind with
  | none => exact Nat.zero_le _
  | some ps =>
      rw [Node.of_partsOf? hparts, Node.spelling]
      exact h ps

theorem Unwritten.sum_ofClauseNode_le (hc : Unwritten c) (n : Node) :
    ((Specifier.ofClauseNode n).map fun x => amount c x.spelled).sum ≤ amount c n.spelling := by
  unfold Specifier.ofClauseNode
  split
  · exact Nat.zero_le _
  · exact Nat.zero_le _
  · next parts =>
      rw [List.map_map, sum_filterMap, Node.spelling]
      exact sum_nodes_le fun m _ => partsOf?_elim_le hc.amount_ofParts_le m
  · exact Nat.zero_le _

/-- What makes a node a declaration. -/
theorem ImportDecl.of_ofNode? {n : Node} {d : ImportDecl} (h : ofNode? n = some d) :
    ∃ parts source, n = .construct "import_statement" parts
      ∧ (Part.nodes parts).find? (fun n => n.kind == "string") = some source
      ∧ d.specifiers = ((Part.nodes parts).filterMap (Node.partsOf? "import_clause")).flatMap
          (fun ps => (Part.nodes ps).flatMap Specifier.ofClauseNode)
      ∧ d.source = quotedText source.spelling ∧ d.raw = some n.spelling := by
  unfold ofNode? at h
  cases hparts : n.partsOf? "import_statement" with
  | none =>
      rw [hparts] at h
      cases h
  | some parts =>
      simp only [hparts] at h
      split at h
      · cases h
      · cases hsource : (Part.nodes parts).find? (fun n => n.kind == "string") with
        | none =>
            rw [hsource] at h
            cases h
        | some source =>
            rw [hsource] at h
            cases h
            exact ⟨parts, source, Node.of_partsOf? hparts, hsource, rfl, rfl, rfl⟩

/-- **The names and the source of a declaration stand in its text.** -/
theorem Unwritten.amount_ofNode?_le (hc : Unwritten c) {n : Node} {d : ImportDecl}
    (h : ImportDecl.ofNode? n = some d) :
    (d.specifiers.map fun x => amount c x.spelled).sum + amount c d.source
      ≤ amount c n.spelling := by
  obtain ⟨parts, source, rfl, hsource, hspecifiers, hpath, -⟩ := ImportDecl.of_ofNode? h
  -- a node is a clause, or it is the source, or neither
  let clause : Node → Nat := fun m => (m.partsOf? "import_clause").elim 0 fun ps =>
    (((Part.nodes ps).flatMap Specifier.ofClauseNode).map fun x => amount c x.spelled).sum
  have hclause : ∀ m, clause m ≤ amount c m.spelling := by
    intro m
    refine partsOf?_elim_le (fun ps => ?_) m
    rw [sum_flatMap]
    exact sum_nodes_le fun m _ => hc.sum_ofClauseNode_le m
  have hsum : (d.specifiers.map fun x => amount c x.spelled).sum
      = ((Part.nodes parts).map clause).sum := by
    rw [hspecifiers, sum_flatMap, sum_filterMap]
  have hnodes : ((Part.nodes parts).map fun m => amount c m.spelling).sum
      ≤ amount c (Part.spellingOfList parts) := sum_nodes_le fun _ _ => Nat.le_refl _
  obtain ⟨hkind, before, behind, hsplit, -⟩ := List.find?_eq_some_iff_append.1 hsource
  have hnone : clause source = 0 := by
    cases hparts : source.partsOf? "import_clause" with
    | none =>
        show (source.partsOf? "import_clause").elim 0 _ = 0
        rw [hparts]
        rfl
    | some ps =>
        rw [Node.of_partsOf? hparts] at hkind
        cases hkind
  have hpath_le : amount c d.source ≤ amount c source.spelling := by
    rw [hpath]
    exact amount_quotedText_le _
  have h₁ := sum_le (l := before) fun m _ => hclause m
  have h₂ := sum_le (l := behind) fun m _ => hclause m
  rw [hsum, Node.spelling]
  rw [hsplit, List.map_append, List.map_cons, List.sum_append_nat, List.sum_cons] at hnodes ⊢
  omega

/-! ## §4. Declarations that are built. -/

/-- A direct import in one line. -/
theorem DirectImport.spelling_statement (d : DirectImport) :
    d.statement.spelling = "import " ++ d.name ++ " from " ++ Text.quote d.path ++ ";" := by
  show ImportDecl.spellFields { specifiers := [.byDefault (some d.name)], source := d.path } = _
  have hclauses : ImportDecl.clauses { specifiers := [.byDefault (some d.name)], source := d.path }
      = [d.name] := rfl
  unfold ImportDecl.spellFields
  rw [hclauses]
  simp only [List.isEmpty_cons, Bool.false_eq_true, if_false, String.intercalate_singleton]
  rfl

theorem Specifier.of_isFullType {x : Specifier} (h : x.isFullType = true) :
    x.isTypeOnly = true ∧ x.isByDefault = false ∧ x.isWhole = false
      ∧ x.braced? true = some x.spelled := by
  cases x with
  | typeOnly exported bound =>
      cases exported with
      | none => cases h
      | some exported =>
          cases bound with
          | none => cases h
          | some bound => exact ⟨rfl, rfl, rfl, rfl⟩
  | _ => cases h

/-- A declaration of types in one line. -/
theorem ImportDecl.spelling_of_full_types {types : List Specifier} (source : String)
    (hne : types ≠ []) (hfull : ∀ x ∈ types, x.isFullType = true) :
    ImportDecl.spelling { specifiers := types, source := source }
      = "import type \x7b " ++ String.intercalate ", " (types.map Specifier.spelled) ++ " \x7d from "
        ++ Text.quote source ++ ";" := by
  -- the declaration as a whole is marked, so its specifiers are not
  have htype : ImportDecl.isTypeOnly { specifiers := types, source := source } = true := by
    unfold ImportDecl.isTypeOnly
    rw [Bool.and_eq_true]
    refine ⟨?_, List.all_eq_true.2 fun x hx => (Specifier.of_isFullType (hfull x hx)).1⟩
    cases types with
    | nil => exact absurd rfl hne
    | cons => rfl
  have hdefault : types.filter Specifier.isByDefault = [] :=
    List.filter_eq_nil_iff.2 fun x hx => by
      rw [(Specifier.of_isFullType (hfull x hx)).2.1]
      exact Bool.false_ne_true
  have hwhole : types.filter Specifier.isWhole = [] :=
    List.filter_eq_nil_iff.2 fun x hx => by
      rw [(Specifier.of_isFullType (hfull x hx)).2.2.1]
      exact Bool.false_ne_true
  have hbraced : types.filterMap (Specifier.braced? true) = types.map Specifier.spelled := by
    clear hne htype hdefault hwhole
    induction types with
    | nil => rfl
    | cons x types ih =>
        rw [List.filterMap_cons, (Specifier.of_isFullType (hfull x List.mem_cons_self)).2.2.2,
          List.map_cons, ih fun y hy => hfull y (List.mem_cons_of_mem _ hy)]
  have hnonempty : (types.map Specifier.spelled).isEmpty = false := by
    cases types with
    | nil => exact absurd rfl hne
    | cons => rfl
  have hclauses : ImportDecl.clauses { specifiers := types, source := source }
      = ["\x7b " ++ String.intercalate ", " (types.map Specifier.spelled) ++ " \x7d"] := by
    unfold ImportDecl.clauses ImportDecl.defaultName? ImportDecl.wholeName?
    simp only [htype, hdefault, hwhole, hbraced, hnonempty]
    rfl
  show ImportDecl.spellFields _ = _
  unfold ImportDecl.spellFields
  rw [hclauses, htype]
  simp only [List.isEmpty_cons, Bool.false_eq_true, if_false, if_true,
    String.intercalate_singleton, String.append_assoc]
  rfl

/-- What stays of a declaration weighs as much as its types and its source. -/
theorem Unwritten.amount_types (hc : Unwritten c) (d : ImportDecl) (hne : d.types ≠ []) :
    amount c (ImportDecl.spelling { specifiers := d.types, source := d.source })
      = (d.types.map fun x => amount c x.spelled).sum + amount c d.source := by
  have hfull : ∀ x ∈ d.types, x.isFullType = true := fun x hx => (List.mem_filter.1 hx).2
  have hfixed : amount c "import type \x7b " = 0 ∧ amount c " \x7d from " = 0 ∧ amount c ";" = 0
      ∧ amount c ", " = 0 := by
    rcases hc with rfl | rfl <;> decide
  obtain ⟨h₁, h₂, h₃, h₄⟩ := hfixed
  rw [ImportDecl.spelling_of_full_types _ hne hfull, amount_append, amount_append, amount_append,
    amount_append, h₁, h₂, h₃, amount_intercalate h₄, List.map_map, hc.amount_quote]
  show 0 + (d.types.map fun x => amount c x.spelled).sum + 0 + amount c d.source + 0 = _
  omega

/-- The types of a declaration, as a sum over all its specifiers. -/
theorem sum_types (d : ImportDecl) (f : Specifier → Nat) :
    (d.types.map f).sum = (d.specifiers.map fun x => if x.isFullType then f x else 0).sum := by
  unfold ImportDecl.types
  induction d.specifiers with
  | nil => rfl
  | cons x l ih =>
      rw [List.map_cons, List.sum_cons, ← ih]
      by_cases hx : x.isFullType = true
      · rw [List.filter_cons_of_pos hx, if_pos hx, List.map_cons, List.sum_cons]
      · rw [List.filter_cons_of_neg hx, if_neg hx, Nat.zero_add]

end ImportSplit
