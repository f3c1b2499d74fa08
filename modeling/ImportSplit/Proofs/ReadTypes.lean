/-
  ImportSplit.Proofs.ReadTypes
  ────────────────────────────────
  **IMPORTS OF TYPES THAT ARE READ.**

  Types that stay behind are written as

      `import type { A, B as C } from "path";`

  Where a dialect has types and all names are words, this is read as one
  statement, whatever follows it (`step_typesStatement`).  Of its node it is
  only asked that it is settled.
-/
import ImportSplit.Proofs.ReadNames

namespace ImportSplit.Grammar

/-- The specifier is a type under names that are words. -/
inductive IsWordType : Specifier → Prop where
  | intro {exported bound : String} (hexported : IsWord exported.toList)
      (hbound : IsWord bound.toList) : IsWordType (.typeOnly (some exported) (some bound))

theorem IsWordType.isFullType {x : Specifier} (h : IsWordType x) : x.isFullType = true := by
  cases h
  rfl

theorem IsWordType.isWordEntry {x : Specifier} (h : IsWordType x) : IsWordEntry x := by
  obtain ⟨hexported, hbound⟩ := h
  exact .typeOnly hexported hbound

/-! ## §1. Entries are settled. -/

theorem IsWordEntry.isSettled {x : Specifier} (h : IsWordEntry x) :
    (entryNode x).isSettled = true := by
  have hparts : ∀ exported bound,
      (Node.construct "import_specifier" (entryParts exported bound)).isSettled = true := by
    intro exported bound
    unfold entryParts
    by_cases heq : exported = bound
    · rw [if_pos heq]
      rfl
    · rw [if_neg heq]
      rfl
  cases h with
  | named => exact hparts _ _
  | typeOnly => exact hparts _ _

theorem areSettled_moreEntryParts {xs : List Specifier} (hxs : ∀ x ∈ xs, IsWordEntry x) :
    Part.areSettled (moreEntryParts xs ++ [.text " ", .node (.token "\x7d" "\x7d")]) = true := by
  induction xs with
  | nil => rfl
  | cons x xs ih =>
      obtain ⟨hx, hxs⟩ := List.forall_mem_cons.1 hxs
      show ((entryNode x).isSettled && Part.areSettled
        (moreEntryParts xs ++ [.text " ", .node (.token "\x7d" "\x7d")])) = true
      rw [hx.isSettled, ih hxs]
      rfl

theorem isSettled_bracedNode {x : Specifier} {xs : List Specifier} (hx : IsWordEntry x)
    (hxs : ∀ y ∈ xs, IsWordEntry y) : (bracedNode x xs).isSettled = true := by
  show ((entryNode x).isSettled && Part.areSettled
    (moreEntryParts xs ++ [.text " ", .node (.token "\x7d" "\x7d")])) = true
  rw [hx.isSettled, areSettled_moreEntryParts hxs]
  rfl

/-! ## §2. The statement. -/

section
variable {next : Symbol → Context → List Part → List Char → Outcome} {c : Context}
  {x : Specifier} {types : List Specifier}

/-- The text of an import of types, before the rest of a text. -/
def typesText (x : Specifier) (types : List Specifier) (path : String) (rest : List Char) :
    List Char :=
  "import".toList ++ (' ' :: ("type".toList
    ++ (' ' :: bracedEntries x types (fromText path (';' :: rest)))))

/-- It is how what a split leaves of a declaration is written. -/
theorem toList_spelling_leftTypes (hx : IsWordType x) (hwords : ∀ y ∈ types, IsWordType y)
    (path : String) (rest : List Char) :
    (ImportDecl.spelling { specifiers := x :: types, source := path }).toList ++ rest
      = typesText x types path rest := by
  have hfull : ∀ y ∈ x :: types, y.isFullType = true :=
    List.forall_mem_cons.2 ⟨hx.isFullType, fun y hy => (hwords y hy).isFullType⟩
  have hmark : "import type \x7b ".toList
      = "import".toList ++ (' ' :: ("type".toList ++ [' ', '\x7b', ' '])) := by decide
  have hfrom : " \x7d from ".toList = ' ' :: '\x7d' :: ' ' :: ("from".toList ++ [' ']) := by decide
  have hsemicolon : ";".toList = [';'] := rfl
  rw [ImportDecl.spelling_of_full_types path (List.cons_ne_nil _ _) hfull]
  unfold typesText bracedEntries fromText
  simp only [String.toList_append, hmark, hfrom, hsemicolon, List.append_assoc, List.cons_append,
    List.nil_append]
  rw [toList_intercalate_entries]

/-- **`import type { … } from "path";` is read as one statement.** -/
theorem step_typesStatement (htypes : c.dialect.hasTypes = true) (hx : IsWordType x)
    (hwords : ∀ y ∈ types, IsWordType y) (path : String) (rest : List Char) :
    ∃ n, n.isSettled = true ∧ ∀ row,
      step next importStatement c row (typesText x types path rest) = .done (.node n :: row) rest := by
  have hword : IsWord "type".toList := by decide
  have hentries : ∀ y ∈ types, IsWordEntry y := fun y hy => (hwords y hy).isWordEntry
  have hmark : Gives next (.either (Rule.keyword "type") (Rule.keyword "typeof")) c
      (' ' :: ("type".toList ++ (' ' :: bracedEntries x types (fromText path (';' :: rest)))))
      [.text " ", .node (.token "type" "type")]
      (' ' :: bracedEntries x types (fromText path (';' :: rest))) :=
    (gives_keyword hword (endsWord_space _) (hword.atToken (d := .js) _).readGap_space).left
  have hrest : Gives next importRest c (' ' :: bracedEntries x types (fromText path (';' :: rest))) _
      (';' :: rest) :=
    (gives_importClause_braced hx.isWordEntry hentries).importRest
  have hall : Gives next (.either (Rule.typed (Rule.row
      [.either (Rule.keyword "type") (Rule.keyword "typeof"), importRest])) importRest) c
      (' ' :: ("type".toList ++ (' ' :: bracedEntries x types (fromText path (';' :: rest))))) _
      (';' :: rest) :=
    (Gives.typed htypes (hmark.row hrest.last)).left
  refine ⟨_, ?_, fun row => step_importStatement_of_rest (hall _)⟩
  -- of all the parts only the braces have to be looked at
  show ((bracedNode x types).isSettled && true && true) = true
  rw [isSettled_bracedNode hx.isWordEntry hentries]
  rfl

end

end ImportSplit.Grammar
