/-
  ImportSplit.Proofs.Segments
  ────────────────────────────────
  **A MODULE AS A ROW OF TEXTS.**

  A text that is read as a module falls into the texts of its statements, with
  blanks between them (`Segments`), and every statement was read right where
  its text starts (`ReadAt`):

      text  =  blanks  n₁  blanks  n₂  …  nₖ  blanks

  What follows a statement is again such a row.  So a module can be followed
  statement by statement, from the front, without looking at what the grammar
  was doing before.  Unlike the pieces of a text, its segments say nothing of
  what else could have been read.
-/
import ImportSplit.Proofs.Pieces

namespace ImportSplit

namespace Grammar

/-! ## §1. Segments. -/

/-- The node is read right at the start of the text. -/
inductive ReadAt (d : Dialect) (s : List Char) : Node → Prop where
  /-- A comment between statements, or the line `#!…`. -/
  | remark {kind text : String} (hkind : startingChars kind ≠ [])
      (hstarts : StartsAs kind text.toList) : ReadAt d s (.token kind text)
  /-- A statement, perhaps with a gap behind it. -/
  | statement {n : Node} {depth : Nat} {row tail : List Part} {s' : List Char}
      (hs : AtToken d s)
      (hstep : step (read rule (depth + 1)) (.oneOf statementRules) { dialect := d } row s
        = .done (tail ++ .node n :: row) s')
      (htail : ∀ p ∈ tail, p.IsGap) : ReadAt d s n

/-- The text falls into the texts of these nodes, with blanks between them. -/
inductive Segments (d : Dialect) : List Char → List Node → Prop where
  | done {s : List Char} (hblank : ∀ c ∈ s, Text.isGap c = true) : Segments d s []
  | next {blanks s : List Char} {n : Node} {ns : List Node}
      (hblank : ∀ c ∈ blanks, Text.isGap c = true) (hne : n.spelling.toList ≠ [])
      (hread : ReadAt d (n.spelling.toList ++ s) n) (hrest : Segments d s ns) :
      Segments d (blanks ++ (n.spelling.toList ++ s)) (n :: ns)

namespace Segments

variable {d : Dialect} {s : List Char} {ns : List Node}

/-- Each of the nodes is read at its text. -/
theorem readAt_of_mem (h : Segments d s ns) : ∀ n ∈ ns, ∃ t, ReadAt d t n := by
  induction h with
  | done => exact fun _ hn => absurd hn List.not_mem_nil
  | next _ _ hread _ ih => exact List.forall_mem_cons.2 ⟨⟨_, hread⟩, ih⟩

/-- A blank may stand before a row of texts. -/
theorem blank (h : Segments d s ns) {c : Char} (hc : Text.isGap c = true) :
    Segments d (c :: s) ns := by
  cases h with
  | done hblank => exact .done (List.forall_mem_cons.2 ⟨hc, hblank⟩)
  | @next blanks s n ns hblank hne hread hrest =>
      have hnext : Segments d (c :: blanks ++ (n.spelling.toList ++ s)) (n :: ns) :=
        .next (List.forall_mem_cons.2 ⟨hc, hblank⟩) hne hread hrest
      exact hnext

/-- A node right at the start of a text, before a row of texts. -/
theorem here {n : Node} (hne : n.spelling.toList ≠ []) (hread : ReadAt d (n.spelling.toList ++ s) n)
    (h : Segments d s ns) : Segments d (n.spelling.toList ++ s) (n :: ns) := by
  have hnext : Segments d ([] ++ (n.spelling.toList ++ s)) (n :: ns) :=
    .next (fun _ h => absurd h List.not_mem_nil) hne hread h
  exact hnext

end Segments

/-! ## §2. From pieces to segments. -/

section
variable {d : Dialect} {before : Bool} {s : List Char} {n : Node} {ns : List Node}

/-- A token that starts as its kind asks for is read as a remark, and has a text. -/
theorem readAt_token {kind : String} {k : Nat} (hkind : startingChars kind ≠ [])
    (hstarts : StartsAs kind (s.take k)) :
    ReadAt d s (.token kind (String.ofList (s.take k)))
      ∧ (Node.token kind (String.ofList (s.take k))).spelling.toList ≠ [] := by
  refine ⟨.remark hkind (by rwa [String.toList_ofList]), ?_⟩
  rw [toList_spelling_token]
  obtain ⟨c, hc, -⟩ := hstarts hkind
  intro hnil
  rw [hnil] at hc
  cases hc

/-- The first piece of a text is read at its start. -/
theorem readAt_of_firstPiece (h : firstPiece d before s = some n) :
    ReadAt d s n ∧ n.spelling.toList ≠ [] := by
  rcases firstPiece_cases h with
    ⟨kind, k, hcomment, rfl⟩ | ⟨hat, ⟨k, -, hhash, rfl⟩ | ⟨tail, rest, s', hout, htail, hne, -⟩⟩
  · refine readAt_token ?_ (startsAs_of_commentHere? hcomment)
    rcases kind_of_commentHere? hcomment with rfl | rfl <;> decide
  · have hleaf : leafChecks "hash_bang_line" .hashbang = true := by decide
    exact readAt_token (by decide) (startsAs_of_leafChecks hleaf hhash)
  · rw [readStatement_deep hat] at hout
    exact ⟨.statement hat hout htail, hne⟩

/-- **Pieces are segments.** -/
theorem Pieces.segments (h : Pieces d before s ns) : Segments d s ns := by
  induction h with
  | done => exact .done fun _ h => absurd h List.not_mem_nil
  | blank hc _ ih => exact ih.blank hc
  | next hfirst _ ih =>
      obtain ⟨hread, hne⟩ := readAt_of_firstPiece hfirst
      rw [text_of_firstPiece hfirst] at hread ⊢
      exact ih.here hne hread

end

/-! ## §3. Modules. -/

theorem wholeModule_checks : wholeModule.checks false = true := by decide +kernel

theorem wellRead_of_readModule {d : Dialect} {s rest : List Char} {row : List Part}
    (h : readModule d s = .done row rest) : ∀ p ∈ row, p.WellRead := by
  have hreads := reads_of_step (fun name => reads_of_read rule (depthFor s) name) _ _ _ _ _ _ h
  refine hreads.wellRead rule_checks false wholeModule_checks ?_ ?_
  · intro h
    cases h
  · exact fun _ h => absurd h List.not_mem_nil

/-- The pieces of a module look as a grammar builds them. -/
theorem Pieces.wellRead {d : Dialect} {s : List Char} {ns : List Node} (h : Pieces d true s ns) :
    ∀ n ∈ ns, n.WellRead := by
  -- the pieces are the nodes of the row that was read
  obtain ⟨row, hread, rfl⟩ := readModule_of_pieces h
  intro n hn
  obtain ⟨p, hp, hpn⟩ := List.mem_filterMap.1 hn
  have hwell := wellRead_of_readModule hread p (List.mem_reverse.1 hp)
  cases p with
  | text t => cases hpn
  | node m =>
      cases hpn
      exact hwell

end Grammar

/-- The module that a text is, with the nodes that its statements stand for. -/
theorem Program.segments_of_ofSource? {d : Dialect} {source : String} {p : Program}
    (h : Program.ofSource? d source = some p) :
    ∃ ns, p.body = ns.map Statement.ofNode ∧ Grammar.Segments d source.toList ns
      ∧ ∀ n ∈ ns, n.WellRead := by
  obtain ⟨ns, hpieces, -, rfl⟩ := Program.ofSource?_eq_some_iff.1 h
  exact ⟨ns, rfl, hpieces.segments, hpieces.wellRead⟩

end ImportSplit
