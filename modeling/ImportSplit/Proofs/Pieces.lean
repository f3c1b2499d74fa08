/-
  ImportSplit.Proofs.Pieces
  ────────────────────────────────
  **A MODULE, PIECE BY PIECE.**

  A text falls into pieces with blanks between them: comments, statements, and
  before the first statement perhaps a line `#!…`.  Which piece stands at the
  front of a text is told by the text alone (`firstPiece`), so the pieces can
  be read off one after the other (`Pieces`):

      text is a module  ↔  it falls into settled pieces   (`ofSource?_eq_some_iff`)

  A comment that belongs to the statement before it is a piece of its own: it
  is what would be found there if the statement was not known (`Skips`).
-/
import ImportSplit.Diagnosis
import ImportSplit.Proofs.Depth

namespace ImportSplit.Grammar

variable {ν : Type}

/-! ## §1. What stands in the row before. -/

/-- The outcome with a row before all that was read. -/
def Outcome.onto (row : List Part) : Outcome → Outcome
  | .done inner s => .done (inner ++ row) s
  | .refused => .refused
  | .exhausted => .exhausted

/-- The rule neither folds nor looks at what stands in its row already, and nor
do the calls in `calls`. -/
def Rule.framed (calls : ν → Bool) : Rule ν → Bool
  | wrap .. | holds _ => false
  | seq first second | either first second => framed calls first && framed calls second
  | many r | within _ r => framed calls r
  | call name => calls name
  | nothing | leaf .. | gap _ | ends _ | stays _ | scope _ | ahead _ | notAhead _ | given _ => true

theorem repeatStep_onto {f : List Part → List Char → Outcome}
    (hf : ∀ inner row s, f (inner ++ row) s = (f inner s).onto row) (budget : List Char) :
    ∀ inner row s, repeatStep f budget (inner ++ row) s = (repeatStep f budget inner s).onto row := by
  induction budget with
  | nil => exact fun _ _ _ => rfl
  | cons b budget ih =>
      intro inner row s
      unfold repeatStep
      rw [hf]
      cases f inner s with
      | done inner₁ s₁ => exact ih inner₁ row s₁
      | refused => rfl
      | exhausted => rfl

/-- **What stands in the row before does not matter.** -/
theorem step_onto {next : ν → Context → List Part → List Char → Outcome} (calls : ν → Bool)
    (hnext : ∀ name, calls name = true → ∀ c inner row s,
      next name c (inner ++ row) s = (next name c inner s).onto row)
    (r : Rule ν) :
    r.framed calls = true → ∀ c inner row s,
      step next r c (inner ++ row) s = (step next r c inner s).onto row := by
  induction r with
  | nothing => exact fun _ _ _ _ _ => rfl
  | leaf kind lexeme =>
      intro _ c inner row s
      simp only [step]
      cases lexeme.size? s <;> rfl
  | gap withMarkup =>
      intro _ c inner row s
      simp only [step]
      rw [readGap_frame, readGap_frame _ _ inner]
      simp only [Outcome.onto, List.append_assoc]
  | ends operators =>
      intro _ c inner row s
      simp only [step]
      cases c.absorbed? operators s with
      | none => rfl
      | some n =>
          simp only
          rw [readGap_frame, readGap_frame _ _ inner]
          simp only [Outcome.onto, List.append_assoc]
  | stays operators =>
      intro _ c inner row s
      simp only [step]
      split <;> rfl
  | seq first second ih₁ ih₂ =>
      intro hr c inner row s
      obtain ⟨hfirst, hsecond⟩ := Bool.and_eq_true _ _ ▸ hr
      simp only [step]
      rw [ih₁ hfirst]
      cases step next first c inner s with
      | done inner₁ s₁ => exact ih₂ hsecond c inner₁ row s₁
      | refused => rfl
      | exhausted => rfl
  | either first second ih₁ ih₂ =>
      intro hr c inner row s
      obtain ⟨hfirst, hsecond⟩ := Bool.and_eq_true _ _ ▸ hr
      simp only [step]
      rw [ih₁ hfirst]
      cases step next first c inner s with
      | done inner₁ s₁ => rfl
      | refused => exact ih₂ hsecond c inner row s
      | exhausted => rfl
  | many r ih =>
      intro hr c inner row s
      exact repeatStep_onto (ih hr c) s inner row s
  | scope r _ =>
      -- a fresh row is read, and put onto the one before
      intro _ c inner row s
      simp only [step]
      rw [readGap_frame, readGap_frame _ _ inner]
      cases step next r c [] (readGap false s [] s).2 with
      | done inner₁ s₁ => simp only [Outcome.onto, List.append_assoc]
      | refused => rfl
      | exhausted => rfl
  | call name => exact fun hr c inner row s => hnext name hr c inner row s
  | ahead r _ | notAhead r _ =>
      intro _ c inner row s
      simp only [step]
      cases step next r c [] s <;> rfl
  | given p =>
      intro _ c inner row s
      simp only [step]
      split <;> rfl
  | within f r ih => exact fun hr c inner row s => ih hr (f c) inner row s
  | wrap | holds => exact fun hr => by cases hr

theorem read_block_onto (depth : Nat) (c : Context) (inner row : List Part) (s : List Char) :
    read rule depth .block c (inner ++ row) s = (read rule depth .block c inner s).onto row := by
  cases depth with
  | zero => rfl
  | succ depth =>
      exact step_onto (fun _ => false) (fun _ h => by cases h) block rfl c inner row s

theorem statementRules_framed : (Rule.oneOf statementRules).framed (· = .block) = true := by
  decide +kernel

/-! ## §2. Statements. -/

section
variable {d : Dialect} {depth : Nat} {row : List Part} {s s' : List Char}

/-- At a token, a statement is what its rules read, to any depth that is enough. -/
theorem readStatement_eq (depth : Nat) (hs : AtToken d s)
    (hdepth : 40 * s.length + Symbol.statement.rank < depth + 1) :
    readStatement { dialect := d } s
      = step (read rule depth) (.oneOf statementRules) { dialect := d } [] s := by
  unfold readStatement
  rw [read_rule_of_depth (lt_depthFor (Nat.le_refl _)) hdepth, read_statement]
  show step (read rule depth) (.oneOf statementRules) { dialect := d }
    (readGap (!d.hasTypes) s [] s).1 (readGap (!d.hasTypes) s [] s).2 = _
  rw [hs.readGap fun hm => by simpa using hm]

/-- A statement is read behind the gap as it would be read there alone. -/
theorem read_statement_onto (hdepth : 40 * s.length + Symbol.statement.rank < depth) :
    read rule depth .statement { dialect := d } row s
      = (readStatement { dialect := d } (readGap (!d.hasTypes) s [] s).2).onto
          ((readGap (!d.hasTypes) s [] s).1 ++ row) := by
  have hle : (readGap (!d.hasTypes) s [] s).2.length ≤ s.length := length_readGap_le _ _ _
  obtain ⟨depth, rfl⟩ : ∃ k, depth = k + 1 := ⟨depth - 1, by omega⟩
  rw [read_statement, readStatement_eq depth (atToken_readGap d s) (by omega)]
  show step (read rule depth) (.oneOf statementRules) { dialect := d }
      (readGap (!d.hasTypes) s row s).1 (readGap (!d.hasTypes) s row s).2 = _
  rw [readGap_frame]
  exact step_onto (· = .block) (fun name hname => by
      obtain rfl : name = .block := of_decide_eq_true hname
      exact read_block_onto depth)
    (.oneOf statementRules) statementRules_framed _ [] _ _

/-- The depth to which a statement is read, counted from one call further in. -/
theorem readStatement_deep (hs : AtToken d s) :
    readStatement { dialect := d } s
      = step (read rule (40 * s.length + 6)) (.oneOf statementRules) { dialect := d } [] s :=
  readStatement_eq _ hs (by
    show 40 * s.length + 5 < _
    omega)

/-- **What is read as a statement is one node**, and perhaps a gap that is skipped
there anyway. -/
theorem one_of_readStatement (hs : AtToken d s)
    (h : readStatement { dialect := d } s = .done row s') :
    ∃ tail n rest, row = tail ++ [.node n] ∧ (∀ p ∈ tail, p.IsGap) ∧ n.spelling.toList ≠ []
      ∧ s = n.spelling.toList ++ rest
      ∧ Skips (!d.hasTypes) rest (Part.nodes tail.reverse) s' := by
  rw [readStatement_deep hs] at h
  exact one_of_reads_statementRules
    (reads_of_step (fun name => reads_of_read rule _ name) _ _ _ _ _ _ h) hs

/-- There is no statement at the end of a text. -/
theorem readStatement_nil : readStatement { dialect := d } [] = .refused := by
  cases hout : readStatement { dialect := d } [] with
  | done row s' =>
      have hlt := (reads_of_read rule _ _ _ _ _ _ _ hout).solid rule_solid (rule_solid _)
      exact absurd hlt (Nat.not_lt_zero _)
  | refused => rfl
  | exhausted => exact absurd hout (read_rule_ne_exhausted (lt_depthFor (Nat.le_refl _)))

end

/-! ## §3. Pieces. -/

/-- The piece right at the front of a text, if one stands there.  Before the
first statement it may be a line `#!…`. -/
def firstPiece (d : Dialect) (beforeAll : Bool) (s : List Char) : Option Node :=
  if s.head?.elim true Text.isGap then none
  else match commentHere? (!d.hasTypes) s with
    | some (kind, n) => some (.token kind (String.ofList (s.take n)))
    | none =>
        match if beforeAll then hashbang? s else none with
        | some n => some (.token "hash_bang_line" (String.ofList (s.take n)))
        | none =>
            match readStatement { dialect := d } s with
            | .done row _ => (Part.nodes row.reverse).head?
            | _ => none

/-- Behind the piece at the front no statement was read yet. -/
def stillBefore (d : Dialect) (beforeAll : Bool) (s : List Char) : Bool :=
  beforeAll && (commentHere? (!d.hasTypes) s).isSome

/-- The text falls into these pieces, with blanks between them. -/
inductive Pieces (d : Dialect) : Bool → List Char → List Node → Prop where
  | done {before : Bool} : Pieces d before [] []
  | blank {before : Bool} {c : Char} {s : List Char} {ns : List Node}
      (hc : Text.isGap c = true) (h : Pieces d before s ns) : Pieces d before (c :: s) ns
  | next {before : Bool} {s : List Char} {n : Node} {ns : List Node}
      (hfirst : firstPiece d before s = some n)
      (h : Pieces d (stillBefore d before s) (s.drop n.spelling.toList.length) ns) :
      Pieces d before s (n :: ns)

section
variable {d : Dialect} {before : Bool} {s s' : List Char} {n : Node} {ns ms : List Node}

theorem firstPiece_of_blank {c : Char} (hc : Text.isGap c = true) :
    firstPiece d before (c :: s) = none :=
  if_pos hc

/-- **A text falls into pieces in one way.** -/
theorem Pieces.unique (h : Pieces d before s ns) (h' : Pieces d before s ms) : ns = ms := by
  induction h generalizing ms with
  | done =>
      cases h' with
      | done => rfl
      | next hfirst => cases hfirst
  | blank hc _ ih =>
      cases h' with
      | blank _ h' => exact ih h'
      | next hfirst =>
          rw [firstPiece_of_blank hc] at hfirst
          cases hfirst
  | next hfirst _ ih =>
      cases h' with
      | done => cases hfirst
      | blank hc =>
          rw [firstPiece_of_blank hc] at hfirst
          cases hfirst
      | next hfirst' h' =>
          obtain rfl := Option.some.inj (hfirst.symm.trans hfirst')
          rw [ih h']

theorem drop_length_take (s : List Char) (n : Nat) : s.drop (s.take n).length = s.drop n := by
  rw [List.length_take]
  rcases Nat.le_total n s.length with hn | hn
  · rw [Nat.min_eq_left hn]
  · rw [Nat.min_eq_right hn, List.drop_length, List.drop_of_length_le hn]

theorem toList_spelling_token (kind : String) (t : List Char) :
    (Node.token kind (String.ofList t)).spelling.toList = t := by
  simp only [Node.spelling, String.toList_ofList]

/-- A comment at the front is the first piece. -/
theorem firstPiece_of_comment {kind : String} {k : Nat}
    (h : commentHere? (!d.hasTypes) s = some (kind, k)) :
    firstPiece d before s = some (.token kind (String.ofList (s.take k))) := by
  unfold firstPiece
  rw [h]
  cases s with
  | nil => cases hm : (!d.hasTypes) <;> rw [hm] at h <;> cases h
  | cons c s =>
      cases hc : Text.isGap c with
      | true =>
          rw [commentHere?_of_blank hc] at h
          cases h
      | false =>
          show (if Text.isGap c then none else _) = _
          rw [hc]
          rfl

theorem stillBefore_of_comment {kind : String} {k : Nat}
    (h : commentHere? (!d.hasTypes) s = some (kind, k)) : stillBefore d before s = before := by
  unfold stillBefore
  rw [h]
  exact Bool.and_true before

/-- What is skipped before pieces are pieces. -/
theorem Skips.pieces (h : Skips (!d.hasTypes) s ms s') (hrest : Pieces d before s' ns) :
    Pieces d before s (ms ++ ns) := by
  induction h with
  | refl => exact hrest
  | blank hc _ ih => exact .blank hc (ih hrest)
  | remark hcomment _ ih =>
      refine .next (firstPiece_of_comment hcomment) ?_
      rw [stillBefore_of_comment hcomment, toList_spelling_token, drop_length_take]
      exact ih hrest

/-- Pieces that follow what is skipped. -/
theorem Skips.of_pieces (h : Skips (!d.hasTypes) s ms s') (hall : Pieces d before s ns) :
    ∃ ns', ns = ms ++ ns' ∧ Pieces d before s' ns' := by
  induction h generalizing ns with
  | refl => exact ⟨ns, rfl, hall⟩
  | blank hc _ ih =>
      cases hall with
      | blank _ hall => exact ih hall
      | next hfirst =>
          rw [firstPiece_of_blank hc] at hfirst
          cases hfirst
  | remark hcomment _ ih =>
      cases hall with
      | done => cases hm : (!d.hasTypes) <;> rw [hm] at hcomment <;> cases hcomment
      | blank hc =>
          rw [commentHere?_of_blank hc] at hcomment
          cases hcomment
      | next hfirst hall =>
          obtain rfl := Option.some.inj ((firstPiece_of_comment hcomment).symm.trans hfirst)
          rw [stillBefore_of_comment hcomment, toList_spelling_token, drop_length_take] at hall
          obtain ⟨ns', rfl, hrest⟩ := ih hall
          exact ⟨ns', rfl, hrest⟩

/-- At a token, the first piece is what is read as a statement. -/
theorem firstPiece_of_readStatement {row : List Part} (before : Bool) (hs : AtToken d s)
    (hhash : before = true → hashbang? s = none)
    (hout : readStatement { dialect := d } s = .done row s') :
    ∃ tail n rest, row = tail ++ [.node n] ∧ firstPiece d before s = some n
      ∧ n.spelling.toList ≠ [] ∧ s = n.spelling.toList ++ rest
      ∧ Skips (!d.hasTypes) rest (Part.nodes tail.reverse) s' := by
  obtain ⟨tail, n, rest, rfl, -, hne, htext, hskips⟩ := one_of_readStatement hs hout
  refine ⟨tail, n, rest, rfl, ?_, hne, htext, hskips⟩
  have hhead : s.head?.elim true Text.isGap = false := by
    cases s with
    | nil => exact absurd (List.append_eq_nil_iff.1 htext.symm).1 hne
    | cons c s => exact hs.1 c rfl
  have hhash' : (if before = true then hashbang? s else none) = none := by
    cases before with
    | true => exact hhash rfl
    | false => rfl
  unfold firstPiece
  rw [hhead, hs.2, hhash', hout]
  simp [Part.nodes, Part.node?]

/-- **What stands first is a comment, the line `#!…`, or a statement.** -/
theorem firstPiece_cases (h : firstPiece d before s = some n) :
    (∃ kind k, commentHere? (!d.hasTypes) s = some (kind, k)
        ∧ n = .token kind (String.ofList (s.take k)))
      ∨ AtToken d s ∧ ((∃ k, before = true ∧ hashbang? s = some k
            ∧ n = .token "hash_bang_line" (String.ofList (s.take k)))
          ∨ ∃ tail rest s', readStatement { dialect := d } s = .done (tail ++ [.node n]) s'
            ∧ (∀ p ∈ tail, p.IsGap) ∧ n.spelling.toList ≠ [] ∧ s = n.spelling.toList ++ rest
            ∧ Skips (!d.hasTypes) rest (Part.nodes tail.reverse) s') := by
  unfold firstPiece at h
  split at h
  · cases h
  · next hhead =>
      split at h
      · next kind k hcomment =>
          cases h
          exact .inl ⟨kind, k, hcomment, rfl⟩
      · next hcomment =>
          have hat : AtToken d s := by
            refine ⟨fun c hc => ?_, hcomment⟩
            rw [Option.mem_def.1 hc] at hhead
            exact Bool.eq_false_iff.2 hhead
          refine .inr ⟨hat, ?_⟩
          split at h
          · next k hhash =>
              cases h
              cases before with
              | true => exact .inl ⟨k, rfl, hhash, rfl⟩
              | false => cases hhash
          · split at h
            · next row s' hout =>
                obtain ⟨tail, m, rest, rfl, hmore⟩ := one_of_readStatement hat hout
                rw [nodes_reverse_append] at h
                obtain rfl : m = n := Option.some.inj h
                exact .inr ⟨tail, rest, s', hout, hmore⟩
            · cases h

/-- At a token, behind the line `#!…`, it is a statement. -/
theorem statement_of_firstPiece (hs : AtToken d s) (h : firstPiece d false s = some n) :
    ∃ tail rest s', readStatement { dialect := d } s = .done (tail ++ [.node n]) s'
      ∧ (∀ p ∈ tail, p.IsGap) ∧ n.spelling.toList ≠ [] ∧ s = n.spelling.toList ++ rest
      ∧ Skips (!d.hasTypes) rest (Part.nodes tail.reverse) s' := by
  rcases firstPiece_cases h with ⟨kind, k, hcomment, -⟩ | ⟨-, ⟨k, hbefore, -⟩ | hstatement⟩
  · rw [hs.2] at hcomment
    cases hcomment
  · cases hbefore
  · exact hstatement

/-- So its text stands at the front. -/
theorem text_of_firstPiece (h : firstPiece d before s = some n) :
    s = n.spelling.toList ++ s.drop n.spelling.toList.length := by
  have htoken : ∀ kind k, s = (Node.token kind (String.ofList (s.take k))).spelling.toList
      ++ s.drop (Node.token kind (String.ofList (s.take k))).spelling.toList.length := by
    intro kind k
    rw [toList_spelling_token, drop_length_take, List.take_append_drop]
  rcases firstPiece_cases h with
    ⟨kind, k, -, rfl⟩ | ⟨-, ⟨k, -, -, rfl⟩ | ⟨tail, rest, s', -, -, -, htext, -⟩⟩
  · exact htoken kind k
  · exact htoken _ k
  · rw [htext, List.drop_left]

/-- **Behind a statement the pieces go on where it was read to.** -/
theorem pieces_statement_iff (before : Bool) (hs : AtToken d s)
    (hhash : before = true → hashbang? s = none)
    (hout : readStatement { dialect := d } s = .done [.node n] s') :
    Pieces d before s ns ↔ ∃ ms, ns = n :: ms ∧ Pieces d false s' ms := by
  obtain ⟨tail, n', rest, hrow, hfirst, -, htext, hskips⟩ :=
    firstPiece_of_readStatement before hs hhash hout
  obtain ⟨rfl, hnode⟩ := List.append_eq_singleton_iff.1 hrow.symm |>.resolve_right (by simp)
  obtain rfl : n' = n := by simpa using hnode
  have hstill : stillBefore d before s = false := by
    unfold stillBefore
    rw [hs.2]
    exact Bool.and_false _
  have hdrop : s.drop n'.spelling.toList.length = rest := by rw [htext, List.drop_left]
  constructor
  · intro h
    cases h with
    | done => cases hfirst
    | blank hc =>
        rw [firstPiece_of_blank hc] at hfirst
        cases hfirst
    | next hfirst' h =>
        obtain rfl := Option.some.inj (hfirst.symm.trans hfirst')
        rw [hstill, hdrop] at h
        obtain ⟨ks, heq, hks⟩ := hskips.of_pieces h
        exact ⟨ks, congrArg (n' :: ·) heq, hks⟩
  · rintro ⟨ms, rfl, hms⟩
    refine .next hfirst ?_
    rw [hstill, hdrop]
    exact hskips.pieces hms

/-- There are no pieces where no statement is read. -/
theorem not_pieces_of_refused (hs : AtToken d s) (hne : s ≠ [])
    (hout : readStatement { dialect := d } s = .refused) : ¬ Pieces d false s ns := by
  intro h
  cases h with
  | done => exact hne rfl
  | blank hc =>
      rw [hs.1 _ rfl] at hc
      cases hc
  | next hfirst =>
      obtain ⟨tail, rest, s', hdone, -⟩ := statement_of_firstPiece hs hfirst
      rw [hout] at hdone
      cases hdone

/-! ## §4. Statements one after another. -/

/-- Statements that are read before pieces. -/
theorem pieces_of_repeatStep {depth : Nat} (budget : List Char) :
    ∀ {row row' : List Part} {s s' : List Char},
      40 * s.length + Symbol.statement.rank < depth →
      repeatStep (read rule depth .statement { dialect := d }) budget row s = .done row' s' →
      ∃ new, row' = new ++ row ∧ ∀ ns, Pieces d false s' ns →
        Pieces d false s (Part.nodes new.reverse ++ ns) := by
  induction budget with
  | nil =>
      intro row row' s s' _ h
      cases h
      exact ⟨[], rfl, fun ns hns => hns⟩
  | cons b budget ih =>
      intro row row' s s' hdepth h
      unfold repeatStep at h
      rw [read_statement_onto hdepth] at h
      have hat := atToken_readGap d s
      have hskips := skips_readGap (!d.hasTypes) s s
      have hle : (readGap (!d.hasTypes) s [] s).2.length ≤ s.length := length_readGap_le _ _ _
      generalize readGap (!d.hasTypes) s [] s = gap at hat hskips h hle
      obtain ⟨g, s₁⟩ := gap
      simp only at hat hskips h hle
      cases hout : readStatement { dialect := d } s₁ with
      | refused =>
          rw [hout] at h
          cases h
          exact ⟨[], rfl, fun ns hns => hns⟩
      | exhausted =>
          rw [hout] at h
          cases h
      | done row₁ s₂ =>
          rw [hout] at h
          -- the gap, the statement, the gap behind it, and the statements that follow
          obtain ⟨tail, n, rest, rfl, hfirst, -, htext, hbehind⟩ :=
            firstPiece_of_readStatement false hat (fun h => by cases h) hout
          obtain ⟨t, ht⟩ := hbehind.suffix
          have hshort : s₂.length ≤ s₁.length := by
            rw [htext, ht, List.length_append, List.length_append]
            omega
          obtain ⟨new, rfl, hnew⟩ := ih (by omega) h
          refine ⟨new ++ (tail ++ .node n :: g), by simp, fun ns hns => ?_⟩
          have hrest : Pieces d false (s₁.drop n.spelling.toList.length)
              (Part.nodes tail.reverse ++ (Part.nodes new.reverse ++ ns)) := by
            rw [htext, List.drop_left]
            exact hbehind.pieces (hnew ns hns)
          have hall := hskips.pieces (.next hfirst hrest)
          have hnodes : Part.nodes (new ++ (tail ++ .node n :: g)).reverse
              = Part.nodes g.reverse
                ++ n :: (Part.nodes tail.reverse ++ Part.nodes new.reverse) := by
            rw [nodes_reverse_append, nodes_reverse_append, List.reverse_cons, nodes_append]
            simp [Part.nodes, Part.node?]
          rw [hnodes]
          simpa using hall

/-- Pieces are read as statements, up to the gap at the end. -/
theorem repeatStep_of_pieces {depth : Nat} (budget : List Char) :
    ∀ (row : List Part) {s : List Char} {ns : List Node}, s.length ≤ budget.length →
      40 * s.length + Symbol.statement.rank < depth → Pieces d false s ns →
      ∃ new s' ms, repeatStep (read rule depth .statement { dialect := d }) budget row s
          = .done (new ++ row) s'
        ∧ ns = Part.nodes new.reverse ++ ms ∧ Pieces d false s' ms ∧ Skips (!d.hasTypes) s' ms [] := by
  induction budget with
  | nil =>
      intro row s ns hs _ h
      obtain rfl : s = [] := List.length_eq_zero_iff.1 (Nat.le_zero.1 hs)
      cases h with
      | done => exact ⟨[], [], [], rfl, rfl, .done, .refl⟩
      | next hfirst => cases hfirst
  | cons b budget ih =>
      intro row s ns hs hdepth h
      have hat := atToken_readGap d s
      have hskips := skips_readGap (!d.hasTypes) s s
      have hread : read rule depth .statement { dialect := d } row s = _ :=
        read_statement_onto hdepth
      have hle : (readGap (!d.hasTypes) s [] s).2.length ≤ s.length := length_readGap_le _ _ _
      obtain ⟨ns₁, rfl, h₁⟩ := hskips.of_pieces h
      generalize readGap (!d.hasTypes) s [] s = gap at hat hskips hread hle h₁ h
      obtain ⟨g, s₁⟩ := gap
      simp only at hat hskips hread hle h₁ h ⊢
      cases h₁ with
      | done =>
          -- only a gap is left, and no statement is read
          rw [readStatement_nil] at hread
          refine ⟨[], s, Part.nodes g.reverse ++ [], ?_, rfl, h, by simpa using hskips⟩
          unfold repeatStep
          rw [hread]
          rfl
      | blank hc =>
          have hno := hat.1 _ rfl
          rw [hc] at hno
          cases hno
      | @next _ _ n ns₂ hfirst hrest =>
          obtain ⟨tail, rest, s₂, hout, -, hne, htext, hbehind⟩ :=
            statement_of_firstPiece hat hfirst
          have hdrop : s₁.drop n.spelling.toList.length = rest := by
            rw [htext, List.drop_left]
          rw [hdrop] at hrest
          obtain ⟨ns₃, rfl, h₃⟩ := hbehind.of_pieces hrest
          -- the statement has a character at least
          obtain ⟨t, ht⟩ := hbehind.suffix
          have hpos : 0 < n.spelling.toList.length := List.length_pos_iff.2 hne
          have hshort : s₂.length < s.length := by
            have hlength := congrArg List.length htext
            rw [ht, List.length_append, List.length_append] at hlength
            omega
          rw [List.length_cons] at hs
          obtain ⟨new, s', ms, hmore, rfl, hms, hend⟩ :=
            ih (tail ++ .node n :: (g ++ row)) (show s₂.length ≤ _ by omega) (by omega) h₃
          refine ⟨new ++ (tail ++ .node n :: g), s', ms, ?_, ?_, hms, hend⟩
          · unfold repeatStep
            rw [hread, hout]
            simpa [Outcome.onto] using hmore
          · rw [nodes_reverse_append, nodes_reverse_append, List.reverse_cons, nodes_append]
            simp [Part.nodes, Part.node?]

/-! ## §5. Modules. -/

/-- Where all of a text can be skipped, a gap takes all of it. -/
theorem Skips.eq_nil {s t : List Char} (h : Skips (!d.hasTypes) s ns t) (ht : AtToken d t)
    (hall : Skips (!d.hasTypes) s ms []) : t = [] := by
  obtain ⟨ks, -, hrest⟩ := h.rest ht.1 ht.2 hall
  cases hrest with
  | refl => rfl
  | remark hremark => cases hm : (!d.hasTypes) <;> rw [hm] at hremark <;> cases hremark

/-- The statements of a module up to its end are pieces. -/
theorem pieces_of_statements {depth : Nat} {row row' : List Part}
    (hdepth : 40 * s.length + Symbol.statement.rank < depth)
    (h : step (read rule depth) statements { dialect := d } row s = .done row' []) :
    ∃ new, row' = new ++ row ∧ Pieces d false s (Part.nodes new.reverse) := by
  have hseq : step (read rule depth) (.seq (.many (.call .statement)) (.gap true))
      { dialect := d } row s = .done row' [] := h
  simp only [step, Bool.true_and] at hseq
  cases hmany : repeatStep (read rule depth .statement { dialect := d }) s row s with
  | refused =>
      rw [hmany] at hseq
      cases hseq
  | exhausted =>
      rw [hmany] at hseq
      cases hseq
  | done row₁ s₁ =>
      rw [hmany] at hseq
      simp only at hseq
      rw [readGap_frame] at hseq
      obtain ⟨hrow, hrest⟩ := Outcome.done.inj hseq
      -- behind the last statement there is a gap up to the end
      obtain ⟨new, rfl, hnew⟩ := pieces_of_repeatStep s hdepth hmany
      have hskips := skips_readGap (!d.hasTypes) s₁ s₁
      rw [hrest] at hskips
      refine ⟨_, by rw [← hrow, List.append_assoc], ?_⟩
      rw [nodes_reverse_append]
      apply hnew
      have hend := hskips.pieces (Pieces.done : Pieces d false [] [])
      rwa [List.append_nil] at hend

/-- Pieces are statements of a module up to its end. -/
theorem statements_of_pieces {depth : Nat} (row : List Part)
    (hdepth : 40 * s.length + Symbol.statement.rank < depth) (h : Pieces d false s ns) :
    ∃ new, step (read rule depth) statements { dialect := d } row s = .done (new ++ row) []
      ∧ Part.nodes new.reverse = ns := by
  obtain ⟨new, s₁, ms, hmany, rfl, hms, hall⟩ :=
    repeatStep_of_pieces s row (Nat.le_refl _) hdepth h
  have hskips := skips_readGap (!d.hasTypes) s₁ s₁
  have hat := atToken_readGap d s₁
  have hnil := hskips.eq_nil hat hall
  obtain ⟨ns', hns', hrest⟩ := hskips.of_pieces hms
  rw [hnil] at hrest
  cases hrest with
  | next hfirst => cases hfirst
  | done =>
      refine ⟨(readGap (!d.hasTypes) s₁ [] s₁).1 ++ new, ?_, ?_⟩
      · show step (read rule depth) (.seq (.many (.call .statement)) (.gap true))
          { dialect := d } row s = _
        simp only [step]
        rw [hmany]
        simp only [Bool.true_and]
        rw [readGap_frame, hnil, List.append_assoc]
      · rw [nodes_reverse_append, hns', List.append_nil]

/-- Without a line `#!…` at the front no statement is special. -/
theorem pieces_before_iff (hs : AtToken d s) (hhash : hashbang? s = none) :
    Pieces d true s ns ↔ Pieces d false s ns := by
  have hfirst : firstPiece d true s = firstPiece d false s := by
    unfold firstPiece
    rw [hhash]
    rfl
  have hbefore : ∀ before, stillBefore d before s = false := by
    intro before
    unfold stillBefore
    rw [hs.2]
    exact Bool.and_false before
  constructor <;> intro h
  all_goals
    cases h with
    | done => exact .done
    | blank hc =>
        have hno := hs.1 _ rfl
        rw [hc] at hno
        cases hno
    | next hnext h =>
        rw [hbefore] at h
        refine .next ?_ (by rwa [hbefore])
        first
          | rwa [← hfirst]
          | rwa [hfirst]

/-- A module is read behind its first gap, and behind the line `#!…` if there is one. -/
theorem readModule_eq (d : Dialect) (s : List Char) :
    readModule d s
      = match hashbang? (readGap (!d.hasTypes) s [] s).2 with
        | some n =>
            step (read rule (depthFor s)) statements { dialect := d }
              (.node (.token "hash_bang_line"
                (String.ofList ((readGap (!d.hasTypes) s [] s).2.take n)))
                :: (readGap (!d.hasTypes) s [] s).1)
              ((readGap (!d.hasTypes) s [] s).2.drop n)
        | none =>
            step (read rule (depthFor s)) statements { dialect := d }
              (readGap (!d.hasTypes) s [] s).1 (readGap (!d.hasTypes) s [] s).2 := by
  unfold readModule wholeModule
  simp only [step, Rule.opt, Bool.true_and, Lexeme.size?]
  cases hashbang? (readGap (!d.hasTypes) s [] s).2 with
  | none => rfl
  | some n => rfl

/-- The line `#!…` at the front is the first piece. -/
theorem firstPiece_of_hashbang {n : Nat} (hs : AtToken d s) (hhash : hashbang? s = some n) :
    firstPiece d true s = some (.token "hash_bang_line" (String.ofList (s.take n))) := by
  have hhead : s.head?.elim true Text.isGap = false := by
    cases s with
    | nil => cases hhash
    | cons c s => exact hs.1 c rfl
  unfold firstPiece
  rw [hhead, hs.2]
  simp only [Bool.false_eq_true, if_false, if_true, hhash]

/-- **A text that is read as a module falls into pieces.** -/
theorem pieces_of_readModule {row : List Part} (h : readModule d s = .done row []) :
    Pieces d true s (Part.nodes row.reverse) := by
  rw [readModule_eq] at h
  have hat := atToken_readGap d s
  have hskips := skips_readGap (!d.hasTypes) s s
  have hle : (readGap (!d.hasTypes) s [] s).2.length ≤ s.length := length_readGap_le _ _ _
  generalize readGap (!d.hasTypes) s [] s = gap at h hat hskips hle
  obtain ⟨g, s₁⟩ := gap
  simp only at h hat hskips hle
  cases hhash : hashbang? s₁ with
  | none =>
      rw [hhash] at h
      obtain ⟨new, rfl, hnew⟩ := pieces_of_statements (lt_depthFor hle) h
      rw [nodes_reverse_append]
      exact hskips.pieces ((pieces_before_iff hat hhash).2 hnew)
  | some n =>
      rw [hhash] at h
      have hrest : (s₁.drop n).length ≤ s.length := by
        rw [List.length_drop]
        omega
      obtain ⟨new, rfl, hnew⟩ := pieces_of_statements (lt_depthFor hrest) h
      rw [nodes_reverse_append, List.reverse_cons, nodes_append, List.append_assoc]
      refine hskips.pieces (.next (firstPiece_of_hashbang hat hhash) ?_)
      rw [toList_spelling_token, drop_length_take]
      unfold stillBefore
      rw [hat.2]
      exact hnew

/-- **A text that falls into pieces is read as a module.** -/
theorem readModule_of_pieces (h : Pieces d true s ns) :
    ∃ row, readModule d s = .done row [] ∧ Part.nodes row.reverse = ns := by
  rw [readModule_eq]
  have hat := atToken_readGap d s
  have hskips := skips_readGap (!d.hasTypes) s s
  have hle : (readGap (!d.hasTypes) s [] s).2.length ≤ s.length := length_readGap_le _ _ _
  generalize readGap (!d.hasTypes) s [] s = gap at hat hskips hle
  obtain ⟨g, s₁⟩ := gap
  simp only at hat hskips hle ⊢
  obtain ⟨ns₁, rfl, h₁⟩ := hskips.of_pieces h
  cases hhash : hashbang? s₁ with
  | none =>
      obtain ⟨new, hread, rfl⟩ := statements_of_pieces g (lt_depthFor hle)
        ((pieces_before_iff hat hhash).1 h₁)
      exact ⟨new ++ g, hread, nodes_reverse_append new g⟩
  | some n =>
      have hrest : (s₁.drop n).length ≤ s.length := by
        rw [List.length_drop]
        omega
      cases h₁ with
      | done => cases hhash
      | blank hc =>
          have hno := hat.1 _ rfl
          rw [hc] at hno
          cases hno
      | next hfirst h₂ =>
          obtain rfl := Option.some.inj ((firstPiece_of_hashbang hat hhash).symm.trans hfirst)
          rw [toList_spelling_token, drop_length_take] at h₂
          unfold stillBefore at h₂
          rw [hat.2] at h₂
          obtain ⟨new, hread, rfl⟩ := statements_of_pieces
            (.node (.token "hash_bang_line" (String.ofList (s₁.take n))) :: g)
            (lt_depthFor hrest) h₂
          refine ⟨_, hread, ?_⟩
          rw [nodes_reverse_append, List.reverse_cons, nodes_append, List.append_assoc]
          rfl

end

end ImportSplit.Grammar

namespace ImportSplit

/-- **A text is a module exactly if it falls into settled pieces**, and the
statements are those pieces. -/
theorem Program.ofSource?_eq_some_iff {d : Dialect} {source : String} {p : Program} :
    Program.ofSource? d source = some p
      ↔ ∃ ns, Grammar.Pieces d true source.toList ns ∧ (∀ n ∈ ns, n.isSettled = true)
        ∧ p = ⟨ns.map Statement.ofNode⟩ := by
  unfold Program.ofSource?
  constructor
  · intro h
    split at h
    · next row hread =>
        simp only at h
        split at h
        · next hsettled =>
            cases h
            exact ⟨_, Grammar.pieces_of_readModule hread, List.all_eq_true.1 hsettled, rfl⟩
        · cases h
    · cases h
  · rintro ⟨ns, hpieces, hsettled, rfl⟩
    obtain ⟨row, hread, rfl⟩ := Grammar.readModule_of_pieces hpieces
    rw [hread]
    exact if_pos (List.all_eq_true.2 hsettled)

theorem Program.ofSource_eq_ok_iff {d : Dialect} {source : String} {p : Program} :
    Program.ofSource d source = .ok p ↔ Program.ofSource? d source = some p := by
  unfold Program.ofSource
  cases Program.ofSource? d source with
  | none =>
      constructor <;> intro h <;> cases h
  | some q =>
      constructor <;> intro h <;> cases h <;> rfl

end ImportSplit
