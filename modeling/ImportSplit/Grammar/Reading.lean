/-
  ImportSplit.Grammar.Reading
  ────────────────────────────────
  **READING BY RULES.**

  `step` reads a rule at a place: it adds parts to a row, latest first, and
  tells what is left of the text.  Named rules are read by `read`, to a depth
  of calls; where the depth is used up the outcome is `exhausted`, which is
  neither success nor refusal.

  Main statement: reading loses nothing.  The text of the row and of what is
  left stays the same (`step_lossless`):

      step … r c row s = .done row' s'  →  text row' ++ s' = text row ++ s
-/
import ImportSplit.Grammar.Rule
import ImportSplit.Grammar.Build

namespace ImportSplit.Grammar

/-! ## §1. Gaps. -/

/-- The length of a comment at the start of the text, and its kind. -/
def commentHere? (withMarkup : Bool) (s : List Char) : Option (String × Nat) :=
  match comment.longest? s with
  | some n => some ("comment", n)
  | none =>
      if withMarkup then (markupComment? s).map fun n => ("html_comment", n) else none

/-- Takes blanks and comments into the row.  Each round takes a character of
the budget at least. -/
def readGap (withMarkup : Bool) : (budget : List Char) → List Part → List Char →
    List Part × List Char
  | [], row, s => (row, s)
  | _ :: budget, row, s =>
      let blanks := (s.takeWhile Text.isGap).length
      let row := if blanks = 0 then row else .text (String.ofList (s.take blanks)) :: row
      let s := s.drop blanks
      match commentHere? withMarkup s with
      | none => (row, s)
      | some (kind, n) =>
          readGap withMarkup budget (.node (.token kind (String.ofList (s.take n))) :: row) (s.drop n)

/-! ## §2. Rules. -/

/-- What comes of reading a rule. -/
inductive Outcome where
  /-- The row of parts, latest first, and what is left. -/
  | done (row : List Part) (rest : List Char)
  /-- The rule does not fit here. -/
  | refused
  /-- Calls nest too deep. -/
  | exhausted
  deriving Inhabited

/-- Reads with `f` as often as it can; each round takes a character of the
budget at least. -/
def repeatStep (f : List Part → List Char → Outcome) :
    (budget : List Char) → List Part → List Char → Outcome
  | [], row, s => .done row s
  | _ :: budget, row, s =>
      match f row s with
      | .done row' s' => repeatStep f budget row' s'
      | .refused => .done row s
      | .exhausted => .exhausted

section
variable {ν : Type}

/-- Reads a rule; calls are handed to `next`. -/
def step (next : ν → Context → List Part → List Char → Outcome) :
    Rule ν → Context → List Part → List Char → Outcome
  | .nothing, _, row, s => .done row s
  | .leaf kind lexeme, _, row, s =>
      match lexeme.size? s with
      | some n => .done (.node (.leaf kind (String.ofList (s.take n))) :: row) (s.drop n)
      | none => .refused
  | .gap withMarkup, c, row, s =>
      let (row', s') := readGap (withMarkup && !c.dialect.hasTypes) s row s
      .done row' s'
  | .ends operators, c, row, s =>
      match c.absorbed? operators s with
      | some n =>
          let (row', s') := readGap false (s.take n) row (s.take n)
          .done row' (s' ++ s.drop n)
      | none => .refused
  | .stays operators, c, row, s =>
      if c.mayEnd && (c.absorbed? operators s).isSome then .refused
      else .done row s
  | .seq first second, c, row, s =>
      match step next first c row s with
      | .done row' s' => step next second c row' s'
      | .refused => .refused
      | .exhausted => .exhausted
  | .either first second, c, row, s =>
      match step next first c row s with
      | .refused => step next second c row s
      | .done row' s' => .done row' s'
      | .exhausted => .exhausted
  | .many r, c, row, s => repeatStep (step next r c) s row s
  | .scope r, c, row, s =>
      let (row', s') := readGap false s row s
      match step next r c [] s' with
      | .done inner s'' => .done (inner ++ row') s''
      | .refused => .refused
      | .exhausted => .exhausted
  | .wrap kind r, c, row, s =>
      match step next r c row s with
      | .done row' s' => .done [.node (Node.build kind row'.reverse)] s'
      | .refused => .refused
      | .exhausted => .exhausted
  | .call name, c, row, s => next name c row s
  | .ahead r, c, row, s =>
      match step next r c [] s with
      | .done _ _ => .done row s
      | .refused => .refused
      | .exhausted => .exhausted
  | .notAhead r, c, row, s =>
      match step next r c [] s with
      | .done _ _ => .refused
      | .refused => .done row s
      | .exhausted => .exhausted
  | .holds p, _, row, s =>
      match row with
      | .node n :: _ => if p n then .done row s else .refused
      | _ => .refused
  | .given p, c, row, s => if p c then .done row s else .refused
  | .within f r, c, row, s => step next r (f c) row s

/-- Reads a named rule, with calls nested to the given depth. -/
def read (rules : ν → Rule ν) : (depth : Nat) → ν → Context → List Part → List Char → Outcome
  | 0, _, _, _, _ => .exhausted
  | depth + 1, name, c, row, s => step (read rules depth) (rules name) c row s

end

/-! ## §3. Reading loses nothing. -/

/-- The text of a row, whose latest part comes first. -/
def rowText (row : List Part) : List Char := (Part.spellingOfList row.reverse).toList

@[simp] theorem rowText_nil : rowText [] = [] := by simp [rowText]

theorem rowText_cons (p : Part) (row : List Part) :
    rowText (p :: row) = rowText row ++ p.spelling.toList := by
  simp [rowText, Part.spellingOfList_append]

theorem rowText_append (inner row : List Part) :
    rowText (inner ++ row) = rowText row ++ rowText inner := by
  simp [rowText, Part.spellingOfList_append]

theorem readGap_lossless (withMarkup : Bool) (budget : List Char) :
    ∀ (row : List Part) (s : List Char),
      rowText (readGap withMarkup budget row s).1 ++ (readGap withMarkup budget row s).2
        = rowText row ++ s := by
  induction budget with
  | nil => intro row s; rfl
  | cons b budget ih =>
      intro row s
      have blank : ∀ (n : Nat),
          rowText (if n = 0 then row else .text (String.ofList (s.take n)) :: row) ++ s.drop n
            = rowText row ++ s := by
        intro n
        split
        · next h => simp [h]
        · simp [rowText_cons, Part.spelling, List.append_assoc]
      simp only [readGap]
      split
      · exact blank _
      · next kind n _ =>
          rw [ih, rowText_cons]
          simp only [Part.spelling, Node.spelling, String.toList_ofList, List.append_assoc,
            List.take_append_drop]
          exact blank _

/-- What a reader of named rules must keep. -/
def Lossless {ν : Type} (next : ν → Context → List Part → List Char → Outcome) : Prop :=
  ∀ name c row s row' s', next name c row s = .done row' s' → rowText row' ++ s' = rowText row ++ s

theorem repeatStep_lossless {f : List Part → List Char → Outcome}
    (hf : ∀ row s row' s', f row s = .done row' s' → rowText row' ++ s' = rowText row ++ s)
    (budget : List Char) :
    ∀ row s row' s', repeatStep f budget row s = .done row' s' →
      rowText row' ++ s' = rowText row ++ s := by
  induction budget with
  | nil =>
      intro row s row' s' h
      simp only [repeatStep, Outcome.done.injEq] at h
      rw [h.1, h.2]
  | cons b budget ih =>
      intro row s row' s' h
      simp only [repeatStep] at h
      split at h
      · next r t hr => rw [ih _ _ _ _ h, hf _ _ _ _ hr]
      · simp only [Outcome.done.injEq] at h
        rw [h.1, h.2]
      · simp at h

theorem step_lossless {ν : Type} {next : ν → Context → List Part → List Char → Outcome}
    (hnext : Lossless next) (r : Rule ν) :
    ∀ c row s row' s', step next r c row s = .done row' s' →
      rowText row' ++ s' = rowText row ++ s := by
  induction r with
  | nothing =>
      intro c row s row' s' h
      simp only [step, Outcome.done.injEq] at h
      rw [h.1, h.2]
  | leaf kind lexeme =>
      intro c row s row' s' h
      simp only [step] at h
      split at h
      · simp only [Outcome.done.injEq] at h
        rw [← h.1, ← h.2, rowText_cons]
        simp [Part.spelling]
      · simp at h
  | gap withMarkup =>
      intro c row s row' s' h
      simp only [step, Outcome.done.injEq] at h
      rw [← h.1, ← h.2]
      exact readGap_lossless ..
  | ends operators =>
      intro c row s row' s' h
      simp only [step] at h
      split at h
      · next n _ =>
          simp only [Outcome.done.injEq] at h
          rw [← h.1, ← h.2, ← List.append_assoc, readGap_lossless, List.append_assoc,
            List.take_append_drop]
      · simp at h
  | stays operators =>
      intro c row s row' s' h
      simp only [step] at h
      split at h
      · simp at h
      · simp only [Outcome.done.injEq] at h
        rw [h.1, h.2]
  | seq first second ih₁ ih₂ =>
      intro c row s row' s' h
      simp only [step] at h
      split at h
      · next r t hr => rw [ih₂ _ _ _ _ _ h, ih₁ _ _ _ _ _ hr]
      · simp at h
      · simp at h
  | either first second ih₁ ih₂ =>
      intro c row s row' s' h
      simp only [step] at h
      split at h
      · exact ih₂ _ _ _ _ _ h
      · next r t hr =>
          simp only [Outcome.done.injEq] at h
          rw [← h.1, ← h.2]
          exact ih₁ _ _ _ _ _ hr
      · simp at h
  | many r ih =>
      intro c row s row' s' h
      exact repeatStep_lossless (fun row s row' s' => ih c row s row' s') s row s row' s' h
  | scope r ih =>
      intro c row s row' s' h
      simp only [step] at h
      split at h
      · next inner t hr =>
          simp only [Outcome.done.injEq] at h
          have := ih _ _ _ _ _ hr
          rw [← h.1, ← h.2, rowText_append, List.append_assoc, this]
          simp only [rowText_nil, List.nil_append]
          exact readGap_lossless ..
      · simp at h
      · simp at h
  | wrap kind r ih =>
      intro c row s row' s' h
      simp only [step] at h
      split at h
      · next row₁ t hr =>
          simp only [Outcome.done.injEq] at h
          have := ih _ _ _ _ _ hr
          rw [← h.1, ← h.2, ← this, rowText_cons]
          simp [Part.spelling, Node.spelling_build, rowText]
      · simp at h
      · simp at h
  | call name =>
      intro c row s row' s' h
      exact hnext _ _ _ _ _ _ h
  | ahead r ih =>
      intro c row s row' s' h
      simp only [step] at h
      split at h
      · simp only [Outcome.done.injEq] at h
        rw [h.1, h.2]
      · simp at h
      · simp at h
  | notAhead r ih =>
      intro c row s row' s' h
      simp only [step] at h
      split at h
      · simp at h
      · simp only [Outcome.done.injEq] at h
        rw [h.1, h.2]
      · simp at h
  | holds p =>
      intro c row s row' s' h
      simp only [step] at h
      split at h
      · split at h
        · simp only [Outcome.done.injEq] at h
          rw [h.1, h.2]
        · simp at h
      · simp at h
  | given p =>
      intro c row s row' s' h
      simp only [step] at h
      split at h
      · simp only [Outcome.done.injEq] at h
        rw [h.1, h.2]
      · simp at h
  | within f r ih =>
      intro c row s row' s' h
      exact ih _ _ _ _ _ h

/-- Reading a named rule loses nothing. -/
theorem read_lossless {ν : Type} (rules : ν → Rule ν) (depth : Nat) :
    Lossless (read rules depth) := by
  induction depth with
  | zero => intro name c row s row' s' h; simp [read] at h
  | succ d ih =>
      intro name c row s row' s' h
      exact step_lossless ih _ _ _ _ _ _ h

end ImportSplit.Grammar
