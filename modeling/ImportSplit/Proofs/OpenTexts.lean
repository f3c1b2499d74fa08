/-
  ImportSplit.Proofs.OpenTexts
  ────────────────────────────────
  **READING A TEXT WHOSE END IS NOT KNOWN.**

  A rule is read at a text before it is known what follows.  `stepDecided`
  follows the reading and asks at each step whether the text decides it; where
  all steps are decided, the reader does in front of any other text what it does
  at the end of this one (`step_append`):

      stepDecided … r … s  →  step … r … (s ++ tail) = (step … r … s).before tail

  So a line can be looked at alone.  It `standsAlone` if it is one statement
  whatever follows:

      lodash_map(a);      does
      lodash_map(a)       may go on with the next line
      if (a) { b(); }      may go on with `else`
-/
import ImportSplit.Proofs.Lookahead

namespace ImportSplit.Grammar

/-! ## §1. Rounds and ends. -/

/-- Whether a statement ends here does not depend on what follows the text. -/
def Context.endDecided (c : Context) (operators : Bool) (s : List Char) : Bool :=
  c.seam.isNone && Semicolon.absorbedDecided c.dialect operators s s

theorem Context.absorbed?_append {c : Context} {operators : Bool} {s : List Char}
    (h : c.endDecided operators s = true) (tail : List Char) :
    c.absorbed? operators (s ++ tail) = c.absorbed? operators s := by
  obtain ⟨hseam, hend⟩ := Bool.and_eq_true _ _ ▸ h
  unfold Context.absorbed?
  rw [Option.isNone_iff_eq_none.1 hseam]
  exact Semicolon.absorbed?_append hend tail

theorem Semicolon.le_length_of_absorbed?_go {d : Dialect} {operators : Bool} (budget : List Char) :
    ∀ {s : List Char} {n : Nat}, absorbed?.go d operators budget s = some n → n ≤ s.length := by
  induction budget with
  | nil =>
      intro s n h
      unfold absorbed?.go at h
      split at h
      · cases h
        exact Nat.zero_le _
      · cases h
  | cons b budget ih =>
      intro s n h
      unfold absorbed?.go at h
      split at h
      · cases h
        exact Nat.zero_le _
      · simp only at h
        split at h
        · next k hlongest =>
            obtain ⟨j, hj, rfl⟩ := Option.map_eq_some_iff.1 h
            have hblanks : (s.takeWhile Text.isGap).length ≤ s.length :=
              (List.takeWhile_prefix _).length_le
            have hk := (Scanner.run_of_longest? hlongest).1
            have hle := ih hj
            rw [List.length_drop] at hk hle
            omega
        · cases h

theorem Context.le_length_of_absorbed? {c : Context} {operators : Bool} {s : List Char} {n : Nat}
    (h : c.absorbed? operators s = some n) : n ≤ s.length := by
  unfold Context.absorbed? at h
  split at h
  · cases h
  · exact Semicolon.le_length_of_absorbed?_go s h

/-- The outcome in front of more text. -/
def Outcome.before (tail : List Char) : Outcome → Outcome
  | done row rest => done row (rest ++ tail)
  | refused => refused
  | exhausted => exhausted

/-- No round of a repetition depends on what follows the text. -/
def repeatDecided (f : List Part → List Char → Outcome) (decided : List Part → List Char → Bool) :
    (budget : List Char) → List Part → List Char → Bool
  | [], _, _ => false
  | _ :: budget, row, s =>
      decided row s
        && match f row s with
          | .done row' s' => repeatDecided f decided budget row' s'
          | _ => true

theorem repeatStep_append {f : List Part → List Char → Outcome}
    (decided : List Part → List Char → Bool) {tail : List Char}
    (hf : ∀ row s, decided row s = true → f row (s ++ tail) = (f row s).before tail)
    (more budget : List Char) :
    ∀ {row : List Part} {s : List Char}, repeatDecided f decided budget row s = true →
      repeatStep f (budget ++ more) row (s ++ tail) = (repeatStep f budget row s).before tail := by
  induction budget with
  | nil =>
      intro row s h
      cases h
  | cons b budget ih =>
      intro row s h
      unfold repeatDecided at h
      obtain ⟨hround, hrest⟩ := Bool.and_eq_true _ _ ▸ h
      rw [List.cons_append]
      unfold repeatStep
      rw [hf row s hround]
      cases hout : f row s with
      | done row' s' =>
          rw [hout] at hrest
          exact ih hrest
      | refused => rfl
      | exhausted => rfl

/-! ## §2. Rules. -/

section
variable {ν : Type}

/-- How the rule is read does not depend on what follows the text; `decided` says
the same of named rules. -/
def stepDecided (next : ν → Context → List Part → List Char → Outcome)
    (decided : ν → Context → List Part → List Char → Bool) :
    Rule ν → Context → List Part → List Char → Bool
  | .nothing, _, _, _ | .holds _, _, _, _ | .given _, _, _, _ => true
  | .leaf _ lexeme, _, _, s =>
      lexeme.isDecided s && (lexeme.size? s).elim true fun n => decide (n ≤ s.length)
  | .gap withMarkup, c, _, s => gapDecided (withMarkup && !c.dialect.hasTypes) s s
  | .ends operators, c, _, s => c.endDecided operators s
  | .stays operators, c, _, s => !c.mayEnd || c.endDecided operators s
  | .seq first second, c, row, s =>
      stepDecided next decided first c row s
        && match step next first c row s with
          | .done row' s' => stepDecided next decided second c row' s'
          | _ => true
  | .either first second, c, row, s =>
      stepDecided next decided first c row s
        && match step next first c row s with
          | .refused => stepDecided next decided second c row s
          | _ => true
  | .many r, c, row, s => repeatDecided (step next r c) (stepDecided next decided r c) s row s
  | .scope r, c, row, s =>
      gapDecided false s s && stepDecided next decided r c [] (readGap false s row s).2
  | .wrap _ r, c, row, s => stepDecided next decided r c row s
  | .call name, c, row, s => decided name c row s
  | .ahead r, c, _, s | .notAhead r, c, _, s => stepDecided next decided r c [] s
  | .within f r, c, row, s => stepDecided next decided r (f c) row s

/-- **What is decided in a text is read there as in front of any other.** -/
theorem step_append {next : ν → Context → List Part → List Char → Outcome}
    {decided : ν → Context → List Part → List Char → Bool} {tail : List Char}
    (hnext : ∀ name c row s, decided name c row s = true →
      next name c row (s ++ tail) = (next name c row s).before tail) (r : Rule ν) :
    ∀ {c : Context} {row : List Part} {s : List Char}, stepDecided next decided r c row s = true →
      step next r c row (s ++ tail) = (step next r c row s).before tail := by
  induction r with
  | nothing => exact fun _ => rfl
  | leaf kind lexeme =>
      intro c row s h
      obtain ⟨hdecided, hstands⟩ := Bool.and_eq_true _ _ ▸ h
      simp only [step, Lexeme.size?_append hdecided tail]
      cases hsize : lexeme.size? s with
      | none => rfl
      | some n =>
          rw [hsize] at hstands
          have hn : n ≤ s.length := of_decide_eq_true hstands
          simp only [Outcome.before, List.take_append_of_le_length hn, List.drop_append_of_le_length hn]
  | gap withMarkup =>
      intro c row s h
      simp only [step, readGap_append tail tail s row h]
      rfl
  | ends operators =>
      intro c row s h
      simp only [step, Context.absorbed?_append h tail]
      cases hout : c.absorbed? operators s with
      | none => rfl
      | some n =>
          have hn := Context.le_length_of_absorbed? hout
          simp only [Outcome.before, List.take_append_of_le_length hn, List.drop_append_of_le_length hn,
            List.append_assoc]
  | stays operators =>
      intro c row s h
      simp only [step]
      rcases Bool.or_eq_true _ _ ▸ h with hmay | hend
      · rw [Bool.not_eq_true'] at hmay
        simp [hmay, Outcome.before]
      · rw [Context.absorbed?_append hend tail]
        split <;> rfl
  | seq first second ih₁ ih₂ =>
      intro c row s h
      obtain ⟨hfirst, hsecond⟩ := Bool.and_eq_true _ _ ▸ h
      simp only [step, ih₁ hfirst]
      cases hout : step next first c row s with
      | done row' s' =>
          rw [hout] at hsecond
          exact ih₂ hsecond
      | refused => rfl
      | exhausted => rfl
  | either first second ih₁ ih₂ =>
      intro c row s h
      obtain ⟨hfirst, hsecond⟩ := Bool.and_eq_true _ _ ▸ h
      simp only [step, ih₁ hfirst]
      cases hout : step next first c row s with
      | done row' s' => rfl
      | refused =>
          rw [hout] at hsecond
          exact ih₂ hsecond
      | exhausted => rfl
  | many r ih =>
      intro c row s h
      exact repeatStep_append (stepDecided next decided r c) (fun row s => ih) tail s h
  | scope r ih =>
      intro c row s h
      obtain ⟨hgap, hr⟩ := Bool.and_eq_true _ _ ▸ h
      simp only [step, readGap_append tail tail s row hgap, ih hr]
      cases step next r c [] (readGap false s row s).2 <;> rfl
  | wrap kind r ih =>
      intro c row s h
      simp only [step, ih h]
      cases step next r c row s <;> rfl
  | call name => exact fun h => hnext _ _ _ _ h
  | ahead r ih =>
      intro c row s h
      simp only [step, ih h]
      cases step next r c [] s <;> rfl
  | notAhead r ih =>
      intro c row s h
      simp only [step, ih h]
      cases step next r c [] s <;> rfl
  | holds p =>
      intro c row s _
      simp only [step]
      split
      · split <;> rfl
      · rfl
  | given p =>
      intro c row s _
      simp only [step]
      split <;> rfl
  | within f r ih => exact fun h => ih h

end

/-- How a named rule is read does not depend on what follows the text, if its calls
nest no deeper than this. -/
def readDecided : (depth : Nat) → Symbol → Context → List Part → List Char → Bool
  | 0, _, _, _, _ => false
  | depth + 1, name, c, row, s => stepDecided readDeep (readDecided depth) (rule name) c row s

theorem readDeep_append (tail : List Char) (depth : Nat) :
    ∀ (name : Symbol) (c : Context) (row : List Part) (s : List Char),
      readDecided depth name c row s = true →
      readDeep name c row (s ++ tail) = (readDeep name c row s).before tail := by
  induction depth with
  | zero =>
      intro name c row s h
      cases h
  | succ depth ih =>
      intro name c row s h
      rw [readDeep_eq, readDeep_eq]
      exact step_append ih (rule name) h

/-! ## §3. Statements. -/

/-- A statement stands at the front of the text, and how it is read does not depend
on what follows the text. -/
def statementDecided (d : Dialect) (s : List Char) : Bool :=
  s.head?.elim false (fun c => !Text.isGap c)
    && (commentDecided (!d.hasTypes) s && (commentHere? (!d.hasTypes) s).isNone)
    && (Lexeme.hashbang.isDecided s && (hashbang? s).isNone)
    && stepDecided readDeep (readDecided (depthFor s)) (.oneOf statementRules) { dialect := d } [] s

theorem firstPiece_append {d : Dialect} {s : List Char} (h : statementDecided d s = true)
    (beforeAll : Bool) (tail : List Char) :
    firstPiece d beforeAll (s ++ tail) = firstPiece d false s := by
  simp only [statementDecided, Bool.and_eq_true, Option.isNone_iff_eq_none] at h
  obtain ⟨⟨⟨hhead, hcomment, hnone⟩, hhash, hnohash⟩, hstep⟩ := h
  obtain ⟨c, s, rfl⟩ : ∃ c t, s = c :: t := by
    cases s with
    | nil => cases hhead
    | cons c s => exact ⟨c, s, rfl⟩
  have hgap : Text.isGap c = false := by simpa using hhead
  have hnone' : commentHere? (!d.hasTypes) (c :: s ++ tail) = none := by
    rw [commentHere?_append_of_decided hcomment, hnone]
  have hnohash' : hashbang? (c :: s ++ tail) = none := by
    rw [← hnohash]
    exact Lexeme.size?_append hhash tail
  have hat : AtToken d (c :: s) := ⟨fun e he => Option.some.inj he ▸ hgap, hnone⟩
  have hat' : AtToken d (c :: s ++ tail) := ⟨fun e he => Option.some.inj he ▸ hgap, hnone'⟩
  have hstart : (Option.some c).elim true Text.isGap ≠ true := by
    rw [Option.elim_some, hgap]
    exact Bool.false_ne_true
  unfold firstPiece
  rw [hnone, hnone', hnohash', readStatement_unbounded hat, readStatement_unbounded hat',
    step_append (readDeep_append tail (depthFor (c :: s))) _ hstep, List.cons_append,
    List.head?_cons, List.head?_cons, if_neg hstart, if_neg hstart, ite_self]
  cases step readDeep (.oneOf statementRules) { dialect := d } [] (c :: s) <;> rfl

/-- The line is one statement by itself, whatever follows it. -/
def standsAlone (d : Dialect) (t : String) : Bool :=
  statementDecided d t.toList
    && (firstPiece d false t.toList).any fun n => n.spelling == t && n.isSettled

/-- A statement with its own semicolon stands alone, one without does not. -/
example : standsAlone .js "lodash_map(a);" = true ∧ standsAlone .js "lodash_map(a)" = false := by
  decide +kernel

end ImportSplit.Grammar
