/-
  ImportSplit.Proofs.Derivations
  ────────────────────────────────
  **WHAT A READING WENT THROUGH.**

  `step` is unfolded here once: where it succeeds there is a derivation
  (`Reads`) with one rule for each way in which a rule of the grammar can be
  read.  What holds of everything that is read is then shown by induction on
  derivations, without the depth of calls and without the ways to fail.

      read rules depth name c row s = .done row' s'
        →  Reads rules (rules name) c row s row' s'

  A derivation forgets what was refused on the way, so it does not determine
  the outcome; a reading of a given text is followed with `step` itself.
-/
import ImportSplit.Grammar.Reading

namespace ImportSplit.Grammar

/-! ## §1. Gaps. -/

/-- What a gap takes does not depend on the row before it. -/
theorem readGap_frame (withMarkup : Bool) (budget : List Char) :
    ∀ (row : List Part) (s : List Char),
      readGap withMarkup budget row s
        = ((readGap withMarkup budget [] s).1 ++ row, (readGap withMarkup budget [] s).2) := by
  induction budget with
  | nil => exact fun _ _ => rfl
  | cons b budget ih =>
      intro row s
      unfold readGap
      -- both runs stop at the same place; the longer row is carried along
      by_cases hblank : (s.takeWhile Text.isGap).length = 0
      · simp only [hblank, if_true]
        cases commentHere? withMarkup (s.drop 0) with
        | none => rfl
        | some x =>
            simp only []
            rw [ih, ih [_]]
            simp
      · simp only [hblank, if_false]
        cases commentHere? withMarkup (s.drop (s.takeWhile Text.isGap).length) with
        | none => rfl
        | some x =>
            simp only []
            rw [ih, ih [_, _]]
            simp

/-! ## §2. Derivations. -/

variable {ν : Type}

/-- `Reads rules r c row s row' s'`: in the surroundings `c` the rule `r` can
turn the row into `row'` and leave `s'` of the text `s`. -/
inductive Reads (rules : ν → Rule ν) :
    Rule ν → Context → List Part → List Char → List Part → List Char → Prop where
  | nothing {c row s} : Reads rules .nothing c row s row s
  | leaf {c row s kind lexeme n} (hsize : Lexeme.size? s lexeme = some n) :
      Reads rules (.leaf kind lexeme) c row s
        (.node (.leaf kind (String.ofList (s.take n))) :: row) (s.drop n)
  | gap {c row s} (withMarkup : Bool) :
      Reads rules (.gap withMarkup) c row s
        ((readGap (withMarkup && !c.dialect.hasTypes) s [] s).1 ++ row)
        (readGap (withMarkup && !c.dialect.hasTypes) s [] s).2
  | ends {c row s operators n} (habsorbed : c.absorbed? operators s = some n) :
      Reads rules (.ends operators) c row s
        ((readGap false (s.take n) [] (s.take n)).1 ++ row)
        ((readGap false (s.take n) [] (s.take n)).2 ++ s.drop n)
  | stays {c row s operators} : Reads rules (.stays operators) c row s row s
  | seq {first second c row s row₁ s₁ row₂ s₂} (hfirst : Reads rules first c row s row₁ s₁)
      (hsecond : Reads rules second c row₁ s₁ row₂ s₂) :
      Reads rules (.seq first second) c row s row₂ s₂
  | left {first second c row s row' s'} (h : Reads rules first c row s row' s') :
      Reads rules (.either first second) c row s row' s'
  | right {first second c row s row' s'} (h : Reads rules second c row s row' s') :
      Reads rules (.either first second) c row s row' s'
  | stop {r c row s} : Reads rules (.many r) c row s row s
  | again {r c row s row₁ s₁ row₂ s₂} (honce : Reads rules r c row s row₁ s₁)
      (hmore : Reads rules (.many r) c row₁ s₁ row₂ s₂) :
      Reads rules (.many r) c row s row₂ s₂
  | scope {r c row s inner s'} (h : Reads rules r c [] (readGap false s [] s).2 inner s') :
      Reads rules (.scope r) c row s (inner ++ ((readGap false s [] s).1 ++ row)) s'
  | wrap {r c row s kind row' s'} (h : Reads rules r c row s row' s') :
      Reads rules (.wrap kind r) c row s [.node (Node.build kind row'.reverse)] s'
  | call {name c row s row' s'} (h : Reads rules (rules name) c row s row' s') :
      Reads rules (.call name) c row s row' s'
  | ahead {r c row s} : Reads rules (.ahead r) c row s row s
  | notAhead {r c row s} : Reads rules (.notAhead r) c row s row s
  | holds {p c row s} : Reads rules (.holds p) c row s row s
  | given {p c row s} (hgiven : p c = true) : Reads rules (.given p) c row s row s
  | within {f r c row s row' s'} (h : Reads rules r (f c) row s row' s') :
      Reads rules (.within f r) c row s row' s'

/-! ## §3. From readings to derivations. -/

variable {rules : ν → Rule ν} {next : ν → Context → List Part → List Char → Outcome}

theorem reads_of_repeatStep {r : Rule ν} {c : Context}
    {f : List Part → List Char → Outcome}
    (hf : ∀ row s row' s', f row s = .done row' s' → Reads rules r c row s row' s') :
    ∀ (budget : List Char) (row : List Part) (s : List Char) (row' : List Part) (s' : List Char),
      repeatStep f budget row s = .done row' s' → Reads rules (.many r) c row s row' s' := by
  intro budget
  induction budget with
  | nil =>
      intro row s row' s' h
      cases h
      exact .stop
  | cons b budget ih =>
      intro row s row' s' h
      unfold repeatStep at h
      cases hfirst : f row s with
      | done row₁ s₁ =>
          rw [hfirst] at h
          exact .again (hf _ _ _ _ hfirst) (ih _ _ _ _ h)
      | refused =>
          rw [hfirst] at h
          cases h
          exact .stop
      | exhausted =>
          rw [hfirst] at h
          cases h

theorem reads_of_step
    (hnext : ∀ name c row s row' s', next name c row s = .done row' s' →
      Reads rules (rules name) c row s row' s')
    (r : Rule ν) :
    ∀ (c : Context) (row : List Part) (s : List Char) (row' : List Part) (s' : List Char),
      step next r c row s = .done row' s' → Reads rules r c row s row' s' := by
  -- the induction is on the rule: a rule that is not read fails, and then `h` is absurd
  induction r with
  | nothing =>
      intro c row s row' s' h
      cases h
      exact .nothing
  | leaf kind lexeme =>
      intro c row s row' s' h
      simp only [step] at h
      cases hsize : lexeme.size? s with
      | none =>
          rw [hsize] at h
          cases h
      | some n =>
          rw [hsize] at h
          cases h
          exact .leaf hsize
  | gap withMarkup =>
      intro c row s row' s' h
      simp only [step] at h
      rw [readGap_frame] at h
      cases h
      exact .gap withMarkup
  | ends operators =>
      intro c row s row' s' h
      simp only [step] at h
      cases habsorbed : c.absorbed? operators s with
      | none =>
          rw [habsorbed] at h
          cases h
      | some n =>
          simp only [habsorbed] at h
          rw [readGap_frame] at h
          cases h
          exact .ends habsorbed
  | stays operators =>
      intro c row s row' s' h
      simp only [step] at h
      split at h
      · cases h
      · cases h
        exact .stays
  | seq first second ih₁ ih₂ =>
      intro c row s row' s' h
      simp only [step] at h
      split at h
      · next hfirst => exact .seq (ih₁ _ _ _ _ _ hfirst) (ih₂ _ _ _ _ _ h)
      · cases h
      · cases h
  | either first second ih₁ ih₂ =>
      intro c row s row' s' h
      simp only [step] at h
      split at h
      · exact .right (ih₂ _ _ _ _ _ h)
      · next hfirst =>
          cases h
          exact .left (ih₁ _ _ _ _ _ hfirst)
      · cases h
  | many r ih =>
      intro c row s row' s' h
      exact reads_of_repeatStep (fun row s row' s' => ih c row s row' s') s row s row' s' h
  | scope r ih =>
      intro c row s row' s' h
      simp only [step] at h
      rw [readGap_frame] at h
      split at h
      · next hinner =>
          cases h
          exact .scope (ih _ _ _ _ _ hinner)
      · cases h
      · cases h
  | wrap kind r ih =>
      intro c row s row' s' h
      simp only [step] at h
      split at h
      · next hinner =>
          cases h
          exact .wrap (ih _ _ _ _ _ hinner)
      · cases h
      · cases h
  | call name =>
      intro c row s row' s' h
      exact .call (hnext _ _ _ _ _ _ h)
  | ahead r ih =>
      intro c row s row' s' h
      simp only [step] at h
      split at h
      · cases h
        exact .ahead
      · cases h
      · cases h
  | notAhead r ih =>
      intro c row s row' s' h
      simp only [step] at h
      split at h
      · cases h
      · cases h
        exact .notAhead
      · cases h
  | holds p =>
      intro c row s row' s' h
      simp only [step] at h
      split at h
      · split at h
        · cases h
          exact .holds
        · cases h
      · cases h
  | given p =>
      intro c row s row' s' h
      simp only [step] at h
      split at h
      · next hgiven =>
          cases h
          exact .given hgiven
      · cases h
  | within f r ih =>
      intro c row s row' s' h
      exact .within (ih _ _ _ _ _ h)

/-- **Where a named rule is read, there is a derivation.** -/
theorem reads_of_read (rules : ν → Rule ν) (depth : Nat) :
    ∀ name c row s row' s', read rules depth name c row s = .done row' s' →
      Reads rules (rules name) c row s row' s' := by
  -- a derivation has no depth: without any the reading fails
  induction depth with
  | zero =>
      intro name c row s row' s' h
      cases h
  | succ depth ih =>
      intro name c row s row' s' h
      exact reads_of_step ih _ _ _ _ _ _ h

end ImportSplit.Grammar
