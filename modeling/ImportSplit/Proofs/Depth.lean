/-
  ImportSplit.Proofs.Depth
  ────────────────────────────────
  **HOW DEEP CALLS NEST.**

  Named rules are read to a depth of calls, and a reading that uses the depth
  up is neither done nor refused.  Two facts make the depth a detail:

      a greater depth changes no outcome           (`step_of_extends`)
      some calls for each character are enough     (`read_ne_exhausted`)

  For the second the named rules are ranked.  Before a character is taken, a
  rule calls only rules of a lower rank (`Rule.descends`); so between two
  characters no more calls nest than there are ranks.  The depth to which a
  module is read is therefore never used up (`readModule_ne_exhausted`).
-/
import ImportSplit.Proofs.NodeRules

namespace ImportSplit.Grammar

variable {ν : Type}

/-! ## §1. A greater depth. -/

/-- The second reader agrees with the first wherever that one is not exhausted. -/
def Extends (next next' : ν → Context → List Part → List Char → Outcome) : Prop :=
  ∀ name c row s, next name c row s ≠ .exhausted → next' name c row s = next name c row s

theorem repeatStep_of_extends {f f' : List Part → List Char → Outcome}
    (hf : ∀ row s, f row s ≠ .exhausted → f' row s = f row s) (budget : List Char) :
    ∀ row s, repeatStep f budget row s ≠ .exhausted →
      repeatStep f' budget row s = repeatStep f budget row s := by
  induction budget with
  | nil => exact fun _ _ _ => rfl
  | cons b budget ih =>
      intro row s h
      unfold repeatStep at h ⊢
      have hfirst : f row s ≠ .exhausted := by
        intro hex
        rw [hex] at h
        exact h rfl
      rw [hf row s hfirst]
      cases hout : f row s with
      | done row₁ s₁ =>
          rw [hout] at h
          exact ih row₁ s₁ h
      | refused => rfl
      | exhausted => rfl

/-- **A reader that goes deeper changes no outcome.** -/
theorem step_of_extends {next next' : ν → Context → List Part → List Char → Outcome}
    (hnext : Extends next next') (r : Rule ν) :
    ∀ c row s, step next r c row s ≠ .exhausted → step next' r c row s = step next r c row s := by
  -- a rule is exhausted if the part that is read first is, so that part is not
  induction r with
  | nothing | leaf | gap | ends | stays | holds | given => exact fun _ _ _ _ => rfl
  | seq first second ih₁ ih₂ =>
      intro c row s h
      simp only [step] at h ⊢
      cases hfirst : step next first c row s with
      | done row₁ s₁ =>
          rw [ih₁ c row s (by rw [hfirst]; exact Outcome.noConfusion), hfirst]
          rw [hfirst] at h
          exact ih₂ c row₁ s₁ h
      | refused =>
          rw [ih₁ c row s (by rw [hfirst]; exact Outcome.noConfusion), hfirst]
      | exhausted =>
          rw [hfirst] at h
          exact absurd rfl h
  | either first second ih₁ ih₂ =>
      intro c row s h
      simp only [step] at h ⊢
      cases hfirst : step next first c row s with
      | done row₁ s₁ =>
          rw [ih₁ c row s (by rw [hfirst]; exact Outcome.noConfusion), hfirst]
      | refused =>
          rw [ih₁ c row s (by rw [hfirst]; exact Outcome.noConfusion), hfirst]
          rw [hfirst] at h
          exact ih₂ c row s h
      | exhausted =>
          rw [hfirst] at h
          exact absurd rfl h
  | many r ih =>
      intro c row s h
      exact repeatStep_of_extends (fun row s => ih c row s) s row s h
  | scope r ih =>
      intro c row s h
      simp only [step] at h ⊢
      have hinner : step next r c [] (readGap false s row s).2 ≠ .exhausted := by
        intro hex
        rw [hex] at h
        exact h rfl
      rw [ih c [] _ hinner]
  | wrap kind r ih =>
      intro c row s h
      simp only [step] at h ⊢
      have hinner : step next r c row s ≠ .exhausted := by
        intro hex
        rw [hex] at h
        exact h rfl
      rw [ih c row s hinner]
  | call name => exact fun c row s h => hnext name c row s h
  | ahead r ih | notAhead r ih =>
      intro c row s h
      simp only [step] at h ⊢
      have hinner : step next r c [] s ≠ .exhausted := by
        intro hex
        rw [hex] at h
        exact h rfl
      rw [ih c [] s hinner]
  | within f r ih => exact fun c row s h => ih (f c) row s h

theorem extends_read_succ (rules : ν → Rule ν) (depth : Nat) :
    Extends (read rules depth) (read rules (depth + 1)) := by
  induction depth with
  | zero => exact fun _ _ _ _ h => absurd rfl h
  | succ depth ih => exact fun name c row s h => step_of_extends ih (rules name) c row s h

theorem extends_read {rules : ν → Rule ν} {depth depth' : Nat} (h : depth ≤ depth') :
    Extends (read rules depth) (read rules depth') := by
  induction h with
  | refl => exact fun _ _ _ _ _ => rfl
  | @step depth' _ ih =>
      intro name c row s hread
      have hmiddle : read rules depth' name c row s = read rules depth name c row s :=
        ih name c row s hread
      rw [extends_read_succ rules depth' name c row s (by rwa [hmiddle]), hmiddle]

/-! ## §2. Enough depth. -/

/-- Before a character is taken, the rule calls only rules of rank below `k`. -/
def Rule.descends (rank : ν → Nat) (k : Nat) : Rule ν → Bool
  | seq first second => descends rank k first && (solid first || descends rank k second)
  | either first second => descends rank k first && descends rank k second
  | many r | scope r | wrap _ r | ahead r | notAhead r | within _ r => descends rank k r
  | call name => rank name < k
  | nothing | leaf .. | gap _ | ends _ | stays _ | holds _ | given _ => true

section
variable {rules : ν → Rule ν} {r : Rule ν} {depth : Nat} {c : Context} {row row' : List Part}
  {s s' : List Char}

/-- No more is left than there was. -/
theorem length_le_of_step (h : step (read rules depth) r c row s = .done row' s') :
    s'.length ≤ s.length := by
  have hreads : Reads rules r c row s row' s' :=
    reads_of_step (fun name => reads_of_read rules depth name) _ _ _ _ _ _ h
  obtain ⟨t, hs, -⟩ := hreads.consumes
  rw [hs, List.length_append]
  exact Nat.le_add_left _ _

/-- A solid rule leaves less. -/
theorem length_lt_of_step (hsolid : ∀ name, (rules name).solid = true) (hr : r.solid = true)
    (h : step (read rules depth) r c row s = .done row' s') : s'.length < s.length := by
  have hreads : Reads rules r c row s row' s' :=
    reads_of_step (fun name => reads_of_read rules depth name) _ _ _ _ _ _ h
  exact hreads.solid hsolid hr

theorem length_readGap_le (m : Bool) (s : List Char) (row : List Part) :
    (readGap m s row s).2.length ≤ s.length := by
  rw [readGap_frame]
  have htext : s = rowText (readGap m s [] s).1 ++ (readGap m s [] s).2 := rowText_readGap m s s
  have hlength := congrArg List.length htext
  rw [List.length_append] at hlength
  show (readGap m s [] s).2.length ≤ s.length
  omega

/-- **A rule is not exhausted where its calls are not**: those behind a character,
and before one those of rank below `k`. -/
theorem step_ne_exhausted (rank : ν → Nat) (n k : Nat)
    (hsolid : ∀ name, (rules name).solid = true)
    (hcalls : ∀ name c row s, s.length < n ∨ s.length ≤ n ∧ rank name < k →
      read rules depth name c row s ≠ .exhausted)
    (r : Rule ν) :
    ∀ c row s, s.length < n ∨ s.length ≤ n ∧ r.descends rank k = true →
      step (read rules depth) r c row s ≠ .exhausted := by
  induction r with
  | nothing | gap =>
      intro c row s _ hex
      cases hex
  | leaf | ends | stays | holds | given =>
      intro c row s _ hex
      simp only [step] at hex
      repeat' split at hex
      all_goals cases hex
  | seq first second ih₁ ih₂ =>
      intro c row s hs hex
      have hfirst : s.length < n ∨ s.length ≤ n ∧ first.descends rank k = true :=
        hs.imp_right fun h => ⟨h.1, (Bool.and_eq_true _ _ ▸ h.2).1⟩
      simp only [step] at hex
      cases hout : step (read rules depth) first c row s with
      | done row₁ s₁ =>
          rw [hout] at hex
          refine ih₂ c row₁ s₁ ?_ hex
          -- the second rule stands behind a character, or calls what the row may call
          have hle := length_le_of_step hout
          rcases hs with hs | ⟨hs, hdescends⟩
          · exact .inl (by omega)
          · rcases Bool.or_eq_true _ _ ▸ (Bool.and_eq_true _ _ ▸ hdescends).2 with hr | hr
            · have hlt := length_lt_of_step hsolid hr hout
              exact .inl (by omega)
            · exact .inr ⟨by omega, hr⟩
      | refused =>
          rw [hout] at hex
          cases hex
      | exhausted => exact ih₁ c row s hfirst hout
  | either first second ih₁ ih₂ =>
      intro c row s hs hex
      have hfirst : s.length < n ∨ s.length ≤ n ∧ first.descends rank k = true :=
        hs.imp_right fun h => ⟨h.1, (Bool.and_eq_true _ _ ▸ h.2).1⟩
      have hsecond : s.length < n ∨ s.length ≤ n ∧ second.descends rank k = true :=
        hs.imp_right fun h => ⟨h.1, (Bool.and_eq_true _ _ ▸ h.2).2⟩
      simp only [step] at hex
      cases hout : step (read rules depth) first c row s with
      | done row₁ s₁ =>
          rw [hout] at hex
          cases hex
      | refused =>
          rw [hout] at hex
          exact ih₂ c row s hsecond hex
      | exhausted => exact ih₁ c row s hfirst hout
  | many r ih =>
      intro c row s hs
      -- each round has no more text than the one before it
      have hround : ∀ (budget : List Char) (row : List Part) (t : List Char),
          t.length ≤ s.length →
            repeatStep (step (read rules depth) r c) budget row t ≠ .exhausted := by
        intro budget
        induction budget with
        | nil =>
            intro row t _ hex
            cases hex
        | cons b budget ihBudget =>
            intro row t ht hex
            unfold repeatStep at hex
            cases hout : step (read rules depth) r c row t with
            | done row₁ t₁ =>
                rw [hout] at hex
                exact ihBudget row₁ t₁ (Nat.le_trans (length_le_of_step hout) ht) hex
            | refused =>
                rw [hout] at hex
                cases hex
            | exhausted =>
                refine ih c row t ?_ hout
                exact hs.imp (Nat.lt_of_le_of_lt ht) fun h => ⟨Nat.le_trans ht h.1, h.2⟩
      exact hround s row s (Nat.le_refl _)
  | scope r ih =>
      intro c row s hs hex
      have hgap := length_readGap_le false s row
      have hinner := ih c [] (readGap false s row s).2
        (hs.imp (Nat.lt_of_le_of_lt hgap) fun h => ⟨Nat.le_trans hgap h.1, h.2⟩)
      simp only [step] at hex
      split at hex
      · cases hex
      · cases hex
      · next hout => exact hinner hout
  | wrap kind r ih =>
      intro c row s hs hex
      simp only [step] at hex
      split at hex
      · cases hex
      · cases hex
      · next hout => exact ih c row s hs hout
  | call name =>
      intro c row s hs
      exact hcalls name c row s (hs.imp_right fun h => ⟨h.1, of_decide_eq_true h.2⟩)
  | ahead r ih | notAhead r ih =>
      intro c row s hs hex
      simp only [step] at hex
      split at hex
      · cases hex
      · cases hex
      · next hout => exact ih c [] s hs hout
  | within f r ih => exact fun c row s hs => ih (f c) row s hs

/-- **Named rules that are ranked are never exhausted**, if there are `width`
calls for each character and one for each rank. -/
theorem read_ne_exhausted {rank : ν → Nat} {width : Nat}
    (hsolid : ∀ name, (rules name).solid = true)
    (hdescends : ∀ name, (rules name).descends rank (rank name) = true)
    (hrank : ∀ name, rank name < width) :
    ∀ depth name c row s, width * s.length + rank name < depth →
      read rules depth name c row s ≠ .exhausted := by
  intro depth
  induction depth with
  | zero => exact fun _ _ _ _ h => absurd h (Nat.not_lt_zero _)
  | succ depth ih =>
      intro name c row s h
      refine step_ne_exhausted rank s.length (rank name) hsolid ?_ (rules name) c row s
        (.inr ⟨Nat.le_refl _, hdescends name⟩)
      intro name' c' row' t ht
      apply ih
      rcases ht with ht | ⟨ht, hlower⟩
      · -- behind a character there are `width` calls more
        have hmore : width * (t.length + 1) ≤ width * s.length := Nat.mul_le_mul_left _ ht
        have hname := hrank name'
        rw [Nat.mul_succ] at hmore
        omega
      · have hsame : width * t.length ≤ width * s.length := Nat.mul_le_mul_left _ ht
        omega

end

/-! ## §3. The rules of a module. -/

/-- The rank of a named rule. -/
def Symbol.rank : Symbol → Nat
  | .statement => 5
  | .expressions => 4
  | .expression => 3
  | .operand | .type => 2
  | .chain | .typeOperand => 1
  | .block | .declarators | .arguments | .object | .template | .element | .pattern
  | .parameters | .classBody | .typeArguments | .typeParameters | .objectType => 0

theorem rule_descends (name : Symbol) : (rule name).descends Symbol.rank name.rank = true := by
  cases name <;> decide +kernel

theorem Symbol.rank_lt (name : Symbol) : name.rank < 40 := by
  cases name <;> decide

section
variable {name : Symbol} {c : Context} {row : List Part} {s : List Char} {depth depth' : Nat}

theorem read_rule_ne_exhausted (h : 40 * s.length + name.rank < depth) :
    read rule depth name c row s ≠ .exhausted :=
  read_ne_exhausted rule_solid rule_descends Symbol.rank_lt depth name c row s h

/-- Where the depth is enough it does not matter. -/
theorem read_rule_of_depth (h : 40 * s.length + name.rank < depth)
    (h' : 40 * s.length + name.rank < depth') :
    read rule depth name c row s = read rule depth' name c row s := by
  rcases Nat.le_total depth depth' with hle | hle
  · exact (extends_read hle name c row s (read_rule_ne_exhausted h)).symm
  · exact extends_read hle name c row s (read_rule_ne_exhausted h')

/-- The depth for a text is enough for every part of it. -/
theorem lt_depthFor {t : List Char} (h : t.length ≤ s.length) :
    40 * t.length + name.rank < depthFor s := by
  have hrank := name.rank_lt
  have hle : 40 * t.length ≤ 40 * s.length := Nat.mul_le_mul_left _ h
  unfold depthFor
  omega

theorem wholeModule_descends : wholeModule.descends Symbol.rank 40 = true := by decide +kernel

/-- **The depth to which a module is read is never used up.** -/
theorem readModule_ne_exhausted (d : Dialect) (s : List Char) : readModule d s ≠ .exhausted := by
  refine step_ne_exhausted Symbol.rank s.length 40 rule_solid ?_ wholeModule _ _ _
    (.inr ⟨Nat.le_refl _, wholeModule_descends⟩)
  intro name c row t ht
  exact read_rule_ne_exhausted (lt_depthFor (ht.elim Nat.le_of_lt fun h => h.1))

end

end ImportSplit.Grammar
