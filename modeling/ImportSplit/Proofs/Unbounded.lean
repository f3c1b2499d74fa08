/-
  ImportSplit.Proofs.Unbounded
  ────────────────────────────────
  **READING WITHOUT A DEPTH.**

  Every text has a depth of calls that is enough for it.  The reader that goes
  to that depth, each time a named rule is called, is never exhausted, and a
  call is read as the rule that it names:

      readDeep name  =  step readDeep (rule name)       (`readDeep_eq`)

  So a text can be followed through the grammar without counting calls, and what
  has no derivation is refused (`refuses_of_not_reads`).
-/
import ImportSplit.Proofs.Forward

namespace ImportSplit.Grammar

/-- Reads a named rule, as deep as the text needs. -/
def readDeep (name : Symbol) (c : Context) (row : List Part) (s : List Char) : Outcome :=
  read rule (depthFor s) name c row s

variable {name : Symbol} {r : ModuleRule} {c : Context} {row row' : List Part}
  {s s' rest : List Char} {ps : List Part}

theorem extends_readDeep (depth : Nat) : Extends (read rule depth) readDeep := by
  intro name c row s h
  have hdeep : read rule (depthFor s) name c row s ≠ .exhausted :=
    read_rule_ne_exhausted (lt_depthFor (Nat.le_refl _))
  rcases Nat.le_total depth (depthFor s) with hle | hle
  · exact extends_read hle name c row s h
  · exact (extends_read hle name c row s hdeep).symm

/-- Where all ranks are below `k`, no rule calls one of rank `k` or above. -/
theorem Rule.descends_of_rank_lt {ν : Type} {rank : ν → Nat} {k : Nat} (h : ∀ name, rank name < k)
    (r : Rule ν) : r.descends rank k = true := by
  induction r with
  | seq first second ih₁ ih₂ => simp [descends, ih₁, ih₂]
  | either first second ih₁ ih₂ => simp [descends, ih₁, ih₂]
  | call name => exact decide_eq_true (h name)
  | many r ih | scope r ih | wrap kind r ih | ahead r ih | notAhead r ih | within f r ih => exact ih
  | nothing | leaf | gap | ends | stays | holds | given => rfl

theorem step_depthFor_ne_exhausted : step (read rule (depthFor s)) r c row s ≠ .exhausted := by
  refine step_ne_exhausted Symbol.rank s.length 40 rule_solid ?_ r c row s
    (.inr ⟨Nat.le_refl _, Rule.descends_of_rank_lt Symbol.rank_lt r⟩)
  intro name c row t ht
  exact read_rule_ne_exhausted (lt_depthFor (ht.elim Nat.le_of_lt fun h => h.1))

theorem step_readDeep : step readDeep r c row s = step (read rule (depthFor s)) r c row s :=
  step_of_extends (extends_readDeep _) r c row s step_depthFor_ne_exhausted

/-- **A call is read as the rule that it names.** -/
theorem readDeep_eq : readDeep name c row s = step readDeep (rule name) c row s := by
  have hmore : 40 * s.length + name.rank < depthFor s + 1 :=
    Nat.lt_succ_of_lt (lt_depthFor (Nat.le_refl _))
  rw [step_readDeep, readDeep, read_rule_of_depth (lt_depthFor (Nat.le_refl _)) hmore]
  rfl

theorem reads_of_readDeep (h : step readDeep r c row s = .done row' s') :
    Reads rule r c row s row' s' := by
  rw [step_readDeep] at h
  exact reads_of_step (fun name => reads_of_read rule (depthFor s) name) _ _ _ _ _ _ h

/-- **What has no derivation is refused.** -/
theorem refuses_of_not_reads (h : ∀ row row' s', ¬ Reads rule r c row s row' s') :
    Refuses readDeep r c s := by
  intro row
  cases hout : step readDeep r c row s with
  | done row' s' => exact absurd (reads_of_readDeep hout) (h row row' s')
  | refused => rfl
  | exhausted =>
      rw [step_readDeep] at hout
      exact absurd hout step_depthFor_ne_exhausted

theorem Gives.call (name : Symbol) (h : Gives readDeep (rule name) c s ps rest) :
    Gives readDeep (.call name) c s ps rest := by
  intro row
  rw [step, readDeep_eq]
  exact h row

/-- A statement is read without a depth. -/
theorem readStatement_unbounded {d : Dialect} (hs : AtToken d s) :
    readStatement { dialect := d } s
      = step readDeep (.oneOf statementRules) { dialect := d } [] s := by
  have hmore : 40 * s.length + Symbol.statement.rank < depthFor s + 1 :=
    Nat.lt_succ_of_lt (lt_depthFor (Nat.le_refl _))
  rw [step_readDeep, readStatement_eq _ hs hmore]

end ImportSplit.Grammar
