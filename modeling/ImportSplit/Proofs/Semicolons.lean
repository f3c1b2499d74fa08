/-
  ImportSplit.Proofs.Semicolons
  ────────────────────────────────
  **ONE SEMICOLON TO A STATEMENT.**

  An expression statement has at most one semicolon among its nodes, the one at
  its end (`Grammar.ReadAt.semicolons_le`).  The rule of an expression makes no
  semicolon outside of the nodes that it folds: that is a check on rules
  (`Rule.sparesSemicolons`), and what passes it leaves the semicolons of a row
  as many as they were, by induction on derivations.

      expression_statement  =  expressions  (end | `;`)
-/
import ImportSplit.Proofs.Tokens

namespace ImportSplit

/-- How many of the parts are a semicolon. -/
def Part.semicolons (ps : List Part) : Nat := (Part.nodes ps).countP (Node.isToken ";")

theorem Part.semicolons_append (ps qs : List Part) :
    Part.semicolons (ps ++ qs) = Part.semicolons ps + Part.semicolons qs := by
  unfold Part.semicolons Part.nodes
  rw [List.filterMap_append, List.countP_append]

theorem Part.semicolons_reverse (ps : List Part) :
    Part.semicolons ps.reverse = Part.semicolons ps := by
  unfold Part.semicolons Part.nodes
  rw [List.filterMap_reverse, List.countP_reverse]

namespace Grammar

/-! ## §1. Rules without a semicolon. -/

/-- A token of this form is another than a semicolon. -/
def Lexeme.isNoSemicolon : Lexeme → Bool
  | .keyword cs | .sign cs _ => cs ≠ [';']
  | .name _ | .privateName | .number | .string | .regex => true
  | _ => false

namespace Rule

variable {ν : Type}

/-- The rule puts no semicolon into the row, if the calls in `calls` do not. -/
def sparesSemicolons (calls : ν → Bool) : Rule ν → Bool
  | leaf kind lexeme => kind == "identifier" || lexeme.isNoSemicolon
  | seq first second | either first second =>
      sparesSemicolons calls first && sparesSemicolons calls second
  | many r | scope r | within _ r => sparesSemicolons calls r
  | call name => calls name
  | _ => true

end Rule

variable {ν : Type} {rules : ν → Rule ν} {r : Rule ν} {c : Context} {row row' : List Part}
  {s s' : List Char}

theorem take_ne_semicolon {lexeme : Lexeme} {n : Nat} (hlexeme : lexeme.isNoSemicolon = true)
    (hsize : lexeme.size? s = some n) : s.take n ≠ [';'] := by
  -- no scanner accepts a semicolon, and a fixed text is another one
  have hscanner : ∀ {σ : Type} (m : Scanner σ), m.run m.start [';'] = none →
      m.longest? s = some n → s.take n ≠ [';'] := by
    intro σ m hnone hlongest htake
    obtain ⟨-, state, hrun, -⟩ := Scanner.run_of_longest? hlongest
    rw [htake, hnone] at hrun
    cases hrun
  cases lexeme with
  | keyword w =>
      simp only [Lexeme.size?] at hsize
      split at hsize
      · next hword =>
          split at hsize
          · split at hsize
            · next hn =>
                cases hsize
                obtain ⟨t, rfl⟩ := List.isPrefixOf_iff_prefix.1 hword
                rw [eq_of_beq hn, List.take_left]
                exact of_decide_eq_true hlexeme
            · cases hsize
          · cases hsize
      · cases hsize
  | sign cs butNot =>
      simp only [Lexeme.size?] at hsize
      split at hsize
      · next hsign =>
          cases hsize
          obtain ⟨t, rfl⟩ := List.isPrefixOf_iff_prefix.1 (Bool.and_eq_true _ _ ▸ hsign).1
          rw [List.take_left]
          exact of_decide_eq_true hlexeme
      · cases hsize
  | name besides =>
      intro htake
      have hword := isWord_of_name hsize
      rw [htake] at hword
      cases hword
  | privateName => exact hscanner privateName rfl hsize
  | number => exact hscanner number rfl hsize
  | regex => exact hscanner regex rfl hsize
  | string =>
      intro htake
      obtain ⟨k, hk, hmem⟩ := head?_of_string hsize
      rw [htake] at hk
      obtain rfl : ';' = k := Option.some.inj hk
      exact absurd hmem (by decide)
  | _ => cases hlexeme

theorem semicolons_cons (n : Node) (row : List Part) :
    Part.semicolons (.node n :: row)
      = Part.semicolons row + if n.isToken ";" = true then 1 else 0 :=
  List.countP_cons

/-- A gap holds no semicolon. -/
theorem semicolons_of_isGap {ps : List Part} (hps : ∀ p ∈ ps, p.IsGap) : Part.semicolons ps = 0 := by
  refine List.countP_eq_zero.2 fun n hn => ?_
  obtain ⟨p, hp, hpn⟩ := List.mem_filterMap.1 hn
  have hgap : p.IsGap := hps p hp
  cases p with
  | text t => cases hpn
  | node m =>
      cases hpn
      cases n with
      | token kind t =>
          -- a comment starts with its sign
          intro hsemicolon
          obtain rfl : t = ";" := eq_of_beq hsemicolon
          rcases hgap.1 with rfl | rfl <;> obtain ⟨k, hk, hmem⟩ := hgap.2 (by decide)
          all_goals
            obtain rfl : ';' = k := Option.some.inj hk
            exact absurd hmem (by decide)
      | _ => cases hgap

theorem semicolons_gap_append {g : List Part} (hg : ∀ p ∈ g, p.IsGap) (row : List Part) :
    Part.semicolons (g ++ row) = Part.semicolons row := by
  rw [Part.semicolons_append, semicolons_of_isGap hg, Nat.zero_add]

/-- **A rule without semicolons puts none into the row.** -/
theorem Reads.semicolons_le {calls : ν → Bool}
    (hcalls : ∀ name, calls name = true → (rules name).sparesSemicolons calls = true)
    (h : Reads rules r c row s row' s') (hr : r.sparesSemicolons calls = true) :
    Part.semicolons row' ≤ Part.semicolons row := by
  induction h with
  | nothing | stays | stop | ahead | notAhead | holds | given => exact Nat.le_refl _
  | @leaf c row s kind lexeme n hsize =>
      have hnone : (Node.leaf kind (String.ofList (s.take n))).isToken ";" = false := by
        unfold Node.leaf
        split
        · rfl
        · next hkind =>
            refine beq_eq_false_iff_ne.2 fun htext => ?_
            rw [Rule.sparesSemicolons, beq_eq_false_iff_ne.2 hkind, Bool.false_or] at hr
            refine take_ne_semicolon hr hsize ?_
            rw [← String.toList_ofList (l := s.take n), htext]
            rfl
      rw [semicolons_cons, hnone]
      exact Nat.le_refl _
  | gap | ends => exact Nat.le_of_eq (semicolons_gap_append isGap_of_readGap _)
  | seq _ _ ih₁ ih₂ =>
      obtain ⟨hfirst, hsecond⟩ := Bool.and_eq_true _ _ ▸ hr
      exact Nat.le_trans (ih₂ hsecond) (ih₁ hfirst)
  | left _ ih => exact ih (Bool.and_eq_true _ _ ▸ hr).1
  | right _ ih => exact ih (Bool.and_eq_true _ _ ▸ hr).2
  | again _ _ ih₁ ih₂ => exact Nat.le_trans (ih₂ hr) (ih₁ hr)
  | scope _ ih =>
      have hinner := ih hr
      rw [Part.semicolons_append, semicolons_gap_append isGap_of_readGap]
      have hnil : Part.semicolons [] = 0 := rfl
      omega
  | wrap _ ih =>
      -- whatever was folded, the node is no semicolon itself
      rw [semicolons_cons, isToken_build]
      exact Nat.zero_le _
  | call _ ih => exact ih (hcalls _ hr)
  | within _ ih => exact ih hr

/-- The end of a statement is at most one semicolon. -/
theorem Reads.semicolons_le_of_semicolon {operators : Bool}
    (h : Reads rules (Rule.semicolon operators) c row s row' s') :
    Part.semicolons row' ≤ Part.semicolons row + 1 := by
  cases h with
  | left hends =>
      have hcalls : ∀ name : ν, (fun _ => false) name = true →
          (rules name).sparesSemicolons (fun _ => false) = true := fun _ hname => by cases hname
      exact Nat.le_succ_of_le (hends.semicolons_le hcalls rfl)
  | right hsign =>
      obtain ⟨n, -, rfl, -⟩ := reads_token hsign rfl
      rw [semicolons_cons, semicolons_gap_append isGap_of_readGap]
      split <;> omega

/-! ## §2. Expression statements. -/

/-- The rules that may end a statement. -/
def endsStatements : Symbol → Bool
  | .statement | .declarators => true
  | _ => false

theorem rule_sparesSemicolons (name : Symbol) (hname : (!endsStatements name) = true) :
    (rule name).sparesSemicolons (fun name => !endsStatements name) = true := by
  revert hname
  cases name <;> decide +kernel

/-- Of the rules of statements two read an expression statement, and both put a
semicolon behind what has none. -/
theorem one_or_of_mem_statementRules {r : ModuleRule} (hr : r ∈ statementRules) :
    r = Rule.node "expression_statement"
          (Rule.row [Rule.typed internalModule, Rule.semicolon true])
      ∨ r = expressionStatement
      ∨ r.one (· = .block) (· ≠ "expression_statement") = true := by
  have hsplit : statementRules = statementRules.take 18
      ++ [Rule.node "expression_statement"
          (Rule.row [Rule.typed internalModule, Rule.semicolon true]),
        declaration true, expressionStatement] := rfl
  have hothers : (statementRules.take 18 ++ [declaration true]).all
      (Rule.one (· = .block) (· ≠ "expression_statement")) = true := by decide +kernel
  rw [hsplit, List.mem_append, List.mem_cons, List.mem_cons, List.mem_singleton] at hr
  rcases hr with hr | rfl | rfl | rfl
  · exact .inr (.inr (List.all_eq_true.1 hothers r (List.mem_append_left _ hr)))
  · exact .inl rfl
  · exact .inr (.inr (List.all_eq_true.1 hothers _
      (List.mem_append_right _ List.mem_cons_self)))
  · exact .inr (.inl rfl)

/-- Behind a rule without semicolons the end of a statement is the only one. -/
theorem semicolons_le_of_reads {before : ModuleRule} {inner : List Part}
    (hbefore : before.sparesSemicolons (fun name => !endsStatements name) = true)
    (h : Reads rule (Rule.row [before, Rule.semicolon true]) c [] s inner s') :
    Part.semicolons inner ≤ 1 := by
  obtain ⟨row₁, s₁, hfirst, hsecond⟩ := reads_row h
  have hnone : Part.semicolons row₁ ≤ 0 := hfirst.semicolons_le rule_sparesSemicolons hbefore
  have hone : Part.semicolons inner ≤ Part.semicolons row₁ + 1 :=
    hsecond.semicolons_le_of_semicolon
  omega

/-- **An expression statement has at most one semicolon.** -/
theorem ReadAt.semicolons_le {d : Dialect} {parts : List Part}
    (h : ReadAt d s (.construct "expression_statement" parts)) : Part.semicolons parts ≤ 1 := by
  rcases h.reads_rule with ⟨kind, text, htoken⟩ | ⟨hat, r, hr, row, tail, s', hread⟩
  · cases htoken
  rcases one_or_of_mem_statementRules hr with rfl | rfl | hone
  · obtain ⟨inner, hinner, hbuild⟩ := build_of_reads_node hat hread
    obtain ⟨-, rfl⟩ := Node.construct.inj hbuild
    rw [Part.semicolons_reverse]
    exact semicolons_le_of_reads (by decide +kernel) hinner
  · obtain ⟨inner, hinner, hbuild⟩ := build_of_reads_node hat hread
    obtain ⟨-, rfl⟩ := Node.construct.inj hbuild
    rw [Part.semicolons_reverse]
    -- what the rule asks before the expression takes nothing
    obtain ⟨row₁, s₁, hnot, hrest⟩ := reads_row hinner
    cases hnot with
    | notAhead => exact semicolons_le_of_reads rfl hrest
  · have hkind := kind_of_reads_one rfl hone hat hread
    exact absurd rfl (of_decide_eq_true hkind)

end Grammar

end ImportSplit
