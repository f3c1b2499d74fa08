/-
  ImportSplit.Proofs.Forward
  ────────────────────────────────
  **WHAT A RULE GIVES.**

  A rule gives certain parts at a text if it reads exactly these, whatever its
  row holds already (`Gives`), and it refuses a text if it never reads anything
  there (`Refuses`).  There is one lemma for each form of a rule, so that what a
  rule gives is put together as the rule is:

      r gives ps,  r' gives qs behind it   →   seq r r' gives ps ++ qs
      r refuses,   r' gives ps             →   either r r' gives ps

  A repetition is followed round after round (`GivesMany`).
-/
import ImportSplit.Proofs.Tokens

namespace ImportSplit.Grammar

variable {ν : Type} {next : ν → Context → List Part → List Char → Outcome} {kind : String}
  {lexeme : Lexeme} {r r' r'' : Rule ν} {rs : List (Rule ν)} {c : Context} {g : List Part}
  {ps qs : List Part} {s s' t rest : List Char}

/-! ## §1. Giving and refusing. -/

/-- The rule reads these parts, in order, and leaves `rest`. -/
def Gives (next : ν → Context → List Part → List Char → Outcome) (r : Rule ν) (c : Context)
    (s : List Char) (ps : List Part) (rest : List Char) : Prop :=
  ∀ row, step next r c row s = .done (ps.reverse ++ row) rest

/-- The rule does not fit here. -/
def Refuses (next : ν → Context → List Part → List Char → Outcome) (r : Rule ν) (c : Context)
    (s : List Char) : Prop :=
  ∀ row, step next r c row s = .refused

theorem gives_token (hgap : readGap false s [] s = (g, t ++ rest))
    (hsize : lexeme.size? (t ++ rest) = some t.length) :
    Gives next (Rule.token kind lexeme) c s (g.reverse ++ [.node (.leaf kind (String.ofList t))])
      rest := by
  intro row
  rw [step_token hgap hsize, List.reverse_append, List.reverse_reverse]
  rfl

theorem refuses_token (hgap : readGap false s [] s = (g, t)) (hsize : lexeme.size? t = none) :
    Refuses next (Rule.token kind lexeme) c s :=
  fun _ => step_token_refused hgap hsize

theorem gives_nothing : Gives next .nothing c s [] s := fun _ => rfl

theorem Gives.seq (h : Gives next r c s ps s') (h' : Gives next r' c s' qs rest) :
    Gives next (.seq r r') c s (ps ++ qs) rest := by
  intro row
  rw [step, h]
  simp only [h' (ps.reverse ++ row), List.reverse_append, List.append_assoc]

theorem Refuses.seq (h : Refuses next r c s) : Refuses next (.seq r r') c s := by
  intro row
  rw [step, h]

theorem Gives.row (h : Gives next r c s ps s') (h' : Gives next (Rule.row (r' :: rs)) c s' qs rest) :
    Gives next (Rule.row (r :: r' :: rs)) c s (ps ++ qs) rest :=
  h.seq h'

theorem Gives.last (h : Gives next r c s ps rest) : Gives next (Rule.row [r]) c s ps rest := h

theorem Refuses.row (h : Refuses next r c s) : Refuses next (Rule.row (r :: rs)) c s :=
  fun row => step_row_refused (h row)

/-- A row is refused where the rules behind its first one are. -/
theorem Gives.row_refuses (h : Gives next r c s ps s') (h' : Refuses next (Rule.row (r' :: rs)) c s') :
    Refuses next (Rule.row (r :: r' :: rs)) c s :=
  fun row => (step_row (h row)).trans (h' _)

theorem Gives.left (h : Gives next r c s ps rest) : Gives next (.either r r') c s ps rest := by
  intro row
  rw [step, h]

theorem Refuses.right (h : Refuses next r c s) (h' : Gives next r' c s ps rest) :
    Gives next (.either r r') c s ps rest := by
  intro row
  rw [step, h]
  exact h' row

theorem Refuses.either (h : Refuses next r c s) (h' : Refuses next r' c s) :
    Refuses next (.either r r') c s := by
  intro row
  rw [step, h]
  exact h' row

/-- What one of two rules gives, one of three gives, too. -/
theorem Gives.either_left (h : Gives next (.either r r') c s ps rest) :
    Gives next (.either r (.either r' r'')) c s ps rest := by
  intro row
  have hrow := h row
  rw [step] at hrow ⊢
  cases hr : step next r c row s with
  | done row' s' =>
      rw [hr] at hrow
      exact hrow
  | exhausted =>
      rw [hr] at hrow
      cases hrow
  | refused =>
      rw [hr] at hrow
      simp only at hrow ⊢
      rw [step, hrow]

theorem Refuses.oneOf {rs : List (Rule ν)} (h : ∀ r ∈ rs, Refuses next r c s) :
    Refuses next (Rule.oneOf rs) c s := by
  induction rs with
  | nil => exact fun _ => rfl
  | cons r rs ih =>
      have hrest := ih fun r hr => h r (List.mem_cons_of_mem _ hr)
      have hfirst := h r List.mem_cons_self
      cases rs with
      | nil => exact hfirst
      | cons r' rs => exact hfirst.either hrest

/-- Of several rules the first one that is not refused gives what it gives. -/
theorem Gives.oneOf {before after : List (Rule ν)} (hbefore : ∀ r ∈ before, Refuses next r c s)
    (h : Gives next r c s ps rest) : Gives next (Rule.oneOf (before ++ r :: after)) c s ps rest := by
  induction before with
  | nil =>
      cases after with
      | nil => exact h
      | cons r' after => exact h.left
  | cons r' before ih =>
      have hrest := ih fun r hr => hbefore r (List.mem_cons_of_mem _ hr)
      have hfirst := hbefore r' List.mem_cons_self
      cases before with
      | nil => exact hfirst.right hrest
      | cons r'' before => exact hfirst.right hrest

theorem Gives.opt (h : Gives next r c s ps rest) : Gives next (Rule.opt r) c s ps rest := h.left

theorem Refuses.opt (h : Refuses next r c s) : Gives next (Rule.opt r) c s [] s :=
  h.right gives_nothing

theorem Gives.within {f : Context → Context} (h : Gives next r (f c) s ps rest) :
    Gives next (.within f r) c s ps rest := h

theorem Gives.node (hgap : readGap false s [] s = (g, t)) (h : Gives next r c t ps rest) :
    Gives next (Rule.node kind r) c s (g.reverse ++ [.node (.build kind ps)]) rest := by
  intro row
  have hinner := h []
  rw [List.append_nil] at hinner
  rw [step_node hgap hinner, List.reverse_reverse, List.reverse_append, List.reverse_reverse]
  rfl

theorem Refuses.wrap (h : Refuses next r c s) : Refuses next (.wrap kind r) c s := by
  intro row
  rw [step, h]

/-- What stands in the row is folded with what the rule gives. -/
theorem Gives.step_wrap (h : Gives next r c s ps rest) (row : List Part) :
    step next (.wrap kind r) c row s = .done [.node (.build kind (row.reverse ++ ps))] rest := by
  rw [step, h]
  simp only [List.reverse_append, List.reverse_reverse]

/-- A fresh row is read behind the gap. -/
theorem gives_scope {row : List Part} (hgap : readGap false s [] s = (g, t))
    (h : step next r c [] t = .done row rest) :
    Gives next (.scope r) c s (g.reverse ++ row.reverse) rest := by
  intro row'
  rw [step, readGap_frame, hgap]
  simp only [h]
  rw [List.reverse_append, List.reverse_reverse, List.reverse_reverse, List.append_assoc]

theorem Gives.scope (hgap : readGap false s [] s = (g, t)) (h : Gives next r c t ps rest) :
    Gives next (.scope r) c s (g.reverse ++ ps) rest := by
  have hinner := h []
  rw [List.append_nil] at hinner
  have hscope := gives_scope hgap hinner
  rwa [List.reverse_reverse] at hscope

theorem Refuses.node (hgap : readGap false s [] s = (g, t)) (h : Refuses next r c t) :
    Refuses next (Rule.node kind r) c s :=
  fun _ => step_node_refused hgap (h [])

theorem Gives.typed (hc : c.dialect.hasTypes = true) (h : Gives next r c s ps rest) :
    Gives next (Rule.typed r) c s ps rest := by
  intro row
  simp only [Rule.typed, step, hc, if_true]
  exact h row

/-- No types where a dialect has none. -/
theorem refuses_typed (h : c.dialect.hasTypes = false) : Refuses next (Rule.typed r) c s := by
  intro row
  simp [Rule.typed, step, h]

theorem gives_ahead {row : List Part} (h : step next r c [] s = .done row rest) :
    Gives next (.ahead r) c s [] s := by
  intro row'
  rw [step, h]
  rfl

theorem Refuses.notAhead (h : Refuses next r c s) : Gives next (.notAhead r) c s [] s := by
  intro row
  rw [step, h]
  rfl

/-! ## §2. Repetitions. -/

/-- The rounds of a repetition read these parts, in order, and leave `rest`. -/
def GivesMany (next : ν → Context → List Part → List Char → Outcome) (r : Rule ν) (c : Context)
    (s : List Char) (ps : List Part) (rest : List Char) : Prop :=
  ∀ (budget : List Char) (row : List Part), s.length ≤ budget.length →
    repeatStep (step next r c) budget row s = .done (ps.reverse ++ row) rest

theorem Refuses.givesMany (h : Refuses next r c s) : GivesMany next r c s [] s := by
  intro budget row _
  cases budget with
  | nil => rfl
  | cons b budget =>
      rw [repeatStep, h]
      rfl

theorem Gives.again (h : Gives next r c s ps s') (hlt : s'.length < s.length)
    (hmore : GivesMany next r c s' qs rest) : GivesMany next r c s (ps ++ qs) rest := by
  intro budget row hbudget
  cases budget with
  | nil => exact absurd (Nat.lt_of_lt_of_le hlt hbudget) (Nat.not_lt_zero _)
  | cons b budget =>
      rw [List.length_cons] at hbudget
      rw [repeatStep, h]
      simp only
      rw [hmore budget _ (by omega), List.reverse_append, List.append_assoc]

theorem GivesMany.many (h : GivesMany next r c s ps rest) : Gives next (.many r) c s ps rest :=
  fun row => h s row (Nat.le_refl _)

/-- One round, and no more. -/
theorem step_many_once {row row' : List Part} (h : step next r c row s = .done row' s')
    (hlt : s'.length < s.length) (hstop : Refuses next r c s') :
    step next (.many r) c row s = .done row' s' := by
  cases s with
  | nil => exact absurd hlt (Nat.not_lt_zero _)
  | cons e s =>
      rw [List.length_cons, Nat.lt_succ_iff] at hlt
      rw [step, repeatStep, h]
      exact hstop.givesMany s row' hlt

/-! ## §3. Words. -/

/-- A word starts with no sign. -/
theorem IsWord.sign_size? (ht : IsWord t) {k : Char} (hk : isWordChar k = false)
    (hback : k ≠ '\\') (cs : List Char) (butNot : List (List Char)) :
    (Lexeme.sign (k :: cs) butNot).size? (t ++ rest) = none := by
  obtain ⟨e, he, hchar⟩ := ht.head?
  refine sign_size?_eq_none (e := e) (by rw [List.head?_append, he]; rfl) ?_
  rintro rfl
  rcases hchar with hchar | rfl
  · rw [hk] at hchar
    cases hchar
  · exact hback rfl

theorem gives_word {x : String} (hx : IsWord x.toList) (hrest : EndsWord rest)
    (hgap : readGap false s [] s = (g, x.toList ++ rest)) :
    Gives next (Rule.wordBut kind []) c s (g.reverse ++ [.node (.leaf kind x)]) rest := by
  have hgives : Gives next (Rule.wordBut kind []) c s
      (g.reverse ++ [.node (.leaf kind (String.ofList x.toList))]) rest :=
    gives_token hgap (name_size? [] hx hrest)
  rwa [String.ofList_toList] at hgives

theorem gives_keyword {w : String} (hw : IsWord w.toList) (hrest : EndsWord rest)
    (hgap : readGap false s [] s = (g, w.toList ++ rest)) :
    Gives next (Rule.keyword w) c s (g.reverse ++ [.node (.leaf w w)]) rest := by
  have hgives : Gives next (Rule.keyword w) c s
      (g.reverse ++ [.node (.leaf w (String.ofList w.toList))]) rest :=
    gives_token hgap ((keyword_size? hw hrest).trans (if_pos rfl))
  rwa [String.ofList_toList] at hgives

end ImportSplit.Grammar
