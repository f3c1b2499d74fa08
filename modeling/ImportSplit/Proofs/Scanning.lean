/-
  ImportSplit.Proofs.Scanning
  ────────────────────────────────
  **WHAT A SCANNER TAKES.**

  `m.run s t` is the state behind a text.  A longest match is a run that ends
  in an accepting state (`run_of_longest?`), and a run that ends where nothing
  goes on is the longest match (`longest?_append`).

  Two kinds of token are followed up: words, which are found again in front of
  anything that does not go on with them (§2), and the literals that `quote`
  writes, which are strings whatever they hold (§3).
-/
import ImportSplit.Grammar.Lexeme
import ImportSplit.Proofs.Quoting

namespace ImportSplit.Grammar

/-! ## §1. Runs. -/

namespace Scanner

variable {σ : Type} {m : Scanner σ}

/-- The state behind a text, if every character of it has a move. -/
def run (m : Scanner σ) : σ → List Char → Option σ
  | s, [] => some s
  | s, c :: rest =>
      match m.move s c with
      | some s' => run m s' rest
      | none => none

theorem run_cons {s s' : σ} {c : Char} (h : m.move s c = some s') (rest : List Char) :
    m.run s (c :: rest) = m.run s' rest := by
  simp only [run, h]

/-- No match goes on behind the state. -/
def Stops (m : Scanner σ) (s : σ) (rest : List Char) : Prop :=
  ∀ c ∈ rest.head?, m.move s c = none

theorem run_append (s : σ) (t u : List Char) :
    m.run s (t ++ u) = (m.run s t).bind (m.run · u) := by
  induction t generalizing s with
  | nil => rfl
  | cons c t ih =>
      show (match m.move s c with | some s' => m.run s' (t ++ u) | none => none)
        = (match m.move s c with | some s' => m.run s' t | none => none).bind (m.run · u)
      cases m.move s c with
      | none => rfl
      | some s' => exact ih s'

theorem longestFrom_append {s s' : σ} {t rest : List Char} (hrun : m.run s t = some s')
    (hacc : m.accepts s' = true) (hstop : m.Stops s' rest) (read : Nat) (best : Option Nat) :
    m.longestFrom s read best (t ++ rest) = some (read + t.length) := by
  induction t generalizing s read best with
  | nil =>
      obtain rfl : s = s' := Option.some.inj hrun
      -- the state accepts, and nothing goes on behind it
      show m.longestFrom s read best rest = some read
      cases rest with
      | nil =>
          unfold longestFrom
          rw [if_pos hacc]
      | cons c rest =>
          have hmove : m.move s c = none := hstop c rfl
          unfold longestFrom
          simp only [hmove, hacc, if_true]
  | cons c t ih =>
      unfold run at hrun
      cases hmove : m.move s c with
      | none => simp [hmove] at hrun
      | some s₁ =>
          rw [hmove] at hrun
          show m.longestFrom s read best (c :: (t ++ rest)) = some (read + (t.length + 1))
          unfold longestFrom
          simp only [hmove]
          rw [ih hrun]
          congr 1
          omega

/-- **A text that a scanner accepts is its longest match where it stops.** -/
theorem longest?_append {s : σ} {t rest : List Char} (hrun : m.run m.start t = some s)
    (hacc : m.accepts s = true) (hstop : m.Stops s rest) :
    m.longest? (t ++ rest) = some t.length := by
  have h := longestFrom_append hrun hacc hstop 0 none
  rwa [Nat.zero_add] at h

theorem run_of_longestFrom (text : List Char) :
    ∀ {s : σ} {read n : Nat} {best : Option Nat}, m.longestFrom s read best text = some n →
      best = some n ∨ ∃ k s', n = read + k ∧ k ≤ text.length
        ∧ m.run s (text.take k) = some s' ∧ m.accepts s' = true := by
  induction text with
  | nil =>
      intro s read n best h
      unfold longestFrom at h
      by_cases hacc : m.accepts s = true
      · rw [if_pos hacc] at h
        cases h
        exact .inr ⟨0, s, rfl, Nat.le_refl _, rfl, hacc⟩
      · rw [if_neg hacc] at h
        exact .inl h
  | cons c text ih =>
      intro s read n best h
      -- the best match so far is the one before, or the empty one from here
      have hbest : (if m.accepts s = true then some read else best) = some n →
          best = some n ∨ ∃ k s', n = read + k ∧ k ≤ (c :: text).length
            ∧ m.run s ((c :: text).take k) = some s' ∧ m.accepts s' = true := by
        intro hb
        by_cases hacc : m.accepts s = true
        · rw [if_pos hacc] at hb
          cases hb
          exact .inr ⟨0, s, rfl, Nat.zero_le _, rfl, hacc⟩
        · rw [if_neg hacc] at hb
          exact .inl hb
      unfold longestFrom at h
      cases hmove : m.move s c with
      | none =>
          simp only [hmove] at h
          exact hbest h
      | some s₁ =>
          simp only [hmove] at h
          rcases ih h with hb | ⟨k, s', hn, hk, hrun, hacc⟩
          · exact hbest hb
          · refine .inr ⟨k + 1, s', by omega, Nat.succ_le_succ hk, ?_, hacc⟩
            show m.run s (c :: text.take k) = some s'
            unfold run
            rw [hmove]
            exact hrun

/-- **A longest match is accepted.** -/
theorem run_of_longest? {text : List Char} {n : Nat} (h : m.longest? text = some n) :
    n ≤ text.length ∧ ∃ s, m.run m.start (text.take n) = some s ∧ m.accepts s = true := by
  rcases run_of_longestFrom text h with hb | ⟨k, s, hn, hk, hrun, hacc⟩
  · cases hb
  · obtain rfl : n = k := by omega
    exact ⟨hk, s, hrun, hacc⟩

theorem longestFrom_take (text : List Char) :
    ∀ {s : σ} {read n k : Nat} {best : Option Nat}, m.longestFrom s read best text = some n →
      n ≤ read + k → m.longestFrom s read best (text.take k) = some n := by
  induction text with
  | nil =>
      intro s read n k best h _
      rwa [List.take_nil]
  | cons c text ih =>
      intro s read n k best h hn
      unfold longestFrom at h
      cases k with
      | zero =>
          -- a match that goes on is longer
          show (if m.accepts s = true then some read else best) = some n
          cases hmove : m.move s c with
          | none => simpa only [hmove] using h
          | some s₁ =>
              simp only [hmove] at h
              rcases run_of_longestFrom text h with hb | ⟨k, s', hk, -⟩
              · exact hb
              · omega
      | succ k =>
          rw [List.take_succ_cons]
          unfold longestFrom
          cases hmove : m.move s c with
          | none => simpa only [hmove] using h
          | some s₁ =>
              simp only [hmove] at h ⊢
              exact ih h (by omega)

/-- **A longest match is found again where the text is cut off behind it.** -/
theorem longest?_take {text : List Char} {n k : Nat} (h : m.longest? text = some n) (hn : n ≤ k) :
    m.longest? (text.take k) = some n :=
  longestFrom_take text h (by omega)

end Scanner

/-! ## §2. Words. -/

/-- The text is one word. -/
def IsWord (t : List Char) : Prop := word.run .start t = some .inside

instance (t : List Char) : Decidable (IsWord t) :=
  inferInstanceAs (Decidable (word.run .start t = some .inside))

/-- The text does not start with a character that a word could go on with. -/
def EndsWord (rest : List Char) : Prop :=
  ∀ c ∈ rest.head?, isWordChar c = false ∧ c ≠ '\\'

theorem EndsWord.stops {rest : List Char} (h : EndsWord rest) : word.Stops .inside rest := by
  intro c hc
  obtain ⟨hword, hback⟩ := h c hc
  show (if isWordChar c = true then some WordState.inside
    else if (c == '\\') = true then some .backslash else none) = none
  simp [hword, hback]

/-- A word is found in front of anything that does not go on with it. -/
theorem IsWord.longest? {t rest : List Char} (h : IsWord t) (hrest : EndsWord rest) :
    word.longest? (t ++ rest) = some t.length :=
  Scanner.longest?_append h rfl hrest.stops

/-- What is found as a word is one. -/
theorem isWord_of_longest? {s : List Char} {n : Nat} (h : word.longest? s = some n) :
    n ≤ s.length ∧ IsWord (s.take n) := by
  obtain ⟨hn, state, hrun, hacc⟩ := Scanner.run_of_longest? h
  have hstate : state = .inside := eq_of_beq hacc
  rw [hstate] at hrun
  exact ⟨hn, hrun⟩

/-- The characters that words are made of, those of escapes included. -/
def isWordPiece (c : Char) : Bool :=
  isWordChar c || c == '\\' || c == '\x7b' || c == '\x7d'

/-- The digits and letters of ASCII are characters of words. -/
theorem isWordChar_of_ascii {c : Char}
    (h : ('0' ≤ c ∧ c ≤ '9') ∨ ('a' ≤ c ∧ c ≤ 'z') ∨ ('A' ≤ c ∧ c ≤ 'Z')) :
    isWordChar c = true := by
  -- as codes: the three ranges lie below 128
  simp only [Char.le_def, UInt32.le_iff_toNat_le] at h
  have hsmall : c.toNat < 128 := by
    rcases h with h | h | h <;> simp at h <;> omega
  unfold isWordChar
  rw [if_pos hsmall]
  have halpha : c.isAlphanum = true := by
    show ((decide ('A'.val ≤ c.val ∧ c.val ≤ 'Z'.val)
      || decide ('a'.val ≤ c.val) && decide (c.val ≤ 'z'.val))
      || decide ('0'.val ≤ c.val) && decide (c.val ≤ '9'.val)) = true
    simp only [Bool.or_eq_true, Bool.and_eq_true, decide_eq_true_eq, UInt32.le_iff_toNat_le]
    simp at h ⊢
    omega
  rw [halpha]
  rfl

/-- A hexadecimal digit is a character of words. -/
theorem isWordChar_of_isHex {c : Char} (h : isHex c = true) : isWordChar c = true := by
  unfold isHex Text.hexValue? at h
  by_cases h₁ : '0' ≤ c ∧ c ≤ '9'
  · exact isWordChar_of_ascii (.inl h₁)
  · by_cases h₂ : 'a' ≤ c ∧ c ≤ 'f'
    · exact isWordChar_of_ascii (.inr (.inl ⟨h₂.1, Char.le_trans h₂.2 (by decide)⟩))
    · by_cases h₃ : 'A' ≤ c ∧ c ≤ 'F'
      · exact isWordChar_of_ascii (.inr (.inr ⟨h₃.1, Char.le_trans h₃.2 (by decide)⟩))
      · simp [h₁, h₂, h₃] at h

theorem isWordPiece_of_move {s s' : WordState} {c : Char} (h : word.move s c = some s') :
    isWordPiece c = true := by
  have hchar : isWordChar c = true → isWordPiece c = true := by
    intro hc
    unfold isWordPiece
    rw [hc]
    rfl
  have hsign : ∀ d : Char, isWordPiece d = true → (c == d) = true → isWordPiece c = true := by
    intro d hd hcd
    rw [eq_of_beq hcd]
    exact hd
  cases s with
  | start =>
      simp only [word] at h
      by_cases hc : (c == '\\') = true
      · exact hsign '\\' rfl hc
      · simp [hc] at h
        exact hchar h.1.1
  | inside =>
      simp only [word] at h
      by_cases hc : isWordChar c = true
      · exact hchar hc
      · by_cases hb : (c == '\\') = true
        · exact hsign '\\' rfl hb
        · simp [hc, hb] at h
  | backslash =>
      simp only [word] at h
      by_cases hc : (c == 'u') = true
      · exact hsign 'u' rfl hc
      · simp [hc] at h
  | letter =>
      simp only [word] at h
      by_cases hc : (c == '\x7b') = true
      · exact hsign '\x7b' rfl hc
      · by_cases hx : isHex c = true
        · exact hchar (isWordChar_of_isHex hx)
        · simp [hc, hx] at h
  | digits | brace =>
      simp only [word] at h
      by_cases hx : isHex c = true
      · exact hchar (isWordChar_of_isHex hx)
      · simp [hx] at h
  | braced =>
      simp only [word] at h
      by_cases hx : isHex c = true
      · exact hchar (isWordChar_of_isHex hx)
      · by_cases hc : (c == '\x7d') = true
        · exact hsign '\x7d' rfl hc
        · simp [hx, hc] at h

/-- A word is made of such characters alone, and of one at least. -/
theorem IsWord.pieces {t : List Char} (h : IsWord t) : ∀ c ∈ t, isWordPiece c = true := by
  -- a run from any state, so that the induction goes through
  have hrun : ∀ (t : List Char) (s s' : WordState), word.run s t = some s' →
      ∀ c ∈ t, isWordPiece c = true := by
    intro t
    induction t with
    | nil => exact fun _ _ _ c hc => absurd hc List.not_mem_nil
    | cons d t ih =>
        intro s s' hs c hc
        unfold Scanner.run at hs
        cases hmove : word.move s d with
        | none => simp [hmove] at hs
        | some s₁ =>
            rw [hmove] at hs
            rcases List.mem_cons.1 hc with rfl | hc
            · exact isWordPiece_of_move hmove
            · exact ih s₁ s' hs c hc
  exact hrun t _ _ h

theorem IsWord.ne_nil {t : List Char} (h : IsWord t) : t ≠ [] := by
  rintro rfl
  cases h

/-- A keyword stands where a word starts only if it is that word. -/
theorem keyword_size? {w t rest : List Char} (ht : IsWord t) (hrest : EndsWord rest) :
    (Lexeme.keyword w).size? (t ++ rest) = if t = w then some t.length else none := by
  unfold Lexeme.size?
  rw [ht.longest? hrest]
  by_cases htw : t = w
  · subst htw
    simp
  · rw [if_neg htw]
    by_cases hstart : w.isPrefixOf (t ++ rest) = true
    -- the keyword starts the text, but the word is longer or shorter
    · have hlength : t.length ≠ w.length := by
        intro hlen
        have htake := List.prefix_iff_eq_take.1 (List.isPrefixOf_iff_prefix.1 hstart)
        rw [← hlen, List.take_left] at htake
        exact htw htake.symm
      simp [hstart, hlength]
    · simp [hstart]

/-- Any word is a name, but for those left out. -/
theorem name_size? {t rest : List Char} (besides : List (List Char)) (ht : IsWord t)
    (hrest : EndsWord rest) :
    (Lexeme.name besides).size? (t ++ rest)
      = if besides.contains t then none else some t.length := by
  unfold Lexeme.size?
  rw [ht.longest? hrest]
  simp only [List.take_left]

/-! ## §3. Literals. -/

theorem isHex_hexDigit : ∀ n < 16, isHex (Text.hexDigit n) = true := by decide

/-- The code of a control character is made of hexadecimal digits. -/
theorem isHex_of_mem_controlHex {n : Nat} (hn : n < 256) :
    ∀ c ∈ Text.controlHex n, isHex c = true :=
  Text.forall_mem_controlHex isHex_hexDigit hn

theorem controlHex_ne_nil (n : Nat) : Text.controlHex n ≠ [] := by
  unfold Text.controlHex
  split <;> exact List.cons_ne_nil _ _

/-- Digits and the closing brace end the escape that a brace opened. -/
theorem run_braced {quote : Char} :
    ∀ digits : List Char, (∀ c ∈ digits, isHex c = true) →
      (quoted quote).run .braced (digits ++ ['\x7d']) = some .inside := by
  intro digits
  induction digits with
  | nil => exact fun _ => rfl
  | cons c digits ih =>
      intro h
      have hc : isHex c = true := h c List.mem_cons_self
      have hmove : (quoted quote).move .braced c = some .braced := by
        show (if isHex c = true then some StringState.braced
          else if (c == '\x7d') = true then some .inside else none) = _
        rw [if_pos hc]
      rw [List.cons_append, Scanner.run_cons hmove]
      exact ih fun d hd => h d (List.mem_cons_of_mem _ hd)

/-- An escaped character keeps the scanner inside the literal. -/
theorem run_escape (c : Char) : (quoted '"').run .inside (Text.escape c) = some .inside := by
  rcases Text.escape_cases c with ⟨hself, hq, hb, hc⟩ | ⟨e, hpair, he⟩ | ⟨hc, hcode⟩
  · -- what stands for itself is neither the quote nor a backslash nor a line end
    have hn : c ≠ '\n' := by
      rintro rfl
      cases hc
    have hr : c ≠ '\r' := by
      rintro rfl
      cases hc
    have hmove : (quoted '"').move .inside c = some .inside := by
      show stringMove '"' c = some .inside
      unfold stringMove
      simp [hq, hb, hn, hr]
    rw [hself, Scanner.run_cons hmove]
    rfl
  · rw [hpair]
    rcases Text.of_simpleEscape? he with ⟨rfl, -⟩ | ⟨rfl, -⟩ | ⟨rfl, -⟩ <;> rfl
  · -- the escape opens a brace, which only digits follow
    have hhex := isHex_of_mem_controlHex (Text.toNat_lt_of_isControl hc)
    rw [hcode]
    cases hdigits : Text.controlHex c.toNat with
    | nil => exact absurd hdigits (controlHex_ne_nil _)
    | cons d digits =>
        rw [hdigits] at hhex
        have hd : (quoted '"').move .brace d = some .braced := by
          show (if isHex d = true then some StringState.braced else none) = _
          rw [if_pos (hhex d List.mem_cons_self)]
        show (quoted '"').run .brace (d :: (digits ++ ['\x7d'])) = _
        rw [Scanner.run_cons hd]
        exact run_braced digits fun e he => hhex e (List.mem_cons_of_mem _ he)

theorem run_escapes (s : List Char) :
    (quoted '"').run .inside (s.flatMap Text.escape) = some .inside := by
  induction s with
  | nil => rfl
  | cons c s ih =>
      rw [List.flatMap_cons, Scanner.run_append, run_escape]
      exact ih

/-- **What `quote` writes is read as one string**, whatever follows. -/
theorem string_size?_quote (s : String) (rest : List Char) :
    Lexeme.string.size? ((Text.quote s).toList ++ rest) = some (Text.quote s).toList.length := by
  have hrun : (quoted '"').run .start (Text.quote s).toList = some .closed := by
    unfold Text.quote
    rw [String.toList_ofList]
    show (quoted '"').run .inside (s.toList.flatMap Text.escape ++ ['"']) = some .closed
    rw [Scanner.run_append, run_escapes]
    rfl
  have hstop : (quoted '"').Stops .closed rest := fun _ _ => rfl
  show ((quoted '"').longest? _).orElse _ = _
  rw [Scanner.longest?_append hrun rfl hstop]
  rfl

end ImportSplit.Grammar
