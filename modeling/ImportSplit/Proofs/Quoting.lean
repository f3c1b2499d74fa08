/-
  ImportSplit.Proofs.Quoting
  ────────────────────────────────
  **WHAT IS QUOTED IS READ BACK.**

  Between the quotes of a literal a character stands in one of three forms
  (`escape_cases`):

      a        itself
      \n       a backslash and one more character
      \u{1b}   its code in braces

  Each form is read back as the character, whatever stands behind it
  (`unescape_escape_append`): a backslash begins an escape wherever it is
  between characters, and the brace ends the code however many digits it has.

    • `flatMap_escape_eq_iff` — texts that stand for themselves,
    • `isControl_of_mem_escape` — no control character is written,
    • `escapedBehind_of_quote` — each quote inside a literal is escaped,
    • `quote_isLiteral` — a literal is read back as its text.
-/
import ImportSplit.Text.Quoted

namespace ImportSplit.Text

/-! ## §1. The forms of a character. -/

/-- A character stands for itself, or behind a backslash, or by its code. -/
theorem escape_cases (c : Char) :
    (escape c = [c] ∧ c ≠ '"' ∧ c ≠ '\\' ∧ isControl c = false)
      ∨ (∃ e, escape c = ['\\', e] ∧ simpleEscape? e = some c)
      ∨ (isControl c = true
        ∧ escape c = '\\' :: 'u' :: '\x7b' :: (controlHex c.toNat ++ ['\x7d'])) := by
  unfold escape
  by_cases hq : c = '"'
  · subst hq
    exact .inr (.inl ⟨'"', rfl, rfl⟩)
  by_cases hb : c = '\\'
  · subst hb
    exact .inr (.inl ⟨'\\', rfl, rfl⟩)
  by_cases hn : c = '\n'
  · subst hn
    exact .inr (.inl ⟨'n', rfl, rfl⟩)
  rw [if_neg hq, if_neg hb, if_neg hn]
  cases hc : isControl c with
  | true => exact .inr (.inr ⟨rfl, rfl⟩)
  | false => exact .inl ⟨rfl, hq, hb, rfl⟩

theorem of_simpleEscape? {e c : Char} (h : simpleEscape? e = some c) :
    e = '"' ∧ c = '"' ∨ e = '\\' ∧ c = '\\' ∨ e = 'n' ∧ c = '\n' := by
  unfold simpleEscape? at h
  split at h
  · next he => exact .inl ⟨he, (Option.some.inj h).symm⟩
  split at h
  · next he => exact .inr (.inl ⟨he, (Option.some.inj h).symm⟩)
  split at h
  · next he => exact .inr (.inr ⟨he, (Option.some.inj h).symm⟩)
  · cases h

theorem toNat_lt_of_isControl {c : Char} (h : isControl c = true) : c.toNat < 256 := by
  simp only [isControl, Bool.or_eq_true, Bool.and_eq_true, decide_eq_true_eq] at h
  omega

/-- A code has one digit or two. -/
theorem controlHex_cases {n : Nat} (hn : n < 256) :
    n < 16 ∧ controlHex n = [hexDigit n]
      ∨ ∃ high < 16, ∃ low < 16, n = 16 * high + low
        ∧ controlHex n = [hexDigit high, hexDigit low] := by
  unfold controlHex
  by_cases hone : n < 16
  · exact .inl ⟨hone, if_pos hone⟩
  · refine .inr ⟨n / 16, by omega, n % 16, by omega, by omega, if_neg hone⟩

/-- What holds of every digit holds of the digits of a code. -/
theorem forall_mem_controlHex {p : Char → Prop} (hp : ∀ n < 16, p (hexDigit n)) {n : Nat}
    (hn : n < 256) : ∀ c ∈ controlHex n, p c := by
  rcases controlHex_cases hn with ⟨hone, hhex⟩ | ⟨high, hhigh, low, hlow, -, hhex⟩
  · rw [hhex, List.forall_mem_singleton]
    exact hp n hone
  · rw [hhex, List.forall_mem_cons, List.forall_mem_singleton]
    exact ⟨hp high hhigh, hp low hlow⟩

theorem hexValue?_hexDigit : ∀ n < 16, hexValue? (hexDigit n) = some n := by decide

/-! ## §2. What stands for itself. -/

/-- A character stands for itself in a literal, or it takes more than one. -/
theorem escape_eq_or_lt (c : Char) :
    (escape c = [c] ∧ c ≠ '"' ∧ c ≠ '\\' ∧ isControl c = false)
      ∨ 1 < (escape c).length ∧ ¬ (c ≠ '"' ∧ c ≠ '\\' ∧ isControl c = false) := by
  rcases escape_cases c with hself | ⟨e, hpair, he⟩ | ⟨hc, hcode⟩
  · exact .inl hself
  · refine .inr ⟨by simp [hpair], ?_⟩
    rintro ⟨hq, hb, hcontrol⟩
    rcases of_simpleEscape? he with ⟨-, rfl⟩ | ⟨-, rfl⟩ | ⟨-, rfl⟩
    · exact hq rfl
    · exact hb rfl
    · cases hcontrol
  · refine .inr ⟨by simp [hcode], ?_⟩
    rintro ⟨-, -, hcontrol⟩
    rw [hc] at hcontrol
    cases hcontrol

theorem length_le_flatMap_escape (s : List Char) : s.length ≤ (s.flatMap escape).length := by
  induction s with
  | nil => exact Nat.le_refl _
  | cons c s ih =>
      have hpos : 1 ≤ (escape c).length := by
        rcases escape_eq_or_lt c with ⟨hself, -⟩ | ⟨hlong, -⟩
        · rw [hself]
          exact Nat.le_refl _
        · omega
      rw [List.flatMap_cons, List.length_append, List.length_cons]
      omega

/-- A text stands for itself in a literal if each of its characters does. -/
theorem flatMap_escape_eq_iff (s : List Char) :
    s.flatMap escape = s ↔ ∀ c ∈ s, c ≠ '"' ∧ c ≠ '\\' ∧ isControl c = false := by
  induction s with
  | nil => simp
  | cons c s ih =>
      rw [List.flatMap_cons, List.forall_mem_cons]
      rcases escape_eq_or_lt c with ⟨hself, hplain⟩ | ⟨hlong, hnot⟩
      · rw [hself, List.singleton_append, List.cons_inj_right, ih]
        exact (and_iff_right hplain).symm
      · -- what got longer is not the same, for nothing gets shorter
        refine iff_of_false (fun heq => ?_) fun hall => hnot hall.1
        have hlength := congrArg List.length heq
        have hle := length_le_flatMap_escape s
        rw [List.length_append, List.length_cons] at hlength
        omega

/-! ## §3. No control character stands in a literal. -/

theorem isControl_hexDigit : ∀ n < 16, isControl (hexDigit n) = false := by decide

theorem isControl_of_mem_escape {c d : Char} (hd : d ∈ escape c) : isControl d = false := by
  rcases escape_cases c with ⟨hself, -, -, hc⟩ | ⟨e, hpair, he⟩ | ⟨hc, hcode⟩
  · rw [hself, List.mem_singleton] at hd
    rw [hd]
    exact hc
  · rw [hpair, List.mem_cons, List.mem_singleton] at hd
    rcases of_simpleEscape? he with ⟨rfl, -⟩ | ⟨rfl, -⟩ | ⟨rfl, -⟩ <;>
      rcases hd with rfl | rfl <;> rfl
  · have hdigits : ∀ d ∈ controlHex c.toNat, isControl d = false :=
      forall_mem_controlHex isControl_hexDigit (toNat_lt_of_isControl hc)
    simp only [hcode, List.mem_cons, List.mem_append, List.not_mem_nil, or_false] at hd
    rcases hd with rfl | rfl | rfl | hd | rfl
    · rfl
    · rfl
    · rfl
    · exact hdigits d hd
    · rfl

/-! ## §4. No quote ends a literal early. -/

/-- Whether the character behind the text is escaped, if the first one is: a
backslash escapes what follows it, unless it is escaped itself. -/
def escapedBehind (first : Bool) (s : List Char) : Bool :=
  s.foldl (fun escaped c => !escaped && c == '\\') first

theorem escapedBehind_append (first : Bool) (s t : List Char) :
    escapedBehind first (s ++ t) = escapedBehind (escapedBehind first s) t :=
  List.foldl_append

/-- Without a backslash in the text, nothing behind it is escaped. -/
theorem escapedBehind_of_not_mem {s : List Char} (h : '\\' ∉ s) :
    escapedBehind false s = false := by
  induction s with
  | nil => rfl
  | cons c s ih =>
      rw [List.mem_cons, not_or] at h
      have hc : (c == '\\') = false := beq_false_of_ne (Ne.symm h.1)
      show escapedBehind (!false && c == '\\') s = false
      rw [hc]
      exact ih h.2

theorem hexDigit_ne : ∀ n < 16, hexDigit n ≠ '\\' ∧ hexDigit n ≠ '"' := by decide

/-- Behind a character that was written nothing is escaped, and a quote in it is. -/
theorem escape_spec (c : Char) :
    escapedBehind false (escape c) = false
      ∧ ∀ before after, escape c = before ++ '"' :: after → escapedBehind false before = true := by
  rcases escape_cases c with ⟨hself, hq, hb, -⟩ | ⟨e, hpair, he⟩ | ⟨hc, hcode⟩
  · rw [hself]
    refine ⟨escapedBehind_of_not_mem (by simpa using Ne.symm hb), fun before after h => ?_⟩
    have hmem : '"' ∈ [c] := by simp [h]
    exact absurd (List.mem_singleton.1 hmem).symm hq
  · rw [hpair]
    refine ⟨?_, fun before after h => ?_⟩
    · show (!true && e == '\\') = false
      rfl
    · rcases before with _ | ⟨first, _ | ⟨second, more⟩⟩
      · cases h
      · obtain ⟨rfl, -⟩ := List.cons.inj h
        rfl
      · simp at h
  · have hdigits : ∀ d ∈ controlHex c.toNat, d ≠ '\\' ∧ d ≠ '"' :=
      forall_mem_controlHex hexDigit_ne (toNat_lt_of_isControl hc)
    rw [hcode]
    refine ⟨?_, fun before after h => ?_⟩
    · show escapedBehind false ('\x7b' :: (controlHex c.toNat ++ ['\x7d'])) = false
      refine escapedBehind_of_not_mem ?_
      simp only [List.mem_cons, List.mem_append, List.not_mem_nil, or_false, not_or]
      exact ⟨by decide, fun hmem => (hdigits _ hmem).1 rfl, by decide⟩
    · have hmem : '"' ∈ '\\' :: 'u' :: '\x7b' :: (controlHex c.toNat ++ ['\x7d']) := by simp [h]
      simp only [List.mem_cons, List.mem_append, List.not_mem_nil, or_false] at hmem
      rcases hmem with hmem | hmem | hmem | hmem | hmem
      · cases hmem
      · cases hmem
      · cases hmem
      · exact absurd rfl (hdigits _ hmem).2
      · cases hmem

theorem escapedBehind_flatMap_escape (s : List Char) :
    escapedBehind false (s.flatMap escape) = false := by
  induction s with
  | nil => rfl
  | cons c s ih =>
      rw [List.flatMap_cons, escapedBehind_append, (escape_spec c).1]
      exact ih

/-- Every quote inside a literal is escaped. -/
theorem escapedBehind_of_quote {s before after : List Char}
    (h : s.flatMap escape = before ++ '"' :: after) : escapedBehind false before = true := by
  induction s generalizing before with
  | nil => simp at h
  | cons c s ih =>
      rw [List.flatMap_cons, List.append_eq_append_iff] at h
      rcases h with ⟨more, rfl, hmore⟩ | ⟨more, hc, hmore⟩
      · -- the quote stands behind what is written of the character
        rw [escapedBehind_append, (escape_spec c).1]
        exact ih hmore
      · cases more with
        | nil =>
            rw [List.append_nil] at hc
            have hrest : s.flatMap escape = [] ++ '"' :: after := hmore.symm
            rw [← hc, (escape_spec c).1]
            exact ih hrest
        | cons q more =>
            obtain ⟨rfl, -⟩ := List.cons.inj hmore
            exact (escape_spec c).2 before more hc

/-! ## §5. What is written is read back. -/

/-- The code in braces is read up to its brace. -/
theorem unescapeFrom_controlHex {n : Nat} (hn : n < 256) (s : List Char) :
    unescapeFrom .brace (controlHex n ++ '\x7d' :: s)
      = (unescapeFrom .plain s).map (Char.ofNat n :: ·) := by
  have hclose : unescapeFrom (.digits n) ('\x7d' :: s)
      = (unescapeFrom .plain s).map (Char.ofNat n :: ·) := by
    have hvalid : n.isValidChar := .inl (by omega)
    rw [unescapeFrom, if_pos rfl, if_pos hvalid]
  have hfirst : ∀ d < 16, ∀ t, unescapeFrom .brace (hexDigit d :: t) = unescapeFrom (.digits d) t := by
    intro d hd t
    rw [unescapeFrom, hexValue?_hexDigit d hd]
  have hnext : ∀ k, ∀ d < 16, ∀ t,
      unescapeFrom (.digits k) (hexDigit d :: t) = unescapeFrom (.digits (16 * k + d)) t := by
    intro k d hd t
    have hdigit : hexDigit d ≠ '\x7d' := by
      intro heq
      have hvalue := hexValue?_hexDigit d hd
      rw [heq] at hvalue
      cases hvalue
    rw [unescapeFrom, if_neg hdigit, hexValue?_hexDigit d hd]
  rcases controlHex_cases hn with ⟨hone, hhex⟩ | ⟨high, hhigh, low, hlow, rfl, hhex⟩
  · rw [hhex, List.singleton_append, hfirst n hone, hclose]
  · rw [hhex, List.cons_append, List.singleton_append, hfirst high hhigh, hnext high low hlow, hclose]

/-- A character that is written is read back, whatever stands behind it. -/
theorem unescape_escape_append (c : Char) (s : List Char) :
    unescape (escape c ++ s) = (unescape s).map (c :: ·) := by
  unfold unescape
  rcases escape_cases c with ⟨hself, hq, hb, hc⟩ | ⟨e, hpair, he⟩ | ⟨hc, hcode⟩
  · have hline : ¬ (c = '"' ∨ c = '\n' ∨ c = '\r') := by
      rintro (rfl | rfl | rfl)
      · exact hq rfl
      · cases hc
      · cases hc
    rw [hself, List.singleton_append, unescapeFrom, if_neg hb, if_neg hline]
  · have hu : e ≠ 'u' := by
      rintro rfl
      cases he
    rw [hpair, List.cons_append, List.singleton_append, unescapeFrom, if_pos rfl, unescapeFrom,
      if_neg hu, he]
  · rw [hcode]
    show unescapeFrom .brace (controlHex c.toNat ++ ['\x7d'] ++ s) = _
    rw [List.append_assoc, List.singleton_append,
      unescapeFrom_controlHex (toNat_lt_of_isControl hc), Char.ofNat_toNat]

theorem unescape_flatMap_escape (s : List Char) : unescape (s.flatMap escape) = some s := by
  induction s with
  | nil => rfl
  | cons c s ih =>
      rw [List.flatMap_cons, unescape_escape_append, ih]
      rfl

/-- Different texts have different literals. -/
theorem quote_injective : Function.Injective quote := by
  intro v w h
  have hinside : v.toList.flatMap escape = w.toList.flatMap escape := by
    have hlist := congrArg String.toList h
    simpa [quote] using hlist
  have hread := congrArg unescape hinside
  rw [unescape_flatMap_escape, unescape_flatMap_escape] at hread
  exact String.toList_inj.1 (Option.some.inj hread)

/-- **What is quoted stands between two quotes and is read back.**  Each quote in
between is escaped and the last one is not, no control character is written, and
the inside is read back as the text.  So no two texts have the same literal. -/
theorem quote_isLiteral (v : String) :
    ∃ inside : List Char, (quote v).toList = '"' :: inside ++ ['"']
      ∧ (∀ before after, inside = before ++ '"' :: after → escapedBehind false before = true)
      ∧ escapedBehind false inside = false
      ∧ '\n' ∉ inside ∧ '\r' ∉ inside ∧ (∀ c ∈ inside, isControl c = false)
      ∧ unescape inside = some v.toList
      ∧ ∀ w, quote w = quote v → w = v := by
  have hcontrol : ∀ c ∈ v.toList.flatMap escape, isControl c = false := by
    intro c hc
    obtain ⟨d, -, hd⟩ := List.mem_flatMap.1 hc
    exact isControl_of_mem_escape hd
  refine ⟨v.toList.flatMap escape, String.toList_ofList, fun _ _ => escapedBehind_of_quote,
    escapedBehind_flatMap_escape _, fun hn => ?_, fun hr => ?_, hcontrol,
    unescape_flatMap_escape _, fun w hw => quote_injective hw⟩
  · cases hcontrol _ hn
  · cases hcontrol _ hr

end ImportSplit.Text
