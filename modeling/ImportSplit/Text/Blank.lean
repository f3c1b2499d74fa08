/-
  ImportSplit.Text.Blank
  ────────────────────────────────
  **BLANK CHARACTERS.**

  `isWhite` is the property White_Space of the Unicode standard, and `trim`
  takes such characters off both ends of a text.  Between the tokens of a
  module a few characters without width count as blank as well: the byte
  order mark, the zero-width space and the word joiner (`isGap`).
-/

namespace ImportSplit.Text

/-- The Unicode property White_Space. -/
def isWhite (c : Char) : Bool :=
  let n := c.toNat
  n == 0x20 || (0x09 ≤ n && n ≤ 0x0d) || n == 0x85 || n == 0xa0 || n == 0x1680
    || (0x2000 ≤ n && n ≤ 0x200a) || n == 0x2028 || n == 0x2029 || n == 0x202f
    || n == 0x205f || n == 0x3000

/-- The characters that may stand between the tokens of a module. -/
def isGap (c : Char) : Bool :=
  isWhite c || c == '\ufeff' || c == '\u200b' || c == '\u2060'

/-- The blank characters of ASCII. -/
def isPlainBlank (c : Char) : Bool :=
  c == ' ' || (0x09 ≤ c.toNat && c.toNat ≤ 0x0d)

/-- The characters that end a line: a line feed and the two Unicode separators. -/
def isLineEnd (c : Char) : Bool :=
  c == '\n' || c == '\u2028' || c == '\u2029'

/-- The text without the white space at its two ends. -/
def trim (s : List Char) : List Char :=
  ((s.dropWhile isWhite).reverse.dropWhile isWhite).reverse

/-! ## Characters that are dropped at the start of a text. -/

section Drop

variable {p : Char → Bool}

theorem head?_dropWhile (p : Char → Bool) (s : List Char) :
    ∀ c ∈ (s.dropWhile p).head?, p c = false := by
  intro c hc
  have hnot := List.head?_dropWhile_not p s
  rw [Option.mem_def.1 hc] at hnot
  exact hnot

theorem dropWhile_of_head? {s : List Char} (hs : ∀ c ∈ s.head?, p c = false) :
    s.dropWhile p = s := by
  cases s with
  | nil => rfl
  | cons c s =>
      have hc : ¬ p c = true := by
        rw [hs c rfl]
        exact Bool.false_ne_true
      exact List.dropWhile_cons_of_neg hc

/-- Only the characters before the text go. -/
theorem dropWhile_append {before s : List Char} (hbefore : ∀ c ∈ before, p c = true)
    (hs : ∀ c ∈ s.head?, p c = false) : (before ++ s).dropWhile p = s := by
  rw [List.dropWhile_append_of_pos hbefore, dropWhile_of_head? hs]

end Drop

end ImportSplit.Text
