/-
  ImportSplit.Proofs.LiteralValues
  ────────────────────────────────
  **WHAT A STRING LITERAL DENOTES.**

  A literal of a module denotes a string of 16-bit code units.  Between its
  quotes a character stands for its own units, and an escape for those that it
  spells:

      "lodash"        denotes   l o d a s h
      "lod\u0061sh"   denotes   l o d a s h
      "\u{1f600}"     denotes   d83d de00

  An escape is longer than what it stands for (`length_lt_of_decodeFrom`), so
  that a text denotes itself exactly if no backslash is in it
  (`decode_eq_iff`).  What `quote` writes always denotes the text that was
  quoted (`value?_quote`).
-/
import ImportSplit.Proofs.Quoting
import ImportSplit.Text.Blank

namespace ImportSplit.Literal

/-! ## §1. Code units. -/

/-- The code units of a code point. -/
def codeUnits (n : Nat) : List Nat :=
  if n < 0x10000 then [n]
  else [0xd800 + (n - 0x10000) / 0x400, 0xdc00 + (n - 0x10000) % 0x400]

/-- The code units of a text. -/
def textUnits (s : List Char) : List Nat := s.flatMap fun c => codeUnits c.toNat

@[simp] theorem textUnits_nil : textUnits [] = [] := rfl

@[simp] theorem textUnits_cons (c : Char) (s : List Char) :
    textUnits (c :: s) = codeUnits c.toNat ++ textUnits s := rfl

theorem textUnits_append (s t : List Char) : textUnits (s ++ t) = textUnits s ++ textUnits t :=
  List.flatMap_append

theorem length_codeUnits (n : Nat) :
    1 ≤ (codeUnits n).length ∧ (codeUnits n).length ≤ 2 := by
  unfold codeUnits
  split <;> simp

/-! ## §2. Literals. -/

/-- Where the reading of a literal stands. -/
inductive Decoding where
  /-- Between characters. -/
  | plain
  /-- Behind a backslash. -/
  | escaped
  /-- Before the line feed of an escaped line end. -/
  | feed
  /-- Behind a backslash and `u`. -/
  | coded
  /-- Inside an escape with this many digits left. -/
  | fixed (left value : Nat)
  /-- Behind the brace that opens a code. -/
  | brace
  /-- Inside such a code, with a digit at least. -/
  | braced (value : Nat)
  deriving DecidableEq

/-- What a backslash and one more character stand for, where the two are a whole
escape. -/
def simpleUnits (c : Char) : List Nat :=
  if c = 'b' then [8]
  else if c = 't' then [9]
  else if c = 'n' then [10]
  else if c = 'v' then [11]
  else if c = 'f' then [12]
  else if c = 'r' then [13]
  else codeUnits c.toNat

/-- A decimal digit. -/
def isDecimal (c : Char) : Bool := '0' ≤ c && c ≤ '9'

/-- Reads the inside of a literal; `none` where it is no string of a module.
There is no escape of octal digits, but for `\0` without a digit behind it, and
an escaped line end stands for nothing. -/
def decodeFrom : Decoding → List Char → Option (List Nat)
  | .plain, [] | .feed, [] => some []
  | _, [] => none
  | .plain, c :: rest =>
      if c = '\\' then decodeFrom .escaped rest
      else (decodeFrom .plain rest).map (codeUnits c.toNat ++ ·)
  | .escaped, c :: rest =>
      if c = 'x' then decodeFrom (.fixed 2 0) rest
      else if c = 'u' then decodeFrom .coded rest
      else if c = '\r' then decodeFrom (if rest.head? = some '\n' then .feed else .plain) rest
      else if Text.isLineEnd c then decodeFrom .plain rest
      else if isDecimal c then
        if c = '0' && !rest.head?.elim false isDecimal then (decodeFrom .plain rest).map (0 :: ·)
        else none
      else (decodeFrom .plain rest).map (simpleUnits c ++ ·)
  | .feed, _ :: rest => decodeFrom .plain rest
  | .coded, c :: rest =>
      if c = '\x7b' then decodeFrom .brace rest
      else match Text.hexValue? c with
        | some v => decodeFrom (.fixed 3 v) rest
        | none => none
  | .fixed left value, c :: rest =>
      match Text.hexValue? c with
      | some v =>
          if left ≤ 1 then (decodeFrom .plain rest).map ((16 * value + v) :: ·)
          else decodeFrom (.fixed (left - 1) (16 * value + v)) rest
      | none => none
  | .brace, c :: rest =>
      match Text.hexValue? c with
      | some v => decodeFrom (.braced v) rest
      | none => none
  | .braced value, c :: rest =>
      if c = '\x7d' then
        if value ≤ 0x10ffff then (decodeFrom .plain rest).map (codeUnits value ++ ·) else none
      else match Text.hexValue? c with
        | some v => decodeFrom (.braced (16 * value + v)) rest
        | none => none

/-- The string that the inside of a literal denotes. -/
def decode (inside : List Char) : Option (List Nat) := decodeFrom .plain inside

/-- The string that a literal denotes, with its quotes. -/
def value? (literal : String) : Option (List Nat) :=
  match literal.toList with
  | q :: rest =>
      if (q = '"' ∨ q = '\'') ∧ rest.getLast? = some q then decode rest.dropLast else none
  | [] => none

/-- The string of a path below a module, of what the two texts denote. -/
def joined? (module member : String) : Option (List Nat) :=
  (decode module.toList).bind fun m =>
    (decode member.toList).map fun n => m ++ codeUnits '/'.toNat ++ n

/-! ## §3. An escape is longer than what it stands for. -/

/-- How many code units of an escape were read at least. -/
def Decoding.taken : Decoding → Nat
  | plain => 0
  | escaped => 1
  | feed | coded | fixed .. => 2
  | brace => 3
  | braced _ => 4

theorem length_simpleUnits_le (c : Char) :
    (simpleUnits c).length ≤ (codeUnits c.toNat).length := by
  have hone := (length_codeUnits c.toNat).1
  unfold simpleUnits
  repeat' split
  all_goals first
    | exact hone
    | exact Nat.le_refl _

/-- Inside an escape, less comes out than was and will be read; between
characters no more, and less where an escape follows. -/
theorem length_lt_of_decodeFrom (s : List Char) :
    ∀ (st : Decoding) (v : List Nat), decodeFrom st s = some v →
      v.length ≤ st.taken + (textUnits s).length
        ∧ (st ≠ .plain ∨ '\\' ∈ s → v.length < st.taken + (textUnits s).length) := by
  induction s with
  | nil =>
      intro st v h
      cases st with
      | plain =>
          cases h
          exact ⟨Nat.le_refl _, fun hne => by simp at hne⟩
      | feed =>
          cases h
          exact ⟨Nat.zero_le _, fun _ => Nat.zero_lt_succ _⟩
      | _ => cases h
  | cons c s ih =>
      intro st v h
      have hc := (length_codeUnits c.toNat).1
      rw [textUnits_cons, List.length_append]
      -- the escape goes on behind the character
      have hon : ∀ st', st' ≠ .plain → st'.taken ≤ st.taken + 1 → decodeFrom st' s = some v →
          v.length < st.taken + ((codeUnits c.toNat).length + (textUnits s).length) := by
        intro st' hne hle h'
        have := (ih st' v h').2 (.inl hne)
        omega
      -- or it ends there, and stands for `us`
      have hend : ∀ us : List Nat, us.length < st.taken + (codeUnits c.toNat).length →
          (decodeFrom .plain s).map (us ++ ·) = some v →
          v.length < st.taken + ((codeUnits c.toNat).length + (textUnits s).length) := by
        intro us hus h'
        obtain ⟨v', hv', rfl⟩ := Option.map_eq_some_iff.1 h'
        have hle := (ih .plain v' hv').1
        rw [Decoding.taken, Nat.zero_add] at hle
        rw [List.length_append]
        omega
      have hnothing : decodeFrom .plain s = some v → st ≠ .plain →
          v.length < st.taken + ((codeUnits c.toNat).length + (textUnits s).length) := by
        intro h' hne
        refine hend [] ?_ (by rw [h']; rfl)
        rw [List.length_nil]
        omega
      have hboth : ∀ {k : Nat} {q : Prop}, v.length < k → v.length ≤ k ∧ (q → v.length < k) :=
        fun hlt => ⟨Nat.le_of_lt hlt, fun _ => hlt⟩
      cases st with
      | plain =>
          simp only [decodeFrom] at h
          by_cases hback : c = '\\'
          · rw [if_pos hback] at h
            exact hboth (hon .escaped (by decide) (by decide) h)
          · rw [if_neg hback] at h
            obtain ⟨v', hv', rfl⟩ := Option.map_eq_some_iff.1 h
            obtain ⟨hle, hlt⟩ := ih .plain v' hv'
            simp only [Decoding.taken, Nat.zero_add, List.length_append] at hle hlt ⊢
            refine ⟨by omega, fun hor => ?_⟩
            have hmem : '\\' ∈ s := by
              rcases hor with hne | hmem
              · exact absurd rfl hne
              · exact (List.mem_cons.1 hmem).resolve_left fun heq => hback heq.symm
            have := hlt (.inr hmem)
            omega
      | escaped =>
          refine hboth ?_
          simp only [decodeFrom] at h
          split at h
          · exact hon (.fixed 2 0) (by decide) (by decide) h
          split at h
          · exact hon .coded (by decide) (by decide) h
          split at h
          · split at h
            · exact hon .feed (by decide) (by decide) h
            · exact hnothing h (by decide)
          split at h
          · exact hnothing h (by decide)
          split at h
          · split at h
            · exact hend [0] (by show 1 < 1 + _; omega) h
            · cases h
          · have := length_simpleUnits_le c
            exact hend (simpleUnits c) (by show _ < 1 + _; omega) h
      | feed => exact hboth (hnothing h (by decide))
      | coded =>
          refine hboth ?_
          simp only [decodeFrom] at h
          split at h
          · exact hon .brace (by decide) (by decide) h
          split at h
          · exact hon (.fixed 3 _) (by simp) (Nat.le_succ 2) h
          · cases h
      | fixed left value =>
          refine hboth ?_
          simp only [decodeFrom] at h
          split at h
          · next d _ =>
              split at h
              · exact hend [16 * value + d] (by show 1 < 2 + _; omega) h
              · exact hon (.fixed (left - 1) _) (by simp) (Nat.le_succ _) h
          · cases h
      | brace =>
          refine hboth ?_
          simp only [decodeFrom] at h
          split at h
          · exact hon (.braced _) (by simp) (Nat.le_refl 4) h
          · cases h
      | braced value =>
          refine hboth ?_
          simp only [decodeFrom] at h
          split at h
          · split at h
            · -- a code point takes two code units at most
              have := (length_codeUnits value).2
              exact hend (codeUnits value) (by show _ < 4 + _; omega) h
            · cases h
          split at h
          · exact hon (.braced _) (by simp) (Nat.le_succ 4) h
          · cases h

theorem decode_of_not_mem {s : List Char} (h : '\\' ∉ s) : decode s = some (textUnits s) := by
  induction s with
  | nil => rfl
  | cons c s ih =>
      rw [List.mem_cons, not_or] at h
      have hs : decodeFrom .plain s = some (textUnits s) := ih h.2
      unfold decode decodeFrom
      rw [if_neg (Ne.symm h.1), hs]
      rfl

/-- **A text denotes itself exactly if no backslash is in it.** -/
theorem decode_eq_iff (s : List Char) : decode s = some (textUnits s) ↔ '\\' ∉ s := by
  refine ⟨fun h hmem => ?_, decode_of_not_mem⟩
  have hlt := (length_lt_of_decodeFrom s .plain _ h).2 (.inr hmem)
  rw [Decoding.taken, Nat.zero_add] at hlt
  exact Nat.lt_irrefl _ hlt

/-! ## §4. Literals that are written. -/

/-- The place of a reader of all escapes, where one that knows only those that
are written stands. -/
def Decoding.ofReading : Text.Reading → Decoding
  | .plain => plain
  | .escaped => escaped
  | .coded => coded
  | .brace => brace
  | .digits value => braced value

/-- Where both readers are between characters again, behind this one. -/
theorem map_decodeFrom_plain {t s : List Char} {c : Char}
    (ih : ∀ {s}, Text.unescapeFrom .plain t = some s → decodeFrom .plain t = some (textUnits s))
    (h : (Text.unescapeFrom .plain t).map (c :: ·) = some s) :
    (decodeFrom .plain t).map (codeUnits c.toNat ++ ·) = some (textUnits s) := by
  obtain ⟨s', hs', rfl⟩ := Option.map_eq_some_iff.1 h
  rw [ih hs']
  rfl

/-- **What is read back is denoted**: the escapes that are written mean the same
among all escapes. -/
theorem decodeFrom_of_unescapeFrom {st : Text.Reading} {t s : List Char}
    (h : Text.unescapeFrom st t = some s) :
    decodeFrom (.ofReading st) t = some (textUnits s) := by
  fun_induction Text.unescapeFrom st t generalizing s with
  | case1 =>
      cases h
      rfl
  | case3 rest ih => exact ih h
  | case5 c rest hback _ ih =>
      simp only [Decoding.ofReading, decodeFrom, if_neg hback]
      exact map_decodeFrom_plain ih h
  | case6 rest ih => exact ih h
  | case7 e rest _ c hc ih =>
      rcases Text.of_simpleEscape? hc with ⟨rfl, rfl⟩ | ⟨rfl, rfl⟩ | ⟨rfl, rfl⟩ <;>
        exact map_decodeFrom_plain ih h
  | case9 rest ih => exact ih h
  | case11 c rest d hd ih =>
      simp only [Decoding.ofReading, decodeFrom, hd]
      exact ih h
  | case13 value rest hvalid ih =>
      -- the code is that of a character, and so not too large
      have hle : value ≤ 0x10ffff := by
        rcases hvalid with hlow | hhigh <;> omega
      have hcode : (Char.ofNat value).toNat = value := by
        unfold Char.ofNat
        rw [dif_pos hvalid]
        rfl
      simp only [Decoding.ofReading, decodeFrom, if_true, if_pos hle]
      rw [← hcode]
      exact map_decodeFrom_plain ih h
  | case15 value c rest hbrace d hd ih =>
      simp only [Decoding.ofReading, decodeFrom, if_neg hbrace, hd]
      exact ih h
  | _ => cases h

theorem decode_flatMap_escape (s : List Char) :
    decode (s.flatMap Text.escape) = some (textUnits s) :=
  decodeFrom_of_unescapeFrom (Text.unescape_flatMap_escape s)

/-- **What is quoted is denoted by its literal.** -/
theorem value?_quote (s : String) : value? (Text.quote s) = some (textUnits s.toList) := by
  unfold value? Text.quote
  rw [String.toList_ofList]
  simp only [List.cons_append, true_or, List.getLast?_append, List.getLast?_singleton,
    Option.some_or, and_self, if_true, List.dropLast_concat]
  exact decode_flatMap_escape s.toList

/-- A literal denotes what stands between its quotes. -/
theorem value?_of_quoted {q : Char} (hq : q = '"' ∨ q = '\'') (inside : List Char) :
    value? (String.ofList (q :: inside ++ [q])) = decode inside := by
  unfold value?
  rw [String.toList_ofList]
  simp [hq]

/-- **The path below a module denotes what module and member denote exactly if
no backslash is in either.** -/
theorem joined?_eq_iff (module member : String) :
    joined? module member = some (textUnits (module ++ "/" ++ member).toList)
      ↔ '\\' ∉ module.toList ∧ '\\' ∉ member.toList := by
  have hunits : textUnits (module ++ "/" ++ member).toList
      = textUnits module.toList ++ codeUnits '/'.toNat ++ textUnits member.toList := by
    rw [String.toList_append, String.toList_append, textUnits_append, textUnits_append]
    rfl
  rw [hunits]
  constructor
  · intro h
    obtain ⟨m, hm, h⟩ := Option.bind_eq_some_iff.1 h
    obtain ⟨n, hn, heq⟩ := Option.map_eq_some_iff.1 h
    obtain ⟨hmle, hmlt⟩ := length_lt_of_decodeFrom _ .plain _ hm
    obtain ⟨hnle, hnlt⟩ := length_lt_of_decodeFrom _ .plain _ hn
    -- with an escape in either text, less would be denoted than is written
    have hlength := congrArg List.length heq
    simp only [List.length_append] at hlength
    simp only [Decoding.taken, Nat.zero_add] at hmle hmlt hnle hnlt
    refine ⟨fun hmem => ?_, fun hmem => ?_⟩
    · have := hmlt (.inr hmem)
      omega
    · have := hnlt (.inr hmem)
      omega
  · rintro ⟨hm, hn⟩
    unfold joined?
    rw [decode_of_not_mem hm, decode_of_not_mem hn]
    rfl

end ImportSplit.Literal
