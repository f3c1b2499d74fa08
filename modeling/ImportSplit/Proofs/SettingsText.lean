/-
  ImportSplit.Proofs.SettingsText
  ────────────────────────────────
  **SETTINGS AS TEXT.**

  JSON leaves open how a text is written.  Between any two marks blanks may
  stand, and a character of a string has several forms:

      a   \n   \u000a   \ud83d\ude00

  `Spells` says what may be written for a string, and `SpellsSettings` what may be
  written for settings.  Whatever it is, it is read as the settings
  (`ofJson_of_spells`).  What is written for settings is one such text, so it is
  read back (`ofJson_toJson`).
-/
import ImportSplit.Proofs.Quoting
import ImportSplit.Settings

namespace ImportSplit

namespace JsonText

/-! ## §1. Strings. -/

/-- Four hexadecimal digits name a code unit. -/
inductive Code : List Char → Nat → Prop
  | mk {a b c d : Char} {m n p q : Nat} (ha : Text.hexValue? a = some m)
      (hb : Text.hexValue? b = some n) (hc : Text.hexValue? c = some p)
      (hd : Text.hexValue? d = some q) : Code [a, b, c, d] (16 * (16 * (16 * m + n) + p) + q)

/-- What may be written for a character of a string: the character itself, a
backslash and one more, its code, or the codes of its two surrogates. -/
inductive SpellsChar : List Char → Char → Prop
  | plain {c : Char} (hquote : c ≠ '"') (hback : c ≠ '\\') (hcontrol : 0x20 ≤ c.toNat) :
      SpellsChar [c] c
  | simple {e c : Char} (h : simpleEscape? e = some c) : SpellsChar ['\\', e] c
  | code {ds : List Char} {c : Char} (h : Code ds c.toNat) : SpellsChar ('\\' :: 'u' :: ds) c
  | pair {ds es : List Char} {high low : Nat} {c : Char} (hds : Code ds high) (hes : Code es low)
      (hhigh : 0xD800 ≤ high ∧ high ≤ 0xDBFF) (hlow : 0xDC00 ≤ low ∧ low ≤ 0xDFFF)
      (hc : c.toNat = 0x10000 + (high - 0xD800) * 0x400 + (low - 0xDC00)) :
      SpellsChar ('\\' :: 'u' :: (ds ++ '\\' :: 'u' :: es)) c

/-- What may be written for a text between the quotes of a string. -/
inductive Spells : List Char → List Char → Prop
  | nil : Spells [] []
  | cons {w v : List Char} {c : Char} {s : List Char} (hc : SpellsChar w c) (hs : Spells v s) :
      Spells (w ++ v) (c :: s)

/-- A code that completes a character. -/
theorem readStringFrom_code {ds : List Char} {n : Nat} {high : Option Nat} {c : Char}
    (h : Code ds n) (hc : unit n high = .ok (.inl c)) (s : List Char) :
    readStringFrom (.code 0 0 high) (ds ++ s) = consRead c (readStringFrom .plain s) := by
  obtain ⟨hd₁, hd₂, hd₃, hd₄⟩ := h
  simp [readStringFrom, hd₁, hd₂, hd₃, hd₄, hc]

/-- A code that waits for its low surrogate. -/
theorem readStringFrom_code_high {ds : List Char} {n high : Nat}
    (h : Code ds n) (hn : unit n none = .ok (.inr high)) (s : List Char) :
    readStringFrom (.code 0 0 none) (ds ++ s) = readStringFrom (.lowBackslash high) s := by
  obtain ⟨hd₁, hd₂, hd₃, hd₄⟩ := h
  simp [readStringFrom, hd₁, hd₂, hd₃, hd₄, hn]

/-- No character has the code of a surrogate. -/
theorem unit_of_char (c : Char) : unit c.toNat none = .ok (.inl c) := by
  have hvalid : c.toNat < 0xD800 ∨ 0xDFFF < c.toNat ∧ c.toNat < 0x110000 := c.valid
  unfold unit
  dsimp only
  rw [if_neg (by omega), if_neg (by omega), Char.ofNat_toNat]

/-- **Each form of a character is read as it**, whatever stands behind. -/
theorem readString_append {w : List Char} {c : Char} (h : SpellsChar w c) (s : List Char) :
    readString (w ++ s) = consRead c (readString s) := by
  unfold readString
  have hback : ∀ t, readStringFrom .plain ('\\' :: 'u' :: t) = readStringFrom (.code 0 0 none) t := by
    intro t
    rw [readStringFrom, if_neg (by decide), if_pos rfl, readStringFrom, if_pos rfl]
  cases h with
  | plain hquote hback hcontrol =>
      rw [List.singleton_append, readStringFrom, if_neg hquote, if_neg hback, if_neg (by omega)]
  | @simple e _ h =>
      have hu : e ≠ 'u' := by
        rintro rfl
        cases h
      rw [List.cons_append, List.singleton_append, readStringFrom, if_neg (by decide), if_pos rfl,
        readStringFrom, if_neg hu, h]
  | code h =>
      rw [List.cons_append, List.cons_append, hback]
      exact readStringFrom_code h (unit_of_char c) s
  | @pair ds es high low _ hds hes hhigh hlow hc =>
      have hwaits : unit high none = .ok (.inr high) := by
        unfold unit
        dsimp only
        rw [if_neg (by omega), if_pos hhigh]
      have hcomplete : unit low (some high) = .ok (.inl c) := by
        unfold unit
        dsimp only
        rw [if_pos hlow, ← hc, Char.ofNat_toNat]
      rw [List.cons_append, List.cons_append, hback, List.append_assoc,
        readStringFrom_code_high hds hwaits, List.cons_append, List.cons_append, readStringFrom,
        if_pos rfl, readStringFrom, if_pos rfl]
      exact readStringFrom_code hes hcomplete s

/-- **A string is read as the text that it spells.** -/
theorem readString_of_spells {w text : List Char} (h : Spells w text) (rest : List Char) :
    readString (w ++ '"' :: rest) = .ok (text, rest) := by
  induction h with
  | nil => rfl
  | cons hc hs ih =>
      rw [List.append_assoc, readString_append hc, ih]
      rfl

/-! ## §2. Strings that are written. -/

/-- What is written for a character spells it. -/
theorem spells_escape (c : Char) : SpellsChar (escape c) c := by
  unfold escape
  -- seven characters have a short escape
  iterate 7
    split
    · next hc =>
        subst hc
        exact .simple rfl
  split
  · next hcontrol =>
      have hcode : Code ['0', '0', Text.hexDigit (c.toNat / 16), Text.hexDigit (c.toNat % 16)]
          (16 * (16 * (16 * 0 + 0) + c.toNat / 16) + c.toNat % 16) :=
        .mk rfl rfl (Text.hexValue?_hexDigit _ (by omega)) (Text.hexValue?_hexDigit _ (by omega))
      have hvalue : 16 * (16 * (16 * 0 + 0) + c.toNat / 16) + c.toNat % 16 = c.toNat := by omega
      rw [hvalue] at hcode
      exact .code hcode
  · next hquote hback _ _ _ _ _ hcontrol => exact .plain hquote hback (by omega)

theorem spells_flatMap_escape (s : List Char) : Spells (s.flatMap escape) s := by
  induction s with
  | nil => exact .nil
  | cons c s ih =>
      rw [List.flatMap_cons]
      exact .cons (spells_escape c) ih

/-! ## §3. Blanks. -/

/-- Only blanks are in the text. -/
def AllBlank (b : List Char) : Prop := ∀ c ∈ b, isBlank c = true

theorem allBlank_nil : AllBlank [] := fun _ h => absurd h List.not_mem_nil

theorem skipBlanks_append {b : List Char} (hb : AllBlank b) {c : Char} (hc : isBlank c = false)
    (rest : List Char) : skipBlanks (b ++ c :: rest) = c :: rest := by
  refine Text.dropWhile_append hb fun d hd => ?_
  obtain rfl : c = d := Option.some.inj hd
  exact hc

theorem skipBlanks_of_allBlank {b : List Char} (hb : AllBlank b) : skipBlanks b = [] := by
  have hnil : (b ++ []).dropWhile isBlank = [].dropWhile isBlank := List.dropWhile_append_of_pos hb
  rwa [List.append_nil] at hnil

end JsonText

namespace Settings

open JsonText

/-! ## §4. Lists of names. -/

/-- What may be written behind a member of an array, up to its bracket. -/
inductive SpellsMore : List Char → List String → Prop
  | close {b : List Char} (hb : AllBlank b) : SpellsMore (b ++ [']']) []
  | next {b₁ b₂ w more : List Char} {name : String} {names : List String} (hb₁ : AllBlank b₁)
      (hb₂ : AllBlank b₂) (hw : Spells w name.toList) (hmore : SpellsMore more names) :
      SpellsMore (b₁ ++ ',' :: (b₂ ++ '"' :: (w ++ '"' :: more))) (name :: names)

/-- What may be written for an array of names, behind its bracket. -/
inductive SpellsNames : List Char → List String → Prop
  | empty {b : List Char} (hb : AllBlank b) : SpellsNames (b ++ [']']) []
  | first {b w more : List Char} {name : String} {names : List String} (hb : AllBlank b)
      (hw : Spells w name.toList) (hmore : SpellsMore more names) :
      SpellsNames (b ++ '"' :: (w ++ '"' :: more)) (name :: names)

theorem SpellsMore.length_lt {t : List Char} {names : List String} (h : SpellsMore t names) :
    names.length < t.length := by
  induction h with
  | close hb => simp
  | next hb₁ hb₂ hw hmore ih =>
      simp only [List.length_append, List.length_cons]
      omega

/-- The name of a member is read, and then those behind it. -/
theorem readName_of_spells {w tail rest : List Char} {name : String} {names : List String}
    {budget : List Char} (hw : Spells w name.toList)
    (htail : readNames budget false tail = .ok (names, rest)) :
    readNames.readName budget ('"' :: (w ++ '"' :: tail)) = .ok (name :: names, rest) := by
  rw [readNames.readName, readString_of_spells hw]
  dsimp only
  rw [htail, String.ofList_toList]

theorem readNames_of_spellsMore {t : List Char} {names : List String} (h : SpellsMore t names)
    (rest : List Char) : ∀ budget : List Char, names.length < budget.length →
      readNames budget false (t ++ rest) = .ok (names, rest) := by
  induction h with
  | close hb =>
      rintro (_ | ⟨_, budget⟩) hbudget
      · cases hbudget
      · rw [List.append_assoc, List.singleton_append, readNames, skipBlanks_append hb rfl]
        rfl
  | @next b₁ b₂ w more name names hb₁ hb₂ hw hmore ih =>
      rintro (_ | ⟨_, budget⟩) hbudget
      · cases hbudget
      · have htail := ih budget (Nat.lt_of_succ_lt_succ hbudget)
        have htext : b₁ ++ ',' :: (b₂ ++ '"' :: (w ++ '"' :: more)) ++ rest
            = b₁ ++ ',' :: (b₂ ++ '"' :: (w ++ '"' :: (more ++ rest))) := by simp
        rw [htext, readNames, skipBlanks_append hb₁ rfl]
        dsimp only
        rw [if_neg (by decide), if_neg (by decide), if_pos rfl, skipBlanks_append hb₂ rfl]
        exact readName_of_spells hw htail

theorem SpellsNames.length_lt {t : List Char} {names : List String} (h : SpellsNames t names) :
    names.length < t.length := by
  cases h with
  | empty hb => simp
  | first hb hw hmore =>
      have := hmore.length_lt
      simp only [List.length_append, List.length_cons]
      omega

theorem readNames_of_spellsNames {t : List Char} {names : List String} (h : SpellsNames t names)
    (rest : List Char) {budget : List Char} (hbudget : names.length < budget.length) :
    readNames budget true (t ++ rest) = .ok (names, rest) := by
  rcases budget with _ | ⟨_, budget⟩
  · cases hbudget
  cases h with
  | empty hb =>
      rw [List.append_assoc, List.singleton_append, readNames, skipBlanks_append hb rfl]
      rfl
  | @first b w more name names hb hw hmore =>
      have htail := readNames_of_spellsMore hmore rest budget (Nat.lt_of_succ_lt_succ hbudget)
      have htext : b ++ '"' :: (w ++ '"' :: more) ++ rest
          = b ++ '"' :: (w ++ '"' :: (more ++ rest)) := by simp
      rw [htext, readNames, skipBlanks_append hb rfl]
      dsimp only
      rw [if_neg (by decide), if_pos rfl]
      exact readName_of_spells hw htail

/-- **A list of names is read as the names that it spells.** -/
theorem readList_of_spells {b body : List Char} {names : List String} (hb : AllBlank b)
    (h : SpellsNames body names) (rest : List Char) :
    readList (b ++ '[' :: (body ++ rest)) = .ok (names, rest) := by
  -- the text behind the bracket is the budget, and every name takes some of it
  have hbudget : names.length < (body ++ rest).length := by
    have := h.length_lt
    rw [List.length_append]
    omega
  unfold readList
  rw [skipBlanks_append hb rfl]
  exact readNames_of_spellsNames h rest hbudget

/-! ## §5. Settings. -/

/-- What may be written for settings: an object with their one key, and blanks
anywhere between its marks. -/
inductive SpellsSettings : List Char → Settings → Prop
  | mk {b₁ b₂ b₃ b₄ b₅ b₆ key body : List Char} {names : List String} (hb₁ : AllBlank b₁)
      (hb₂ : AllBlank b₂) (hb₃ : AllBlank b₃) (hb₄ : AllBlank b₄) (hb₅ : AllBlank b₅)
      (hb₆ : AllBlank b₆) (hkey : Spells key "watchedModules".toList)
      (hbody : SpellsNames body names) :
      SpellsSettings (b₁ ++ '\x7b' :: (b₂ ++ '"' :: (key ++ '"' :: (b₃ ++ ':' :: (b₄ ++ '[' ::
        (body ++ (b₅ ++ '\x7d' :: b₆))))))) ⟨names⟩

/-- The object is complete behind its one member. -/
theorem readMembers_close {b : List Char} (hb : AllBlank b) (names : List String)
    (rest : List Char) {budget : List Char} (hbudget : 0 < budget.length) :
    readMembers budget false (some names) (b ++ '\x7d' :: rest) = .ok (some names, rest) := by
  rcases budget with _ | ⟨_, budget⟩
  · cases hbudget
  · rw [readMembers, skipBlanks_append hb rfl]
    rfl

/-- The one member is read, and the brace behind it. -/
theorem readMembers_of_spells {b₂ b₃ b₄ b₅ key body : List Char} {names : List String}
    (hb₂ : AllBlank b₂) (hb₃ : AllBlank b₃) (hb₄ : AllBlank b₄) (hb₅ : AllBlank b₅)
    (hkey : Spells key "watchedModules".toList) (hbody : SpellsNames body names)
    (rest : List Char) {budget : List Char} (hbudget : 1 < budget.length) :
    readMembers budget true none
        (b₂ ++ '"' :: (key ++ '"' :: (b₃ ++ ':' :: (b₄ ++ '[' :: (body ++ (b₅ ++ '\x7d' :: rest))))))
      = .ok (some names, rest) := by
  rcases budget with _ | ⟨_, budget⟩
  · cases hbudget
  have hclose := readMembers_close hb₅ names rest (Nat.lt_of_succ_lt_succ hbudget)
  rw [readMembers, skipBlanks_append hb₂ rfl]
  dsimp only
  rw [if_neg (by decide), if_pos rfl, if_pos rfl, readMembers.readMember,
    readString_of_spells hkey]
  dsimp only
  rw [if_neg (by simp), skipBlanks_append hb₃ rfl]
  simp only [if_true, readList_of_spells hb₄ hbody]
  exact hclose

/-- **Settings are read from whatever spells them.** -/
theorem ofJson_of_spells {text : String} {s : Settings} (h : SpellsSettings text.toList s) :
    ofJson text = .ok s := by
  generalize htext : text.toList = t at h
  cases h with
  | @mk b₁ b₂ b₃ b₄ b₅ b₆ key body names hb₁ hb₂ hb₃ hb₄ hb₅ hb₆ hkey hbody =>
      generalize hbehind : b₂ ++ '"' :: (key ++ '"' :: (b₃ ++ ':' :: (b₄ ++ '[' ::
        (body ++ (b₅ ++ '\x7d' :: b₆))))) = behind at htext
      -- the text behind the brace is the budget, and its key has two quotes
      have hbudget : 1 < behind.length := by
        rw [← hbehind]
        simp only [List.length_append, List.length_cons]
        omega
      have hread := readMembers_of_spells hb₂ hb₃ hb₄ hb₅ hkey hbody b₆ hbudget
      rw [hbehind] at hread
      unfold ofJson
      rw [htext, skipBlanks_append hb₁ rfl]
      simp only [hread, skipBlanks_of_allBlank hb₆]
      rfl

/-! ## §6. What is written. -/

theorem intercalate_cons (w : List Char) (ws : List (List Char)) :
    [','].intercalate (w :: ws) = w ++ ws.flatMap (',' :: ·) := by
  induction ws generalizing w with
  | nil => simp
  | cons v ws ih => rw [List.intercalate_cons_cons, ih, List.flatMap_cons]; simp

theorem spellsMore_flatMap (names : List String) :
    SpellsMore ((names.map fun name => writeString name.toList).flatMap (',' :: ·) ++ [']']) names := by
  induction names with
  | nil => exact .close allBlank_nil
  | cons name names ih =>
      have h := SpellsMore.next allBlank_nil allBlank_nil (spells_flatMap_escape name.toList) ih
      simpa [writeString] using h

theorem spellsNames_intercalate (names : List String) :
    SpellsNames ([','].intercalate (names.map fun name => writeString name.toList) ++ [']']) names := by
  cases names with
  | nil => exact .empty allBlank_nil
  | cons name names =>
      have h := SpellsNames.first allBlank_nil (spells_flatMap_escape name.toList)
        (spellsMore_flatMap names)
      rw [List.map_cons, intercalate_cons]
      simpa [writeString] using h

theorem spellsSettings_toJson (s : Settings) : SpellsSettings s.toJson.toList s := by
  have hkey : Spells "watchedModules".toList "watchedModules".toList :=
    spells_flatMap_escape "watchedModules".toList
  have h := SpellsSettings.mk allBlank_nil allBlank_nil allBlank_nil allBlank_nil allBlank_nil
    allBlank_nil hkey (spellsNames_intercalate s.watchedModules)
  have hopening : "\x7b\"watchedModules\":[".toList
      = '\x7b' :: '"' :: ("watchedModules".toList ++ ['"', ':', '[']) := rfl
  have hclosing : "]\x7d".toList = [']', '\x7d'] := rfl
  unfold toJson
  rw [String.toList_ofList, hopening, hclosing]
  simpa using h

example : (Settings.mk ["a\"\n\x01"]).toJson
    = "\x7b\"watchedModules\":[\"a\\\"\\n\\u0001\"]\x7d" := by decide +kernel

/-- **Settings are read back from what is written for them**, which is JSON text. -/
theorem ofJson_toJson (s : Settings) : SpellsSettings s.toJson.toList s ∧ ofJson s.toJson = .ok s :=
  ⟨spellsSettings_toJson s, ofJson_of_spells (spellsSettings_toJson s)⟩

end Settings

end ImportSplit
