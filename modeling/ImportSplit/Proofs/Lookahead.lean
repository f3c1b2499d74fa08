/-
  ImportSplit.Proofs.Lookahead
  ────────────────────────────────
  **HOW FAR A READER LOOKS AHEAD.**

  A reader that looks at the start of a text has seen enough when it comes to a
  character that goes on with nothing.  What it found is then the same in front
  of any other text:

      word      `map(`      is `map`, whatever follows
                `map`       may go on
      gap       ` // a⏎ b`  ends before `b`
                ` // a`     may go on
      end       ` ;`        does not end a statement of itself
                `⏎ b`       does
                `⏎`         depends on the next line

  So for each function that looks at a text there is a check that the text
  decides it (`Lexeme.isDecided`, `gapDecided`, `absorbedDecided`), and a lemma
  that nothing behind such a text counts.  The checks are computed; what they
  refuse may still be decided.
-/
import Mathlib.Data.List.TakeWhile
import ImportSplit.Proofs.Unbounded

namespace ImportSplit.Grammar

/-! ## §1. Fronts of a text. -/

section
variable {p : Char → Bool} {w s : List Char}

theorem length_takeWhile_lt_of_any (h : s.any (fun c => !p c) = true) :
    (s.takeWhile p).length < s.length := by
  refine Nat.lt_of_le_of_ne (List.takeWhile_prefix p).length_le fun hlength => ?_
  obtain ⟨c, hc, hp⟩ := List.any_eq_true.1 h
  rw [← (List.takeWhile_prefix p).eq_of_length hlength] at hc
  rw [List.all_eq_true.1 List.all_takeWhile c hc] at hp
  cases hp

theorem takeWhile_append_of_any (h : s.any (fun c => !p c) = true) (tail : List Char) :
    (s ++ tail).takeWhile p = s.takeWhile p := by
  rw [List.takeWhile_append, if_neg (Nat.ne_of_lt (length_takeWhile_lt_of_any h))]

theorem dropWhile_ne_nil_iff : s.dropWhile p ≠ [] ↔ s.any (fun c => !p c) = true := by
  simp [List.dropWhile_eq_nil_iff]

theorem dropWhile_append_of_ne_nil (h : s.dropWhile p ≠ []) (tail : List Char) :
    (s ++ tail).dropWhile p = s.dropWhile p ++ tail := by
  rw [List.dropWhile_append, if_neg fun hempty => h (List.isEmpty_iff.1 hempty)]

/-- Whether a text starts with `w` does not depend on what follows it. -/
def knowsPrefix (w s : List Char) : Bool := decide (w.length ≤ s.length) || !s.isPrefixOf w

theorem isPrefixOf_append (h : knowsPrefix w s = true) (tail : List Char) :
    w.isPrefixOf (s ++ tail) = w.isPrefixOf s := by
  rw [Bool.eq_iff_iff, List.isPrefixOf_iff_prefix, List.isPrefixOf_iff_prefix]
  constructor
  · intro hw
    rcases Bool.or_eq_true _ _ ▸ h with hlength | hnot
    · exact List.prefix_of_prefix_length_le hw (List.prefix_append s tail) (of_decide_eq_true hlength)
    · by_cases hle : w.length ≤ s.length
      · exact List.prefix_of_prefix_length_le hw (List.prefix_append s tail) hle
      · -- a longer word would go on with the text
        have hfront := List.prefix_of_prefix_length_le (List.prefix_append s tail) hw (by omega)
        rw [List.isPrefixOf_iff_prefix.2 hfront] at hnot
        cases hnot
  · exact fun hw => hw.trans (List.prefix_append s tail)

end

namespace Scanner

variable {σ : Type} {m : Scanner σ}

/-- The scanner comes to a character for which it has no move. -/
def halts (m : Scanner σ) : σ → List Char → Bool
  | _, [] => false
  | s, c :: rest =>
      match m.move s c with
      | some s' => halts m s' rest
      | none => true

theorem longestFrom_append_of_halts {t : List Char} :
    ∀ {s : σ} {read : Nat} {best : Option Nat}, m.halts s t = true → ∀ tail : List Char,
      m.longestFrom s read best (t ++ tail) = m.longestFrom s read best t := by
  induction t with
  | nil =>
      intro s read best h
      cases h
  | cons c t ih =>
      intro s read best h tail
      unfold halts at h
      rw [List.cons_append]
      unfold longestFrom
      cases hmove : m.move s c with
      | none => rfl
      | some s' =>
          rw [hmove] at h
          exact ih h tail

/-- **Where a scanner halts in a text, what follows the text does not count.** -/
theorem longest?_append_of_halts {t : List Char} (h : m.halts m.start t = true)
    (tail : List Char) : m.longest? (t ++ tail) = m.longest? t :=
  longestFrom_append_of_halts h tail

end Scanner

/-! ## §2. Tokens. -/

/-- A piece of a template ends in the text. -/
def templateHalts : List Char → Bool
  | [] => false
  | c :: rest =>
      if c = '$' then !rest.isEmpty && (rest.head? == some '\x7b' || templateHalts rest)
      else c == '\x60' || c == '\\' || templateHalts rest

theorem templateText?_go_cons {c : Char} (n : Nat) (rest : List Char) :
    templateText?.go n (c :: rest)
      = if c = '\x60' ∨ c = '\\' ∨ c = '$' ∧ rest.head? = some '\x7b' then
          if n = 0 then none else some n
        else templateText?.go (n + 1) rest := by
  conv => lhs; unfold templateText?.go
  split
  case h_1 heq => cases heq
  case h_2 => simp_all
  case h_3 => simp_all
  case h_4 => simp_all
  case h_5 hquote hslash hdollar heq =>
    obtain ⟨rfl, rfl⟩ := List.cons.inj heq
    rw [if_neg]
    rintro (rfl | rfl | ⟨rfl, hbrace⟩)
    · exact hquote rfl
    · exact hslash rfl
    · obtain ⟨tail, htail⟩ := List.head?_eq_some_iff.1 hbrace
      exact hdollar tail rfl htail

theorem templateText?_go_append {s : List Char} :
    ∀ {n : Nat}, templateHalts s = true → ∀ tail : List Char,
      templateText?.go n (s ++ tail) = templateText?.go n s := by
  induction s with
  | nil => exact fun h => by cases h
  | cons c rest ih =>
      intro n h tail
      rw [List.cons_append, templateText?_go_cons, templateText?_go_cons]
      -- only behind a dollar sign the next character counts
      have hhead : c = '$' → (rest ++ tail).head? = rest.head? := by
        rintro rfl
        cases rest with
        | nil => cases h
        | cons e rest => rfl
      have hiff : (c = '\x60' ∨ c = '\\' ∨ c = '$' ∧ (rest ++ tail).head? = some '\x7b')
          ↔ (c = '\x60' ∨ c = '\\' ∨ c = '$' ∧ rest.head? = some '\x7b') :=
        or_congr_right (or_congr_right (and_congr_right fun hc => by rw [hhead hc]))
      by_cases hstop : c = '\x60' ∨ c = '\\' ∨ c = '$' ∧ rest.head? = some '\x7b'
      · rw [if_pos hstop, if_pos (hiff.2 hstop)]
      · rw [if_neg hstop, if_neg fun hmore => hstop (hiff.1 hmore)]
        refine ih ?_ tail
        simp only [not_or, not_and] at hstop
        unfold templateHalts at h
        split at h
        · next hc =>
            have hbrace : (rest.head? == some '\x7b') = false := beq_eq_false_iff_ne.2 (hstop.2.2 hc)
            rw [hbrace, Bool.false_or] at h
            exact (Bool.and_eq_true _ _ ▸ h).2
        · simpa [hstop.1, hstop.2.1] using h

/-- A name with a dash, or none, whatever follows. -/
def dashedDecided : List Char → Bool
  | [] => false
  | c :: rest =>
      !(c.isAlpha || c == '_' || c == '$')
        || rest.any fun c => !(c.isAlphanum || c == '_' || c == '$' || c == '-')

theorem dashedName?_append {s : List Char} (h : dashedDecided s = true) (tail : List Char) :
    dashedName? (s ++ tail) = dashedName? s := by
  cases s with
  | nil => cases h
  | cons c rest =>
      rw [List.cons_append]
      unfold dashedDecided at h
      simp only [dashedName?]
      rcases Bool.or_eq_true _ _ ▸ h with hfirst | hmore
      · simp only [Bool.not_eq_true'] at hfirst
        simp only [hfirst, Bool.false_and, Bool.false_eq_true, if_false]
      · rw [takeWhile_append_of_any hmore]

/-- What the token of a form is at the start of the text, and that it stands in the
text, does not depend on what follows.  A character reference is not followed up. -/
def Lexeme.isDecided (s : List Char) : Lexeme → Bool
  | keyword w => knowsPrefix w s && (!w.isPrefixOf s || word.halts .start s)
  | name _ => word.halts .start s
  | sign cs butNot =>
      knowsPrefix cs s && (!cs.isPrefixOf s || butNot.all (knowsPrefix · (s.drop cs.length)))
  | privateName => Grammar.privateName.halts none s
  | number => Grammar.number.halts .start s
  | string => (quoted '"').halts .start s && (quoted '\'').halts .start s
  | regex => Grammar.regex.halts .start s
  | templateText => templateHalts s
  | escape => escaped.halts .start s
  | hashbang => knowsPrefix ['#', '!'] s && (!(['#', '!'].isPrefixOf s) || s.any (· == '\n'))
  | markupName => dashedDecided s && word.halts .start s
  | markupText => s.any fun c => c == '<' || c == '>' || c == '\x7b' || c == '\x7d' || c == '&'
  | markupString => s.head?.elim false fun q => (q != '"' && q != '\'') || s.tail.any (· == q)
  | reference => s.head?.elim false (· != '&')

/-- **Where a token is decided in a text, it is the same in front of any other.** -/
theorem Lexeme.size?_append {s : List Char} {lexeme : Lexeme} (h : lexeme.isDecided s = true)
    (tail : List Char) : lexeme.size? (s ++ tail) = lexeme.size? s := by
  cases lexeme with
  | keyword w =>
      obtain ⟨hfront, hword⟩ := Bool.and_eq_true _ _ ▸ h
      simp only [size?, isPrefixOf_append hfront tail]
      by_cases hw : w.isPrefixOf s = true
      · rw [hw, Bool.not_true, Bool.false_or] at hword
        rw [Scanner.longest?_append_of_halts hword]
      · rw [if_neg hw, if_neg hw]
  | name besides =>
      simp only [size?, Scanner.longest?_append_of_halts (m := word) h tail]
      cases hword : word.longest? s with
      | none => rfl
      | some n =>
          simp only
          rw [List.take_append_of_le_length (Scanner.run_of_longest? hword).1]
  | sign cs butNot =>
      obtain ⟨hfront, hnot⟩ := Bool.and_eq_true _ _ ▸ h
      simp only [size?, isPrefixOf_append hfront tail]
      by_cases hcs : cs.isPrefixOf s = true
      · rw [hcs, Bool.not_true, Bool.false_or] at hnot
        have hle := (List.isPrefixOf_iff_prefix.1 hcs).length_le
        have hall : (butNot.all fun t => !t.isPrefixOf ((s ++ tail).drop cs.length))
            = butNot.all fun t => !t.isPrefixOf (s.drop cs.length) := by
          rw [List.drop_append_of_le_length hle]
          rw [Bool.eq_iff_iff, List.all_eq_true, List.all_eq_true]
          refine forall₂_congr fun t ht => ?_
          rw [isPrefixOf_append (List.all_eq_true.1 hnot t ht)]
        rw [hall]
      · simp only [hcs, Bool.false_and, Bool.false_eq_true, if_false]
  | privateName => exact Scanner.longest?_append_of_halts h tail
  | number => exact Scanner.longest?_append_of_halts h tail
  | string =>
      obtain ⟨hdouble, hsingle⟩ := Bool.and_eq_true _ _ ▸ h
      simp only [size?, Scanner.longest?_append_of_halts (m := quoted '"') hdouble tail,
        Scanner.longest?_append_of_halts (m := quoted '\'') hsingle tail]
  | regex => exact Scanner.longest?_append_of_halts h tail
  | templateText => exact templateText?_go_append h tail
  | escape => exact Scanner.longest?_append_of_halts h tail
  | hashbang =>
      obtain ⟨hfront, hend⟩ := Bool.and_eq_true _ _ ▸ h
      simp only [size?, hashbang?, isPrefixOf_append hfront tail]
      by_cases hsign : ['#', '!'].isPrefixOf s = true
      · rw [hsign, Bool.not_true, Bool.false_or] at hend
        rw [takeWhile_append_of_any (by simpa using hend)]
      · rw [if_neg hsign, if_neg hsign]
  | markupName =>
      obtain ⟨hdashed, hword⟩ := Bool.and_eq_true _ _ ▸ h
      simp only [size?, markupName?, dashedName?_append hdashed tail,
        Scanner.longest?_append_of_halts (m := word) hword tail]
  | markupText =>
      simp only [size?, markupText?]
      rw [takeWhile_append_of_any (by simpa [isDecided] using h)]
  | markupString =>
      cases s with
      | nil => cases h
      | cons q rest =>
          rw [List.cons_append]
          simp only [size?, markupString?]
          by_cases hq : (q == '"' || q == '\'') = true
          · have hclosed : rest.any (fun c => !decide (c ≠ q)) = true := by
              have hquote : (q != '"' && q != '\'') = false := by
                simp only [bne, ← Bool.not_or, hq, Bool.not_true]
              have hrest : (q != '"' && q != '\'' || rest.any (· == q)) = true := h
              rw [hquote, Bool.false_or] at hrest
              simpa using hrest
            have hlt := length_takeWhile_lt_of_any hclosed
            rw [takeWhile_append_of_any hclosed, if_pos hq, if_pos hq, if_pos hlt, if_pos]
            rw [List.length_append]
            omega
          · rw [if_neg hq, if_neg hq]
  | reference =>
      cases s with
      | nil => cases h
      | cons c rest =>
          have hc : c ≠ '&' := by simpa [isDecided] using h
          simp [size?, reference?, hc]

/-! ## §3. Gaps. -/

/-- Whether a comment stands here does not depend on what follows the text. -/
def commentDecided (withMarkup : Bool) (s : List Char) : Bool :=
  comment.halts .start s
    && (!withMarkup || (comment.longest? s).isSome
      || (knowsPrefix ['<', '!', '-', '-'] s && knowsPrefix ['-', '-', '>'] s
        && ((markupComment? s).isNone || s.any Text.isLineEnd)))

theorem commentHere?_append_of_decided {m : Bool} {s : List Char}
    (h : commentDecided m s = true) (tail : List Char) :
    commentHere? m (s ++ tail) = commentHere? m s := by
  obtain ⟨hhalts, hmarkup⟩ := Bool.and_eq_true _ _ ▸ h
  unfold commentHere?
  rw [Scanner.longest?_append_of_halts (m := comment) hhalts tail]
  cases hlongest : comment.longest? s with
  | some n => rfl
  | none =>
      cases m with
      | false => rfl
      | true =>
          rw [hlongest, Bool.not_true, Option.isSome_none, Bool.false_or, Bool.false_or] at hmarkup
          obtain ⟨hknown, hend⟩ := Bool.and_eq_true _ _ ▸ hmarkup
          obtain ⟨hopen, hclose⟩ := Bool.and_eq_true _ _ ▸ hknown
          simp only [if_true]
          congr 1
          unfold markupComment? at hend ⊢
          rw [isPrefixOf_append hopen, isPrefixOf_append hclose]
          split
          · next hsign =>
              rw [if_pos hsign, Option.isNone_some, Bool.false_or] at hend
              rw [takeWhile_append_of_any (by simpa using hend)]
          · rfl

/-- A comment stands in the text. -/
theorem le_length_of_commentHere? {m : Bool} {s : List Char} {kind : String} {n : Nat}
    (h : commentHere? m s = some (kind, n)) : n ≤ s.length := by
  unfold commentHere? at h
  split at h
  · next hlongest =>
      cases h
      exact (Scanner.run_of_longest? hlongest).1
  · split at h
    · obtain ⟨k, hk, hpair⟩ := Option.map_eq_some_iff.1 h
      cases hpair
      unfold markupComment? at hk
      split at hk
      · cases hk
        exact (List.takeWhile_prefix _).length_le
      · cases hk
    · cases h

/-- What the gap at the start of the text takes does not depend on what follows. -/
def gapDecided (withMarkup : Bool) : (budget : List Char) → List Char → Bool
  | [], _ => false
  | _ :: budget, s =>
      let s := s.dropWhile Text.isGap
      commentDecided withMarkup s
        && match commentHere? withMarkup s with
          | none => true
          | some (_, n) => gapDecided withMarkup budget (s.drop n)

/-- **A gap that is decided ends in the text.** -/
theorem readGap_append {m : Bool} (more tail budget : List Char) :
    ∀ {s : List Char} (row : List Part), gapDecided m budget s = true →
      readGap m (budget ++ more) row (s ++ tail)
        = ((readGap m budget row s).1, (readGap m budget row s).2 ++ tail) := by
  induction budget with
  | nil =>
      intro s row h
      cases h
  | cons b budget ih =>
      intro s row h
      simp only [gapDecided] at h
      obtain ⟨hcomment, hrest⟩ := Bool.and_eq_true _ _ ▸ h
      have hne : s.dropWhile Text.isGap ≠ [] := by
        intro hnil
        rw [hnil] at hcomment
        cases hcomment
      -- the blanks end in the text
      have hblanks := takeWhile_append_of_any (dropWhile_ne_nil_iff.1 hne) tail
      have hle : (s.takeWhile Text.isGap).length ≤ s.length := (List.takeWhile_prefix _).length_le
      rw [List.cons_append]
      simp only [readGap]
      rw [hblanks, List.take_append_of_le_length hle, List.drop_append_of_le_length hle, drop_takeWhile,
        commentHere?_append_of_decided hcomment]
      cases hhere : commentHere? m (s.dropWhile Text.isGap) with
      | none => rfl
      | some x =>
          obtain ⟨kind, n⟩ := x
          rw [hhere] at hrest
          have hn := le_length_of_commentHere? hhere
          simp only
          rw [List.take_append_of_le_length hn, List.drop_append_of_le_length hn]
          exact ih _ hrest

/-! ## §4. Ends of statements. -/

namespace Semicolon

open Text

/-- A block comment is closed in the text. -/
def closesBlock : List Char → Bool
  | [] => false
  | c :: rest => (c == '*' && rest.head? == some '/') || closesBlock rest

theorem skipBlock_cons (spans : Bool) (c : Char) (rest : List Char) :
    skipBlock spans (c :: rest)
      = if c = '*' ∧ rest.head? = some '/' then (spans, rest.tail)
        else skipBlock (spans || isLineEnd c) rest := by
  conv => lhs; unfold skipBlock
  split
  case h_1 heq => cases heq
  case h_2 => simp_all
  case h_3 hclose heq =>
    obtain ⟨rfl, rfl⟩ := List.cons.inj heq
    rw [if_neg]
    rintro ⟨rfl, hslash⟩
    obtain ⟨tail, htail⟩ := List.head?_eq_some_iff.1 hslash
    exact hclose tail rfl htail

theorem skipBlock_append {s : List Char} :
    ∀ {spans : Bool}, closesBlock s = true → ∀ tail : List Char,
      skipBlock spans (s ++ tail) = ((skipBlock spans s).1, (skipBlock spans s).2 ++ tail) := by
  induction s with
  | nil => exact fun h => by cases h
  | cons c rest ih =>
      intro spans h tail
      unfold closesBlock at h
      have hne : rest ≠ [] := by
        rintro rfl
        simp [closesBlock] at h
      obtain ⟨e, rest, rfl⟩ := List.exists_cons_of_ne_nil hne
      rw [List.cons_append, skipBlock_cons, skipBlock_cons]
      -- the head behind the character stands in the text
      show (if c = '*' ∧ (e :: rest).head? = some '/' then (spans, rest ++ tail)
        else skipBlock (spans || isLineEnd c) (e :: rest ++ tail)) = _
      by_cases hclose : c = '*' ∧ (e :: rest).head? = some '/'
      · rw [if_pos hclose, if_pos hclose]
        rfl
      · rw [if_neg hclose, if_neg hclose]
        have hnot : (c == '*' && (e :: rest).head? == some '/') = false := by
          simpa using hclose
        rw [hnot, Bool.false_or] at h
        exact ih h tail

/-- What was skipped, in front of more text. -/
def Skipped.before (tail : List Char) : Skipped → Skipped
  | slash => slash
  | inLine rest => inLine (rest ++ tail)
  | upTo rest => upTo (rest ++ tail)

/-- What is skipped ends in the text. -/
def skipDecided (all : Bool) : (budget : List Char) → (spans : Bool) → List Char → Bool
  | [], _, _ => false
  | _ :: budget, spans, s =>
      match s.dropWhile isPlainBlank with
      | [] | ['/'] => false
      | '/' :: '/' :: rest => skipDecided all budget spans (rest.dropWhile fun c => !isLineEnd c)
      | '/' :: '*' :: rest =>
          closesBlock rest &&
            let (spans, rest) := skipBlock spans rest
            if !all && rest.head? ≠ some '/' then !rest.isEmpty
            else skipDecided all budget spans rest
      | _ => true

theorem dropWhile_ne_nil_of_skipDecided {all : Bool} {budget : List Char} {spans : Bool}
    {s : List Char} (h : skipDecided all budget spans s = true) :
    s.dropWhile isPlainBlank ≠ [] := by
  intro hnil
  cases budget with
  | nil => cases h
  | cons b budget =>
      unfold skipDecided at h
      rw [hnil] at h
      cases h

theorem skip_append {all : Bool} (more tail budget : List Char) :
    ∀ {spans : Bool} {s : List Char}, skipDecided all budget spans s = true →
      skip all (budget ++ more) spans (s ++ tail) = (skip all budget spans s).before tail := by
  induction budget with
  | nil =>
      intro spans s h
      cases h
  | cons b budget ih =>
      intro spans s h
      have hne := dropWhile_ne_nil_of_skipDecided h
      rw [List.cons_append]
      unfold skip
      rw [dropWhile_append_of_ne_nil hne]
      unfold skipDecided at h
      generalize s.dropWhile isPlainBlank = t at h hne
      split at h
      case h_1 => cases h
      case h_2 => cases h
      case h_3 rest =>
        have hend : (rest.dropWhile fun c => !isLineEnd c) ≠ [] := by
          intro hnil
          rw [hnil] at h
          exact dropWhile_ne_nil_of_skipDecided h rfl
        show skip all (budget ++ more) spans ((rest ++ tail).dropWhile fun c => !isLineEnd c) = _
        rw [dropWhile_append_of_ne_nil hend]
        exact ih h
      case h_4 rest =>
        obtain ⟨hclose, hmore⟩ := Bool.and_eq_true _ _ ▸ h
        simp only [List.cons_append, skipBlock_append hclose tail]
        generalize skipBlock spans rest = x at hmore ⊢
        obtain ⟨spans', rest'⟩ := x
        simp only at hmore ⊢
        have hne' : rest' ≠ [] := by
          rintro rfl
          split at hmore
          · cases hmore
          · exact dropWhile_ne_nil_of_skipDecided hmore rfl
        obtain ⟨e, rest', rfl⟩ := List.exists_cons_of_ne_nil hne'
        have hhead : (e :: rest' ++ tail).head? = (e :: rest').head? := rfl
        rw [hhead]
        split at hmore
        · next hstop =>
            rw [if_pos hstop, if_pos hstop]
            cases spans' <;> rfl
        · next hgo =>
            rw [if_neg hgo, if_neg hgo]
            exact ih hmore
      case h_5 hnil hslash hline hblock =>
        obtain ⟨c, t, rfl⟩ := List.exists_cons_of_ne_nil hne
        by_cases hc : c = '/'
        · subst hc
          cases t with
          | nil => exact absurd rfl hslash
          | cons e t =>
              have he : e ≠ '/' := by
                rintro rfl
                exact hline t rfl
              have he' : e ≠ '*' := by
                rintro rfl
                exact hblock t rfl
              simp [he, he', Skipped.before]
        · simp [hc, Skipped.before]

/-- What the line begins with does not depend on what follows the text. -/
def lineDecided : List Char → Bool
  | [] => false
  | c :: rest =>
      if c == '.' || c == '+' || c == '-' || c == '!' then !rest.isEmpty
      else c != 'i' || (decided "in".toList (c :: rest) && decided "instanceof".toList (c :: rest))
where
  /-- The word stands in the text, and a character behind it, or it does not. -/
  decided (w s : List Char) : Bool :=
    knowsPrefix w s && (!w.isPrefixOf s || decide (w.length < s.length))

theorem goesOn_append {w s : List Char} (h : lineDecided.decided w s = true) (tail : List Char) :
    startsWithIn.goesOn w (s ++ tail) = startsWithIn.goesOn w s := by
  obtain ⟨hfront, hbehind⟩ := Bool.and_eq_true _ _ ▸ h
  unfold startsWithIn.goesOn
  rw [isPrefixOf_append hfront]
  by_cases hw : w.isPrefixOf s = true
  · rw [hw, Bool.not_true, Bool.false_or, decide_eq_true_eq] at hbehind
    have hne : s.drop w.length ≠ [] := fun hnil => by
      have hlength := congrArg List.length hnil
      rw [List.length_drop, List.length_nil] at hlength
      omega
    obtain ⟨e, t, ht⟩ := List.exists_cons_of_ne_nil hne
    rw [List.drop_append_of_le_length (Nat.le_of_lt hbehind), ht]
    rfl
  · rw [Bool.not_eq_true] at hw
    rw [hw, Bool.false_and, Bool.false_and]

theorem beginsStatement_append {d : Dialect} {operators : Bool} {s : List Char}
    (h : lineDecided s = true) (tail : List Char) :
    beginsStatement d operators (s ++ tail) = beginsStatement d operators s := by
  cases s with
  | nil => cases h
  | cons c rest =>
      rw [List.cons_append]
      simp only [lineDecided] at h
      simp only [beginsStatement]
      by_cases hsign : (c == '.' || c == '+' || c == '-' || c == '!') = true
      · rw [if_pos hsign, Bool.not_eq_true', List.isEmpty_eq_false_iff] at h
        obtain ⟨e, t, rfl⟩ := List.exists_cons_of_ne_nil h
        simp only [Bool.or_eq_true, beq_iff_eq] at hsign
        rcases hsign with ((rfl | rfl) | rfl) | rfl <;> rfl
      · rw [if_neg hsign] at h
        rw [Bool.not_eq_true] at hsign
        simp only [Bool.or_eq_false_iff] at hsign
        obtain ⟨⟨⟨hpoint, hplus⟩, hminus⟩, hbang⟩ := hsign
        simp only [hpoint, hplus, hminus, hbang, Bool.or_self, Bool.false_eq_true, if_false]
        by_cases hi : c = 'i'
        · subst hi
          obtain ⟨hin, hinstance⟩ := Bool.and_eq_true _ _ ▸ h
          have hsame := goesOn_append hin tail
          have hsame' := goesOn_append hinstance tail
          rw [List.cons_append] at hsame hsame'
          unfold startsWithIn
          rw [hsame, hsame']
        · simp only [beq_eq_false_iff_ne.2 hi, Bool.false_eq_true, if_false]

/-- What the next line begins with stands in the text. -/
def nextLineDecided (s : List Char) : Bool :=
  skipDecided true s false s
    && match skip true s false s with
      | .slash => true
      | .inLine rest | .upTo rest => lineDecided rest

theorem nextLine_append {d : Dialect} {operators : Bool} {s : List Char}
    (h : nextLineDecided s = true) (tail : List Char) :
    nextLine d operators (s ++ tail) = nextLine d operators s := by
  obtain ⟨hskip, hline⟩ := Bool.and_eq_true _ _ ▸ h
  unfold nextLine
  rw [skip_append tail tail s hskip]
  cases hout : skip true s false s with
  | slash => rfl
  | inLine rest | upTo rest =>
      rw [hout] at hline
      exact beginsStatement_append hline tail

/-- Whether a statement ends here does not depend on what follows the text. -/
def endDecided (d : Dialect) (operators : Bool) : (budget : List Char) → List Char → Bool
  | _, [] => false
  | [], _ => false
  | _ :: budget, c :: rest =>
      if c == '/' then
        d.hasTypes || (skipDecided false (c :: rest) false (c :: rest)
          && match skip false (c :: rest) false (c :: rest) with
            | .slash => true
            | .inLine rest => endDecided d operators budget rest
            | .upTo rest =>
                if !operators && !(rest.head? == some ',' || rest.head? == some '=') then
                  !rest.isEmpty
                else endDecided d operators budget rest)
      else if c == '\x7d' then !d.hasTypes || rest.any (fun c => !isPlainBlank c)
      else if c == '\n' || (!d.hasTypes && isLineEnd c) then nextLineDecided rest
      else if isPlainBlank c then endDecided d operators budget rest
      else true

theorem along_append {d : Dialect} {operators : Bool} (more tail budget : List Char) :
    ∀ {behindComment : Bool} {s : List Char}, endDecided d operators budget s = true →
      endsHere.along d operators (budget ++ more) behindComment (s ++ tail)
        = endsHere.along d operators budget behindComment s := by
  induction budget with
  | nil =>
      intro behindComment s h
      cases s <;> cases h
  | cons b budget ih =>
      intro behindComment s h
      cases s with
      | nil => cases h
      | cons c rest =>
          rw [List.cons_append, List.cons_append]
          unfold endsHere.along
          unfold endDecided at h
          by_cases hslash : (c == '/') = true
          · rw [if_pos hslash] at h
            rw [if_pos hslash, if_pos hslash]
            by_cases htypes : d.hasTypes = true
            · rw [if_pos htypes, if_pos htypes]
            · rw [if_neg htypes, if_neg htypes]
              rw [Bool.not_eq_true] at htypes
              rw [htypes, Bool.false_or] at h
              obtain ⟨hskip, hmore⟩ := Bool.and_eq_true _ _ ▸ h
              have hskipped := skip_append tail tail (c :: rest) hskip
              rw [List.cons_append] at hskipped
              rw [hskipped]
              cases hout : skip false (c :: rest) false (c :: rest) with
              | slash => rfl
              | inLine rest' =>
                  rw [hout] at hmore
                  exact ih hmore
              | upTo rest' =>
                  rw [hout] at hmore
                  simp only [Skipped.before] at hmore ⊢
                  have hne : rest' ≠ [] := by
                    rintro rfl
                    split at hmore
                    · cases hmore
                    · cases budget <;> cases hmore
                  obtain ⟨e, t, rfl⟩ := List.exists_cons_of_ne_nil hne
                  have hhead : (e :: t ++ tail).head? = (e :: t).head? := rfl
                  rw [hhead]
                  split at hmore
                  · next hstop => rw [if_pos hstop, if_pos hstop]
                  · next hgo =>
                      rw [if_neg hgo, if_neg hgo]
                      exact ih hmore
          rw [if_neg hslash] at h
          rw [if_neg hslash, if_neg hslash]
          by_cases hbrace : (c == '\x7d') = true
          · rw [if_pos hbrace] at h
            rw [if_pos hbrace, if_pos hbrace]
            unfold atBrace
            by_cases htypes : d.hasTypes = true
            · rw [htypes, Bool.not_true, Bool.false_or] at h
              have hne := dropWhile_ne_nil_iff.2 h
              obtain ⟨e, t, ht⟩ := List.exists_cons_of_ne_nil hne
              rw [dropWhile_append_of_ne_nil hne, ht]
              rfl
            · rw [Bool.not_eq_true] at htypes
              rw [htypes]
              rfl
          rw [if_neg hbrace] at h
          rw [if_neg hbrace, if_neg hbrace]
          by_cases hline : (c == '\n' || (!d.hasTypes && isLineEnd c)) = true
          · rw [if_pos hline] at h
            rw [if_pos hline, if_pos hline]
            exact nextLine_append h tail
          rw [if_neg hline] at h
          rw [if_neg hline, if_neg hline]
          by_cases hblank : isPlainBlank c = true
          · rw [if_pos hblank] at h
            rw [if_pos hblank, if_pos hblank]
            exact ih h
          · rw [if_neg hblank, if_neg hblank]

theorem endsHere_append {d : Dialect} {operators : Bool} {s : List Char}
    (h : endDecided d operators s s = true) (tail : List Char) :
    endsHere d operators (s ++ tail) = endsHere d operators s :=
  along_append tail tail s h

/-- Which comments belong to the statement that ends here does not depend on what
follows the text. -/
def absorbedDecided (d : Dialect) (operators : Bool) : (budget : List Char) → List Char → Bool
  | [], _ => false
  | _ :: budget, s =>
      endDecided d operators s s
        && (endsHere d operators s
          || (comment.halts .start (s.dropWhile isGap)
            && match comment.longest? (s.dropWhile isGap) with
              | some n => absorbedDecided d operators budget ((s.dropWhile isGap).drop n)
              | none => true))

theorem absorbed?_go_append {d : Dialect} {operators : Bool} (more tail budget : List Char) :
    ∀ {s : List Char}, absorbedDecided d operators budget s = true →
      absorbed?.go d operators (budget ++ more) (s ++ tail) = absorbed?.go d operators budget s := by
  induction budget with
  | nil =>
      intro s h
      cases h
  | cons b budget ih =>
      intro s h
      unfold absorbedDecided at h
      obtain ⟨hend, hrest⟩ := Bool.and_eq_true _ _ ▸ h
      rw [List.cons_append]
      unfold absorbed?.go
      rw [endsHere_append hend]
      by_cases hhere : endsHere d operators s = true
      · rw [if_pos hhere, if_pos hhere]
      · rw [Bool.not_eq_true] at hhere
        rw [hhere, Bool.false_or] at hrest
        obtain ⟨hhalts, hmore⟩ := Bool.and_eq_true _ _ ▸ hrest
        have hne : s.dropWhile isGap ≠ [] := fun hnil => by
          rw [hnil] at hhalts
          cases hhalts
        have hblanks := takeWhile_append_of_any (dropWhile_ne_nil_iff.1 hne) tail
        have hle : (s.takeWhile isGap).length ≤ s.length := (List.takeWhile_prefix _).length_le
        rw [hhere, if_neg Bool.false_ne_true, if_neg Bool.false_ne_true]
        simp only
        rw [hblanks, List.drop_append_of_le_length hle, drop_takeWhile,
          Scanner.longest?_append_of_halts (m := comment) hhalts tail]
        cases hlongest : comment.longest? (s.dropWhile isGap) with
        | none => rfl
        | some n =>
            rw [hlongest] at hmore
            have hn := (Scanner.run_of_longest? hlongest).1
            have hdrop : ∀ t : List Char, t.drop ((s.takeWhile isGap).length + n)
                = (t.drop (s.takeWhile isGap).length).drop n := fun t => by rw [List.drop_drop]
            simp only
            rw [hdrop, hdrop, List.drop_append_of_le_length hle, drop_takeWhile,
              List.drop_append_of_le_length hn, ih hmore]

/-- **Where the end of a statement is decided in a text, it is the same in front of
any other.** -/
theorem absorbed?_append {d : Dialect} {operators : Bool} {s : List Char}
    (h : absorbedDecided d operators s s = true) (tail : List Char) :
    absorbed? d operators (s ++ tail) = absorbed? d operators s :=
  absorbed?_go_append tail tail s h

end Semicolon

end ImportSplit.Grammar
