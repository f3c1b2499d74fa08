/-
  ImportSplit.Proofs.Outlook
  ────────────────────────────────
  **WHAT CAN BE READ BEFORE TOKENS THAT ARE KNOWN.**

  To read a text, every rule that is tried before the right one has to be
  refused.  Whether it is depends on the next few tokens alone, and on little of
  these: that a token is a word that is no keyword, or which sign it is.  Gaps
  between the tokens do not count.

  `outlook?` follows a rule over such tokens and lists all places where it could
  stop.  It asks nothing of the text, so it is computed; where it lists no place
  the rule is refused on every text that shows these tokens
  (`refuses_of_outlook`).

      (  word  )  .      an arrow function          no place: refused
      word  )            a chain                    before the )
-/
import ImportSplit.Proofs.Unbounded

namespace ImportSplit.Grammar

/-! ## §1. Tokens. -/

/-- What is known of a token. -/
inductive Mark where
  /-- A word, and none of these. -/
  | word (besides : List String)
  /-- This sign.  Behind a point there is no digit. -/
  | sign (e : Char)
  deriving DecidableEq

/-- The token has this text where `rest` follows. -/
def Mark.Fits : Mark → (t rest : List Char) → Prop
  | word besides, t, rest => IsWord t ∧ (∀ w ∈ besides, t ≠ w.toList) ∧ EndsWord rest
  | sign e, t, rest => t = [e] ∧ (e = '.' → ∀ k ∈ rest.head?, isDigit k = false)

/-- What is left of a text behind the gap. -/
def pastGap (s : List Char) : List Char := (readGap false s [] s).2

/-- The text starts with these tokens, with gaps between them. -/
def Stand : List Mark → List Char → Prop
  | [], _ => True
  | m :: ms, s => (∀ c ∈ s.head?, Text.isGap c = false) ∧ commentHere? true s = none
      ∧ ∃ t rest, s = t ++ rest ∧ m.Fits t rest ∧ Stand ms (pastGap rest)

/-- No gap starts before a token. -/
theorem Stand.readGap {ms : List Mark} {s : List Char} (h : Stand ms s) (withMarkup : Bool) :
    Stand ms (Grammar.readGap withMarkup s [] s).2 := by
  cases ms with
  | nil => trivial
  | cons m ms =>
      have hcomment : commentHere? withMarkup s = none :=
        commentHere?_eq_none_of_le (fun _ => rfl) h.2.1
      rw [readGap_of_head h.1 hcomment]
      exact h

/-! ## §2. Lexemes. -/

/-- A match starts with a character that the scanner takes first. -/
theorem exists_move_of_longest? {σ : Type} {m : Scanner σ} {s : List Char} {n : Nat}
    (h : m.longest? s = some n) (hstart : m.accepts m.start = false) :
    ∃ c, s.head? = some c ∧ (m.move m.start c).isSome = true := by
  obtain ⟨-, state, hrun, hacc⟩ := Scanner.run_of_longest? h
  cases s with
  | nil =>
      rw [List.take_nil] at hrun
      cases hrun
      rw [hstart] at hacc
      cases hacc
  | cons c s =>
      cases n with
      | zero =>
          cases hrun
          rw [hstart] at hacc
          cases hacc
      | succ n =>
          refine ⟨c, rfl, ?_⟩
          rw [List.take_succ_cons, Scanner.run] at hrun
          cases hmove : m.move m.start c with
          | none =>
              rw [hmove] at hrun
              cases hrun
          | some st => rfl

/-- A token of this form may start with the character. -/
def Lexeme.starts (c : Char) : Lexeme → Bool
  | keyword _ | name _ => (word.move .start c).isSome
  | sign (k :: _) _ => k == c
  | privateName => c == '#'
  | number => isDigit c || c == '.'
  | string => c == '"' || c == '\''
  | regex => c == '/'
  | _ => true

theorem starts_of_size? {lexeme : Lexeme} {s : List Char} {n : Nat} {c : Char}
    (hc : s.head? = some c) (h : lexeme.size? s = some n) : lexeme.starts c = true := by
  -- a scanner that takes the first character
  have hscan : ∀ {σ : Type} {m : Scanner σ} {k : Nat}, m.longest? s = some k →
      m.accepts m.start = false → (m.move m.start c).isSome = true := by
    intro σ m k hlongest hstart
    obtain ⟨c', hc', hmove⟩ := exists_move_of_longest? hlongest hstart
    obtain rfl : c = c' := Option.some.inj (hc.symm.trans hc')
    exact hmove
  have hguard : ∀ {σ : Type} {p : Bool} {a : σ},
      (if p = true then some a else none).isSome = true → p = true := by
    intro σ p a hsome
    by_cases hp : p = true
    · exact hp
    · rw [if_neg hp] at hsome
      cases hsome
  cases lexeme with
  | keyword w =>
      cases hword : word.longest? s with
      | none => simp [Lexeme.size?, hword] at h
      | some k => exact hscan hword rfl
  | name besides =>
      cases hword : word.longest? s with
      | none => simp [Lexeme.size?, hword] at h
      | some k => exact hscan hword rfl
  | sign cs butNot =>
      cases cs with
      | nil => rfl
      | cons k cs =>
          by_cases hk : k = c
          · exact beq_iff_eq.2 hk
          · rw [sign_size?_eq_none hc hk] at h
            cases h
  | privateName => exact hguard (hscan (m := Grammar.privateName) h rfl)
  | number =>
      have hmove := hscan (m := Grammar.number) h rfl
      have hmove : (if c == '0' then some NumberState.zero else if isDigit c then some .whole
          else if c == '.' then some .firstPoint else none).isSome = true := hmove
      show (isDigit c || c == '.') = true
      by_cases hzero : (c == '0') = true
      · rw [beq_iff_eq.1 hzero]
        rfl
      · by_cases hdigit : isDigit c = true
        · rw [hdigit]
          rfl
        · rw [if_neg hzero, if_neg hdigit] at hmove
          rw [hguard hmove, Bool.or_true]
  | string =>
      obtain ⟨k, hk, hmem⟩ := head?_of_string h
      rw [head?_take_succ (pos_of_solidLexeme rfl h), hc] at hk
      obtain rfl : c = k := Option.some.inj hk
      simpa [startingChars, Lexeme.starts] using hmem
  | regex => exact hguard (hscan (m := Grammar.regex) h rfl)
  | _ => rfl

/-- A word starts where the scanner of words moves on. -/
theorem IsWord.exists_move {t : List Char} (h : IsWord t) :
    ∃ c, t.head? = some c ∧ (word.move .start c).isSome = true := by
  cases t with
  | nil => exact absurd rfl h.ne_nil
  | cons c t =>
      refine ⟨c, rfl, ?_⟩
      have hrun : word.run .start (c :: t) = some .inside := h
      rw [Scanner.run] at hrun
      cases hmove : word.move .start c with
      | none =>
          rw [hmove] at hrun
          cases hrun
      | some st => rfl

/-- No digit and no point starts a word, nor does another sign of a token. -/
theorem of_word_move {c : Char} (h : (word.move .start c).isSome = true) :
    isDigit c = false ∧ c ∉ ['.', '"', '\'', '/', '#'] := by
  have hmove : (if c == '\\' then some WordState.backslash
      else if isWordChar c && !isDigit c then some .inside else none).isSome = true := h
  by_cases hback : (c == '\\') = true
  · rw [beq_iff_eq.1 hback]
    exact ⟨by decide, by decide⟩
  · rw [if_neg hback] at hmove
    by_cases hchar : (isWordChar c && !isDigit c) = true
    · obtain ⟨hword, hdigit⟩ := Bool.and_eq_true _ _ ▸ hchar
      refine ⟨by simpa using hdigit, fun hmem => ?_⟩
      simp only [List.mem_cons, List.not_mem_nil, or_false] at hmem
      rcases hmem with rfl | rfl | rfl | rfl | rfl <;> cases hword
    · rw [if_neg hchar] at hmove
      cases hmove

/-- A point without a digit behind it is no number. -/
theorem number_size?_point {rest : List Char} (h : ∀ k ∈ rest.head?, isDigit k = false) :
    Lexeme.number.size? ('.' :: rest) = none := by
  cases hsize : Lexeme.number.size? ('.' :: rest) with
  | none => rfl
  | some n =>
      exfalso
      obtain ⟨-, st, hrun, hacc⟩ := Scanner.run_of_longest? (m := number) hsize
      cases n with
      | zero =>
          cases hrun
          cases hacc
      | succ n =>
          have hrun : number.run .firstPoint (rest.take n) = some st := hrun
          cases htake : rest.take n with
          | nil =>
              rw [htake] at hrun
              cases hrun
              cases hacc
          | cons k more =>
              rw [htake, Scanner.run] at hrun
              have hk : rest.head? = some k := by
                cases rest with
                | nil => simp at htake
                | cons k' rest =>
                    cases n with
                    | zero => cases htake
                    | succ n =>
                        rw [List.take_succ_cons] at htake
                        rw [(List.cons.inj htake).1]
                        rfl
              have hmove : number.move .firstPoint k = none := by
                show (if isDigit k then some NumberState.fraction else none) = none
                rw [h k hk]
                rfl
              rw [hmove] at hrun
              cases hrun

/-- Whether a token may be read as a lexeme, and then as a whole; `none` if that
is not known. -/
def Mark.mayBe? : Mark → Lexeme → Option Bool
  | word besides, .keyword w => some (!besides.any fun b => b.toList == w)
  | word _, .name _ => some true
  | word _, .sign (k :: _) _ => if (Grammar.word.move .start k).isSome then none else some false
  | word _, .number | word _, .string | word _, .regex | word _, .privateName => some false
  | word _, _ => none
  | sign e, .sign [k] _ => some (k == e)
  | sign e, .number => if isDigit e then none else some false
  | sign e, lexeme => if lexeme.starts e then none else some false

/-- What may be read of a token is all of it. -/
theorem Mark.Fits.size {m : Mark} {t rest : List Char} (h : m.Fits t rest) {lexeme : Lexeme}
    {b : Bool} {n : Nat} (hb : m.mayBe? lexeme = some b)
    (hsize : lexeme.size? (t ++ rest) = some n) : b = true ∧ n = t.length := by
  cases m with
  | word besides =>
      obtain ⟨hword, hbesides, hends⟩ := h
      obtain ⟨c, hc, hmove⟩ := hword.exists_move
      have hstarts : lexeme.starts c = true :=
        starts_of_size? (by rw [List.head?_append, hc]; rfl) hsize
      obtain ⟨hdigit, hsigns⟩ := of_word_move hmove
      cases lexeme with
      | keyword w =>
          rw [keyword_size? hword hends] at hsize
          by_cases htw : t = w
          · subst htw
            rw [if_pos rfl] at hsize
            refine ⟨?_, (Option.some.inj hsize).symm⟩
            rw [← Option.some.inj hb]
            simpa using fun w hw heq => hbesides w hw heq.symm
          · rw [if_neg htw] at hsize
            cases hsize
      | name besides =>
          rw [name_size? besides hword hends] at hsize
          split at hsize
          · cases hsize
          · exact ⟨(Option.some.inj hb).symm, (Option.some.inj hsize).symm⟩
      | sign cs butNot =>
          cases cs with
          | nil => cases hb
          | cons k cs =>
              obtain rfl : k = c := beq_iff_eq.1 hstarts
              have hb : (if (Grammar.word.move .start k).isSome then none else some false)
                  = some b := hb
              rw [if_pos hmove] at hb
              cases hb
      | number =>
          have hstarts : (isDigit c || c == '.') = true := hstarts
          rw [hdigit, Bool.false_or, beq_iff_eq] at hstarts
          subst hstarts
          exact absurd (by decide) hsigns
      | string =>
          have hstarts : (c == '"' || c == '\'') = true := hstarts
          rw [Bool.or_eq_true, beq_iff_eq, beq_iff_eq] at hstarts
          rcases hstarts with rfl | rfl <;> exact absurd (by decide) hsigns
      | regex =>
          obtain rfl : c = '/' := beq_iff_eq.1 hstarts
          exact absurd (by decide) hsigns
      | privateName =>
          obtain rfl : c = '#' := beq_iff_eq.1 hstarts
          exact absurd (by decide) hsigns
      | _ => cases hb
  | sign e =>
      obtain ⟨rfl, hdigit⟩ := h
      have hstarts : lexeme.starts e = true := starts_of_size? rfl hsize
      have hother : (if lexeme.starts e then none else some false) = some b →
          b = true ∧ n = [e].length := by
        intro hb
        rw [if_pos hstarts] at hb
        cases hb
      cases lexeme with
      | sign cs butNot =>
          match cs, hb, hstarts, hsize, hother with
          | [], hb, _, _, hother => exact hother hb
          | [k], hb, hstarts, hsize, _ =>
              have hstarts : (k == e) = true := hstarts
              rw [← Option.some.inj hb, hstarts]
              refine ⟨rfl, ?_⟩
              have hsize : (if [k].isPrefixOf ([e] ++ rest)
                    && butNot.all (fun u => !u.isPrefixOf (([e] ++ rest).drop [k].length)) then
                  some [k].length else none) = some n := hsize
              split at hsize
              · exact (Option.some.inj hsize).symm
              · cases hsize
          | _ :: _ :: _, hb, _, _, hother => exact hother hb
      | number =>
          have hb : (if isDigit e then none else some false) = some b := hb
          have hstarts : (isDigit e || e == '.') = true := hstarts
          by_cases he : isDigit e = true
          · rw [if_pos he] at hb
            cases hb
          · rw [Bool.eq_false_iff.2 he, Bool.false_or, beq_iff_eq] at hstarts
            subst hstarts
            have hnone := number_size?_point (hdigit rfl)
            have hsize : Lexeme.number.size? ('.' :: rest) = some n := hsize
            rw [hnone] at hsize
            cases hsize
      | _ => exact hother hb

/-! ## §3. The outlook of a rule. -/

/-- What is known of a text: the tokens that it starts with, and whether the
first of them stands right here or behind a gap. -/
structure View where
  here : Bool
  marks : List Mark
  deriving DecidableEq

/-- The text is as the view says. -/
def View.Shows (v : View) (s : List Char) : Prop :=
  Stand v.marks (if v.here then s else pastGap s)

/-- Goes on from each of the views; `none` if somewhere it is not known how. -/
def View.fromAll (f : View → Option (List View)) : List View → Option (List View)
  | [] => some []
  | v :: vs => (f v).bind fun ws => (fromAll f vs).map (ws ++ ·)

theorem View.mem_fromAll {f : View → Option (List View)} {v : View} :
    ∀ {vs ws : List View}, fromAll f vs = some ws → v ∈ vs →
      ∃ us, f v = some us ∧ ∀ u ∈ us, u ∈ ws := by
  intro vs
  induction vs with
  | nil => exact fun _ hv => absurd hv List.not_mem_nil
  | cons w vs ih =>
      intro ws h hv
      obtain ⟨us, hus, h⟩ := Option.bind_eq_some_iff.1 h
      obtain ⟨more, hmore, rfl⟩ := Option.map_eq_some_iff.1 h
      rcases List.mem_cons.1 hv with rfl | hv
      · exact ⟨us, hus, fun u hu => List.mem_append_left _ hu⟩
      · obtain ⟨us', hus', hall⟩ := ih hmore hv
        exact ⟨us', hus', fun u hu => List.mem_append_right _ (hall u hu)⟩

/-- All places where a rule may stop, from a text of which this is known; `none`
if that is not enough, or takes more than `fuel` rules. -/
def Rule.outlook? {ν : Type} (rules : ν → Rule ν) :
    (fuel : Nat) → Rule ν → Context → View → Option (List View)
  | 0, _, _, _ => none
  | fuel + 1, r, c, v =>
      match r with
      | nothing | stays _ | ahead _ | notAhead _ | holds _ => some [v]
      | given p => some (if p c then [v] else [])
      | leaf _ lexeme =>
          match v with
          | ⟨true, m :: ms⟩ => (m.mayBe? lexeme).map fun b => if b then [⟨false, ms⟩] else []
          | _ => none
      | gap withMarkup => if withMarkup && !v.here then none else some [⟨true, v.marks⟩]
      | ends _ => none
      | seq first second =>
          (outlook? rules fuel first c v).bind (View.fromAll (outlook? rules fuel second c))
      | either first second =>
          (outlook? rules fuel first c v).bind fun vs =>
            (outlook? rules fuel second c v).map (vs ++ ·)
      | many r =>
          (outlook? rules fuel r c v).bind fun vs =>
            (View.fromAll (outlook? rules fuel (many r) c) vs).map (v :: ·)
      | scope r => outlook? rules fuel r c ⟨true, v.marks⟩
      | wrap _ r => outlook? rules fuel r c v
      | call name => outlook? rules fuel (rules name) c v
      | within f r => outlook? rules fuel r (f c) v

/-- The view behind a gap. -/
theorem View.Shows.pastGap {v : View} {s : List Char} (h : v.Shows s) :
    Stand v.marks (Grammar.pastGap s) := by
  unfold View.Shows at h
  cases hhere : v.here with
  | true =>
      rw [hhere] at h
      exact h.readGap false
  | false =>
      rw [hhere] at h
      exact h

/-- **A rule stops where its outlook says.** -/
theorem Reads.outlook {ν : Type} {rules : ν → Rule ν} {r : Rule ν} {c : Context}
    {row row' : List Part} {s s' : List Char} (h : Reads rules r c row s row' s') :
    ∀ {fuel : Nat} {v : View} {vs : List View}, r.outlook? rules fuel c v = some vs → v.Shows s →
      ∃ w ∈ vs, w.Shows s' := by
  induction h with
  | nothing | stays | ahead | notAhead | holds =>
      intro fuel v vs hout hv
      cases fuel with
      | zero => cases hout
      | succ fuel =>
          cases hout
          exact ⟨v, List.mem_cons_self, hv⟩
  | given hgiven =>
      intro fuel v vs hout hv
      cases fuel with
      | zero => cases hout
      | succ fuel =>
          refine ⟨v, ?_, hv⟩
          rw [← Option.some.inj hout, hgiven]
          exact List.mem_cons_self
  | @leaf c row s kind lexeme n hsize =>
      intro fuel v vs hout hv
      cases fuel with
      | zero => cases hout
      | succ fuel =>
          match v, hout, hv with
          | ⟨true, m :: ms⟩, hout, hv =>
              obtain ⟨b, hb, rfl⟩ := Option.map_eq_some_iff.1 hout
              obtain ⟨-, -, t, rest, rfl, hfits, hrest⟩ := hv
              obtain ⟨rfl, rfl⟩ := hfits.size hb hsize
              refine ⟨⟨false, ms⟩, List.mem_cons_self, ?_⟩
              rw [List.drop_left]
              exact hrest
          | ⟨true, []⟩, hout, _ => cases hout
          | ⟨false, _⟩, hout, _ => cases hout
  | @gap c row s withMarkup =>
      intro fuel v vs hout hv
      cases fuel with
      | zero => cases hout
      | succ fuel =>
          have hout : (if withMarkup && !v.here then none else some [⟨true, v.marks⟩]) = some vs :=
            hout
          split at hout
          · cases hout
          · next hknown =>
              cases hout
              refine ⟨_, List.mem_cons_self, ?_⟩
              show Stand v.marks _
              -- without markup any gap may stand here, with it none
              cases hhere : v.here with
              | true =>
                  have hstand : Stand v.marks s := by
                    unfold View.Shows at hv
                    rw [hhere] at hv
                    exact hv
                  exact hstand.readGap _
              | false =>
                  rw [hhere, Bool.not_false, Bool.and_true, Bool.not_eq_true] at hknown
                  rw [hknown, Bool.false_and]
                  exact hv.pastGap
  | ends =>
      intro fuel v vs hout _
      cases fuel <;> cases hout
  | seq _ _ ih₁ ih₂ =>
      intro fuel v vs hout hv
      cases fuel with
      | zero => cases hout
      | succ fuel =>
          obtain ⟨us, hus, hall⟩ := Option.bind_eq_some_iff.1 hout
          obtain ⟨u, hu, hshows⟩ := ih₁ hus hv
          obtain ⟨ws, hws, hmem⟩ := View.mem_fromAll hall hu
          obtain ⟨w, hw, hshows'⟩ := ih₂ hws hshows
          exact ⟨w, hmem w hw, hshows'⟩
  | left _ ih =>
      intro fuel v vs hout hv
      cases fuel with
      | zero => cases hout
      | succ fuel =>
          obtain ⟨us, hus, hout⟩ := Option.bind_eq_some_iff.1 hout
          obtain ⟨ws, -, rfl⟩ := Option.map_eq_some_iff.1 hout
          obtain ⟨u, hu, hshows⟩ := ih hus hv
          exact ⟨u, List.mem_append_left _ hu, hshows⟩
  | right _ ih =>
      intro fuel v vs hout hv
      cases fuel with
      | zero => cases hout
      | succ fuel =>
          obtain ⟨us, -, hout⟩ := Option.bind_eq_some_iff.1 hout
          obtain ⟨ws, hws, rfl⟩ := Option.map_eq_some_iff.1 hout
          obtain ⟨w, hw, hshows⟩ := ih hws hv
          exact ⟨w, List.mem_append_right _ hw, hshows⟩
  | stop =>
      intro fuel v vs hout hv
      cases fuel with
      | zero => cases hout
      | succ fuel =>
          obtain ⟨us, -, hout⟩ := Option.bind_eq_some_iff.1 hout
          obtain ⟨ws, -, rfl⟩ := Option.map_eq_some_iff.1 hout
          exact ⟨v, List.mem_cons_self, hv⟩
  | again _ _ ih₁ ih₂ =>
      intro fuel v vs hout hv
      cases fuel with
      | zero => cases hout
      | succ fuel =>
          obtain ⟨us, hus, hout⟩ := Option.bind_eq_some_iff.1 hout
          obtain ⟨ws, hall, rfl⟩ := Option.map_eq_some_iff.1 hout
          obtain ⟨u, hu, hshows⟩ := ih₁ hus hv
          obtain ⟨more, hmore, hmem⟩ := View.mem_fromAll hall hu
          obtain ⟨w, hw, hshows'⟩ := ih₂ hmore hshows
          exact ⟨w, List.mem_cons_of_mem _ (hmem w hw), hshows'⟩
  | @scope r c row s inner s' _ ih =>
      intro fuel v vs hout hv
      cases fuel with
      | zero => cases hout
      | succ fuel =>
          have hinner : (View.mk true v.marks).Shows (Grammar.readGap false s [] s).2 := hv.pastGap
          exact ih hout hinner
  | wrap _ ih | call _ ih | within _ ih =>
      intro fuel v vs hout hv
      cases fuel with
      | zero => cases hout
      | succ fuel => exact ih hout hv

/-- **A rule that can stop nowhere is refused.** -/
theorem refuses_of_outlook {r : ModuleRule} {c : Context} {v : View} {s : List Char} (fuel : Nat)
    (h : r.outlook? rule fuel c v = some []) (hv : v.Shows s) : Refuses readDeep r c s := by
  refine refuses_of_not_reads fun row row' s' hreads => ?_
  obtain ⟨w, hw, -⟩ := hreads.outlook h hv
  exact absurd hw List.not_mem_nil

end ImportSplit.Grammar
