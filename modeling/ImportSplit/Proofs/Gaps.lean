/-
  ImportSplit.Proofs.Gaps
  ────────────────────────────────
  **BLANKS AND COMMENTS BETWEEN TOKENS.**

  At a token no gap starts (`AtToken`), and behind a gap there is a token or
  the end of the text.  What a gap takes are blanks and comments, each comment
  one that stands there in the whole text (`Skips`):

      readGap … s         skips s up to what it leaves       (`skips_readGap`)
      the end of a        skips the comments that belong     (`skips_absorbed`)
      statement           to the statement

  The second reads the comments in a text that is cut off behind them.  A
  comment that ends there is found in the text that goes on as well.
-/
import ImportSplit.Proofs.ReadTrees

namespace ImportSplit.Grammar

/-! ## §1. Where no gap starts. -/

/-- The characters that tokens of a known start begin with. -/
theorem mem_startingChars {kind : String} {k : Char} (h : k ∈ startingChars kind) :
    k ∈ ['"', '\'', '/', '<', '-', '#'] := by
  unfold startingChars at h
  grind

/-- None of them is blank, or a character of words. -/
theorem of_mem_startingChars {kind : String} {k : Char} (h : k ∈ startingChars kind) :
    Text.isGap k = false ∧ isWordChar k = false := by
  have hall : (['"', '\'', '/', '<', '-', '#'].all fun k =>
      !Text.isGap k && !isWordChar k) = true := by decide
  simpa using List.all_eq_true.mp hall k (mem_startingChars h)

/-- Neither a blank nor a comment stands here. -/
def AtToken (d : Dialect) (s : List Char) : Prop :=
  (∀ c ∈ s.head?, Text.isGap c = false) ∧ commentHere? (!d.hasTypes) s = none

theorem commentHere?_eq_none_of_le {m m' : Bool} {s : List Char} (hm : m' = true → m = true)
    (h : commentHere? m s = none) : commentHere? m' s = none := by
  unfold commentHere? at h ⊢
  cases hcomment : comment.longest? s with
  | some n =>
      rw [hcomment] at h
      cases h
  | none =>
      rw [hcomment] at h
      simp only at h ⊢
      by_cases hmarkup : m' = true
      · rw [if_pos (hm hmarkup)] at h
        rw [if_pos hmarkup]
        exact h
      · rw [if_neg hmarkup]

theorem readGap_of_head {m : Bool} {s : List Char} (hhead : ∀ c ∈ s.head?, Text.isGap c = false)
    (hcomment : commentHere? m s = none) (budget : List Char) (row : List Part) :
    readGap m budget row s = (row, s) := by
  have hblanks : (s.takeWhile Text.isGap).length = 0 := by
    cases s with
    | nil => rfl
    | cons c s =>
        have hc : Text.isGap c = false := hhead c rfl
        simp [hc]
  cases budget with
  | nil => rfl
  | cons b budget =>
      unfold readGap
      simp only [hblanks, if_true, List.drop_zero, hcomment]

/-- A gap takes nothing where none starts. -/
theorem AtToken.readGap {d : Dialect} {s : List Char} (h : AtToken d s) {m : Bool}
    (hm : m = true → d.hasTypes = false) (budget : List Char) (row : List Part) :
    readGap m budget row s = (row, s) := by
  refine readGap_of_head h.1 (commentHere?_eq_none_of_le (fun hmarkup => ?_) h.2) budget row
  rw [hm hmarkup]
  rfl

/-- The same before a rule that reads no markup. -/
theorem AtToken.noGap {d : Dialect} {s : List Char} (h : AtToken d s) :
    Grammar.readGap false s [] s = ([], s) :=
  h.readGap (fun hmarkup => by cases hmarkup) s []

theorem length_pos_of_commentHere? {m : Bool} {s : List Char} {kind : String} {n : Nat}
    (h : commentHere? m s = some (kind, n)) : 0 < n := by
  have hstarts : startingChars kind ≠ [] := by
    rcases kind_of_commentHere? h with rfl | rfl <;> decide
  obtain ⟨c, hc, -⟩ := startsAs_of_commentHere? h hstarts
  cases n with
  | zero => simp at hc
  | succ n => exact Nat.succ_pos n

theorem drop_takeWhile (p : Char → Bool) (s : List Char) :
    s.drop (s.takeWhile p).length = s.dropWhile p := by
  calc s.drop (s.takeWhile p).length
      = (s.takeWhile p ++ s.dropWhile p).drop (s.takeWhile p).length := by
        rw [List.takeWhile_append_dropWhile]
    _ = s.dropWhile p := List.drop_left

/-- Behind a gap no gap starts. -/
theorem head?_readGap {m : Bool} (budget : List Char) :
    ∀ (row : List Part) (s : List Char), s.length ≤ budget.length →
      (∀ c ∈ (readGap m budget row s).2.head?, Text.isGap c = false)
        ∧ commentHere? m (readGap m budget row s).2 = none := by
  induction budget with
  | nil =>
      intro row s hs
      obtain rfl : s = [] := List.length_eq_zero_iff.1 (Nat.le_zero.1 hs)
      refine ⟨fun c hc => ?_, ?_⟩
      · cases hc
      · cases m <;> rfl
  | cons b budget ih =>
      intro row s hs
      unfold readGap
      cases hcomment : commentHere? m (s.drop (s.takeWhile Text.isGap).length) with
      | none =>
          simp only [hcomment]
          -- all blanks were taken, and no comment follows them
          rw [drop_takeWhile]
          exact ⟨Text.head?_dropWhile Text.isGap s, trivial⟩
      | some x =>
          simp only [hcomment]
          refine ih _ _ ?_
          -- the comment has a character at least
          have hpos := length_pos_of_commentHere? hcomment
          have hlength : ((s.drop (s.takeWhile Text.isGap).length).drop x.2).length
              = s.length - (s.takeWhile Text.isGap).length - x.2 := by
            rw [List.length_drop, List.length_drop]
          simp only [List.length_cons] at hs
          omega

theorem atToken_readGap (d : Dialect) (s : List Char) :
    AtToken d (readGap (!d.hasTypes) s [] s).2 :=
  head?_readGap s [] s (Nat.le_refl _)

/-! ## §2. What a gap takes. -/

theorem nodes_append (ps qs : List Part) :
    Part.nodes (ps ++ qs) = Part.nodes ps ++ Part.nodes qs := by
  unfold Part.nodes
  exact List.filterMap_append

/-- The nodes of a row, whose latest part comes first. -/
theorem nodes_reverse_append (inner row : List Part) :
    Part.nodes (inner ++ row).reverse = Part.nodes row.reverse ++ Part.nodes inner.reverse := by
  rw [List.reverse_append, nodes_append]

/-- `Skips m s ns s'`: the text goes on with `s'` behind blanks and comments, of
which `ns` are the comments. -/
inductive Skips (m : Bool) : List Char → List Node → List Char → Prop where
  | refl {s : List Char} : Skips m s [] s
  | blank {c : Char} {s s' : List Char} {ns : List Node} (hc : Text.isGap c = true)
      (h : Skips m s ns s') : Skips m (c :: s) ns s'
  | remark {kind : String} {n : Nat} {s s' : List Char} {ns : List Node}
      (hcomment : commentHere? m s = some (kind, n)) (h : Skips m (s.drop n) ns s') :
      Skips m s (.token kind (String.ofList (s.take n)) :: ns) s'

namespace Skips

variable {m m' : Bool} {s s' s'' : List Char} {ns ns' : List Node}

theorem trans (h : Skips m s ns s') (h' : Skips m s' ns' s'') : Skips m s (ns ++ ns') s'' := by
  induction h with
  | refl => exact h'
  | blank hc _ ih => exact .blank hc (ih h')
  | remark hcomment _ ih => exact .remark hcomment (ih h')

/-- Blanks are skipped. -/
theorem blanks (h : Skips m s ns s') {b : List Char} (hb : ∀ c ∈ b, Text.isGap c = true) :
    Skips m (b ++ s) ns s' := by
  induction b with
  | nil => exact h
  | cons c b ih =>
      apply Skips.blank (hb c List.mem_cons_self)
      exact ih fun k hk => hb k (List.mem_cons_of_mem _ hk)

/-- So are those that stand at the front. -/
theorem behind_blanks (h : Skips m (s.drop (s.takeWhile Text.isGap).length) ns s') :
    Skips m s ns s' := by
  rw [drop_takeWhile] at h
  have hall := h.blanks (b := s.takeWhile Text.isGap) (List.all_eq_true.1 List.all_takeWhile)
  rwa [List.takeWhile_append_dropWhile] at hall

/-- A comment without markup is a comment anyway. -/
theorem mono (hm : m' = true → m = true) (h : Skips m' s ns s') : Skips m s ns s' := by
  induction h with
  | refl => exact .refl
  | blank hc _ ih => exact .blank hc ih
  | remark hcomment _ ih =>
      refine .remark ?_ ih
      unfold commentHere? at hcomment ⊢
      split at hcomment
      · exact hcomment
      · split at hcomment
        · next hmarkup =>
            rw [if_pos (hm hmarkup)]
            exact hcomment
        · cases hcomment

end Skips

/-- What is skipped stands before the rest. -/
theorem Skips.suffix {m : Bool} {s s' : List Char} {ns : List Node} (h : Skips m s ns s') :
    ∃ t, s = t ++ s' := by
  induction h with
  | refl => exact ⟨[], rfl⟩
  | @blank c s s' ns hc _ ih =>
      obtain ⟨t, ht⟩ := ih
      exact ⟨c :: t, by rw [ht]; rfl⟩
  | @remark kind n s s' ns hcomment _ ih =>
      obtain ⟨t, ht⟩ := ih
      refine ⟨s.take n ++ t, ?_⟩
      rw [List.append_assoc, ← ht, List.take_append_drop]

/-- **A gap takes what is skipped.** -/
theorem skips_readGap (m : Bool) (budget : List Char) :
    ∀ s, Skips m s (Part.nodes (readGap m budget [] s).1.reverse) (readGap m budget [] s).2 := by
  induction budget with
  | nil => exact fun s => .refl
  | cons b budget ih =>
      intro s
      apply Skips.behind_blanks
      -- blanks are no node
      have hblanks : Part.nodes (if (s.takeWhile Text.isGap).length = 0 then []
          else [Part.text (String.ofList (s.take (s.takeWhile Text.isGap).length))]).reverse = [] := by
        split <;> rfl
      simp only [readGap]
      generalize (if (s.takeWhile Text.isGap).length = 0 then []
        else [Part.text (String.ofList (s.take (s.takeWhile Text.isGap).length))]) = row at hblanks
      generalize s.drop (s.takeWhile Text.isGap).length = t
      cases hcomment : commentHere? m t with
      | none =>
          show Skips m t (Part.nodes row.reverse) t
          rw [hblanks]
          exact .refl
      | some x =>
          obtain ⟨kind, n⟩ := x
          simp only
          rw [readGap_frame]
          have hnodes : Part.nodes ((readGap m budget [] (t.drop n)).1
              ++ .node (.token kind (String.ofList (t.take n))) :: row).reverse
              = .token kind (String.ofList (t.take n))
                :: Part.nodes (readGap m budget [] (t.drop n)).1.reverse := by
            rw [nodes_reverse_append, List.reverse_cons, nodes_append, hblanks]
            rfl
          rw [hnodes]
          exact .remark hcomment (ih _)

/-! ## §3. Comments at the end of a statement. -/

theorem commentHere?_false {s : List Char} {kind : String} {n : Nat} :
    commentHere? false s = some (kind, n) ↔ kind = "comment" ∧ comment.longest? s = some n := by
  unfold commentHere?
  cases comment.longest? s with
  | none => simp
  | some k =>
      simp only [Option.some.injEq, Prod.mk.injEq]
      constructor
      · rintro ⟨rfl, rfl⟩
        exact ⟨rfl, rfl⟩
      · rintro ⟨rfl, rfl⟩
        exact ⟨rfl, rfl⟩

/-- No comment starts with a blank. -/
theorem commentHere?_of_blank {m : Bool} {c : Char} {s : List Char} (hc : Text.isGap c = true) :
    commentHere? m (c :: s) = none := by
  cases hcomment : commentHere? m (c :: s) with
  | none => rfl
  | some x =>
      obtain ⟨kind, n⟩ := x
      exfalso
      have hpos := length_pos_of_commentHere? hcomment
      have hstarts := startsAs_of_commentHere? hcomment
      unfold StartsAs at hstarts
      rw [head?_take_succ hpos] at hstarts
      have hkind : startingChars kind ≠ [] := by
        rcases kind_of_commentHere? hcomment with rfl | rfl <;> decide
      obtain ⟨e, he, hmem⟩ := hstarts hkind
      obtain rfl : c = e := Option.some.inj he
      rw [(of_mem_startingChars hmem).1] at hc
      cases hc

/-- Where no gap of any kind starts, none starts in any dialect. -/
theorem AtToken.of_js {s : List Char} (h : AtToken .js s) (d : Dialect) : AtToken d s :=
  ⟨h.1, commentHere?_eq_none_of_le (fun _ => rfl) h.2⟩

/-- **Up to a token there is one way to skip**: what is skipped first is a part of
what is skipped at all. -/
theorem Skips.rest {m : Bool} {s t u : List Char} {ns ms : List Node} (h : Skips m s ns t)
    (hhead : ∀ c ∈ t.head?, Text.isGap c = false) (hcomment : commentHere? m t = none)
    (hpart : Skips m s ms u) : ∃ ks, ns = ms ++ ks ∧ Skips m u ks t := by
  induction h generalizing ms with
  | refl =>
      cases hpart with
      | refl => exact ⟨[], rfl, .refl⟩
      | blank hc =>
          have hno := hhead _ rfl
          rw [hc] at hno
          cases hno
      | remark hremark =>
          rw [hcomment] at hremark
          cases hremark
  | blank hc h ih =>
      cases hpart with
      | refl => exact ⟨_, rfl, .blank hc h⟩
      | blank _ hpart => exact ih hhead hcomment hpart
      | remark hremark =>
          rw [commentHere?_of_blank hc] at hremark
          cases hremark
  | remark hremark h ih =>
      cases hpart with
      | refl => exact ⟨_, rfl, .remark hremark h⟩
      | blank hc =>
          rw [commentHere?_of_blank hc] at hremark
          cases hremark
      | remark hremark' hpart =>
          obtain ⟨rfl, rfl⟩ := Prod.mk.inj (Option.some.inj (hremark.symm.trans hremark'))
          obtain ⟨ks, rfl, hks⟩ := ih hhead hcomment hpart
          exact ⟨ks, rfl, hks⟩

/-- What is skipped up to a token is what a gap takes. -/
theorem Skips.readGap_eq {m : Bool} {s t : List Char} {ns : List Node} (h : Skips m s ns t)
    (hhead : ∀ c ∈ t.head?, Text.isGap c = false) (hcomment : commentHere? m t = none) :
    (readGap m s [] s).2 = t ∧ Part.nodes (readGap m s [] s).1.reverse = ns := by
  obtain ⟨hhead', hcomment'⟩ := head?_readGap (m := m) s [] s (Nat.le_refl _)
  obtain ⟨ks, rfl, hks⟩ := h.rest hhead hcomment (skips_readGap m s s)
  -- behind the gap there is a token already
  generalize (readGap m s [] s).2 = u at hhead' hcomment' hks
  cases hks with
  | refl => exact ⟨rfl, (List.append_nil _).symm⟩
  | blank hc =>
      have hno := hhead' _ rfl
      rw [hc] at hno
      cases hno
  | remark hremark =>
      rw [hcomment'] at hremark
      cases hremark

/-- **What is skipped of the front of a text is skipped of the whole text**, if
the whole of that front can be skipped there. -/
theorem Skips.of_front {s u : List Char} {ns : List Node} (h : Skips false s ns u) :
    ∀ {t t' : List Char} {ms : List Node}, s = t ++ u → Skips false t ms t' →
      Skips false s ms (t' ++ u) := by
  induction h with
  | refl =>
      intro t t' ms hs ht
      obtain rfl : t = [] := List.self_eq_append_left.1 hs
      cases ht with
      | refl => exact .refl
      | remark hcomment => cases hcomment
  | @blank c s u ns hc h ih =>
      intro t t' ms hs ht
      cases ht with
      | refl =>
          rw [hs]
          exact .refl
      | blank hc' ht =>
          rw [List.cons_append] at hs
          obtain ⟨rfl, hrest⟩ := List.cons.inj hs
          exact .blank hc (ih hrest ht)
      | @remark kind n _ _ _ hcomment ht =>
          cases t with
          | nil => cases hcomment
          | cons e t =>
              obtain ⟨rfl, -⟩ := List.cons.inj hs
              rw [commentHere?_of_blank hc] at hcomment
              cases hcomment
  | @remark kind n s u ns hcomment h ih =>
      intro t t' ms hs ht
      obtain ⟨p, hp⟩ := h.suffix
      obtain ⟨rfl, hlongest⟩ := commentHere?_false.1 hcomment
      -- the comment ends in the front of the text, so it is found there as well
      have hlength : n + p.length = t.length := by
        have hn := (Scanner.run_of_longest? hlongest).1
        have hdrop := congrArg List.length hp
        have hwhole := congrArg List.length hs
        rw [List.length_drop, List.length_append] at hdrop
        rw [List.length_append] at hwhole
        omega
      have hfront : comment.longest? t = some n := by
        have htake : t = s.take t.length := by rw [hs, List.take_left]
        rw [htake]
        exact Scanner.longest?_take hlongest (by omega)
      have hdrop : s.drop n = t.drop n ++ u := by
        rw [hs, List.drop_append_of_le_length (by omega)]
      cases ht with
      | refl =>
          rw [hs]
          exact .refl
      | blank hc ht =>
          rw [hs, List.cons_append, commentHere?_of_blank hc] at hcomment
          cases hcomment
      | @remark kind k _ _ _ hcomment' ht =>
          obtain ⟨rfl, hlongest'⟩ := commentHere?_false.1 hcomment'
          obtain rfl : n = k := Option.some.inj (hfront.symm.trans hlongest')
          have htext : t.take n = s.take n := by
            rw [hs, List.take_append_of_le_length (by omega)]
          rw [htext]
          exact .remark hcomment (ih hdrop ht)

/-- The comments that belong to a statement are skipped. -/
theorem skips_absorbed {d : Dialect} {operators : Bool} (budget : List Char) :
    ∀ {s : List Char} {n : Nat}, Semicolon.absorbed?.go d operators budget s = some n →
      ∃ ns, Skips false s ns (s.drop n) := by
  induction budget with
  | nil =>
      intro s n h
      unfold Semicolon.absorbed?.go at h
      split at h
      · cases h
        exact ⟨[], .refl⟩
      · cases h
  | cons b budget ih =>
      intro s n h
      unfold Semicolon.absorbed?.go at h
      split at h
      · cases h
        exact ⟨[], .refl⟩
      · simp only at h
        split at h
        · next k hlongest =>
            obtain ⟨j, hj, rfl⟩ := Option.map_eq_some_iff.1 h
            obtain ⟨ns, hns⟩ := ih hj
            have hrest : Skips false ((s.drop (s.takeWhile Text.isGap).length).drop k) ns
                (s.drop ((s.takeWhile Text.isGap).length + k + j)) := by
              rw [List.drop_drop] at hns ⊢
              exact hns
            exact ⟨_, Skips.behind_blanks (.remark (commentHere?_false.2 ⟨rfl, hlongest⟩) hrest)⟩
        · cases h

/-- **At the end of a statement the comments that belong to it are skipped.** -/
theorem skips_ends {c : Context} {operators : Bool} {s : List Char} {n : Nat}
    (h : c.absorbed? operators s = some n) :
    Skips false s (Part.nodes (readGap false (s.take n) [] (s.take n)).1.reverse)
      ((readGap false (s.take n) [] (s.take n)).2 ++ s.drop n) := by
  have habsorbed : Semicolon.absorbed? c.dialect operators s = some n := by
    unfold Context.absorbed? at h
    split at h
    · cases h
    · exact h
  obtain ⟨ns, hns⟩ := skips_absorbed s habsorbed
  exact hns.of_front (List.take_append_drop n s).symm (skips_readGap false (s.take n) (s.take n))

end ImportSplit.Grammar
