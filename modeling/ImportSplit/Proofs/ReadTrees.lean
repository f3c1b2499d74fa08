/-
  ImportSplit.Proofs.ReadTrees
  ────────────────────────────────
  **WHAT THE TREES OF A GRAMMAR LOOK LIKE.**

  Reading takes text from the front and puts the same text into the row
  (`Reads.consumes`).  What it builds is `WellRead`: blanks stand between the
  nodes, strings and comments start with their signs, an access has a point,
  and names have none.

  Which rules build such nodes is decided on the rules themselves
  (`Rule.checks`); a grammar all of whose rules pass builds nothing else
  (`Reads.wellRead`).
-/
import ImportSplit.Proofs.Scanning
import ImportSplit.Proofs.Derivations
import ImportSplit.Source

namespace ImportSplit

open Grammar

/-! ## §1. The text of what was read. -/

namespace Grammar

variable {ν : Type} {rules : ν → Rule ν} {r : Rule ν} {c : Context} {row row' : List Part}
  {s s' : List Char}

theorem rowText_readGap (withMarkup : Bool) (budget s : List Char) :
    s = rowText (readGap withMarkup budget [] s).1 ++ (readGap withMarkup budget [] s).2 := by
  rw [readGap_lossless]
  rfl

/-- **Reading moves text from the front of what is left to the end of the row.** -/
theorem Reads.consumes (h : Reads rules r c row s row' s') :
    ∃ t, s = t ++ s' ∧ rowText row' = rowText row ++ t := by
  induction h with
  | nothing | stays | stop | ahead | notAhead | holds | given => exact ⟨[], rfl, by simp⟩
  | @leaf c row s kind lexeme n hsize =>
      refine ⟨s.take n, (List.take_append_drop n s).symm, ?_⟩
      rw [rowText_cons]
      simp [Part.spelling]
  | @gap c row s withMarkup =>
      exact ⟨_, rowText_readGap _ s s, rowText_append _ _⟩
  | @ends c row s operators n habsorbed =>
      refine ⟨_, ?_, rowText_append _ _⟩
      rw [← List.append_assoc, ← rowText_readGap, List.take_append_drop]
  | seq _ _ ih₁ ih₂ | again _ _ ih₁ ih₂ =>
      obtain ⟨t₁, hs₁, ht₁⟩ := ih₁
      obtain ⟨t₂, hs₂, ht₂⟩ := ih₂
      refine ⟨t₁ ++ t₂, ?_, ?_⟩
      · rw [hs₁, hs₂, List.append_assoc]
      · rw [ht₂, ht₁, List.append_assoc]
  | left _ ih | right _ ih | call _ ih | within _ ih => exact ih
  -- the gap before the scope stays in the row outside
  | @scope r c row s inner s' _ ih =>
      obtain ⟨t, hs, ht⟩ := ih
      refine ⟨rowText (readGap false s [] s).1 ++ t, ?_, ?_⟩
      · rw [List.append_assoc, ← hs]
        exact rowText_readGap _ s s
      · rw [rowText_append, rowText_append, ht]
        simp
  | wrap _ ih =>
      obtain ⟨t, hs, ht⟩ := ih
      refine ⟨t, hs, ?_⟩
      rw [← ht, rowText_cons]
      simp [Part.spelling, Node.spelling_build, rowText]

end Grammar

/-! ## §2. Well-read trees. -/

/-- The characters that a token of this kind starts with, where that is fixed. -/
def startingChars (kind : String) : List Char :=
  if kind = "string" then ['"', '\'']
  else if kind = "comment" then ['/']
  else if kind = "html_comment" then ['<', '-']
  else if kind = "hash_bang_line" then ['#']
  else []

/-- The text starts as a token of this kind does. -/
def StartsAs (kind : String) (t : List Char) : Prop :=
  startingChars kind ≠ [] → ∃ c ∈ t.head?, c ∈ startingChars kind

/-- The names among the parts, those written as strings marked. -/
def Part.exportNames (ps : List Part) : List (String × Bool) :=
  (Part.nodes ps).filterMap Node.exportName?

/-- The names of one specifier: a name is a word, and only the first may be
written as a string. -/
def SpecifierNames (names : List (String × Bool)) : Prop :=
  (∀ x ∈ names, x.2 = false → IsWord x.1.toList) ∧ ∀ x ∈ names.tail, x.2 = false

mutual
/-- The node looks as a grammar builds it. -/
def Node.WellRead : Node → Prop
  | .identifier name => '.' ∉ name.toList
  | .member object operator property =>
      object.WellRead ∧ IsWord property.toList
        ∧ '.' ∈ (object.spelling ++ operator ++ property).toList
  | .construct kind parts =>
      startingChars kind = []
        ∧ (kind = "import_specifier" → SpecifierNames (Part.exportNames parts))
        ∧ Part.AllWellRead parts
  | .token kind text => StartsAs kind text.toList
/-- All parts look so. -/
def Part.AllWellRead : List Part → Prop
  | [] => True
  | p :: rest => p.WellRead ∧ Part.AllWellRead rest
/-- The part is such a node, or blank. -/
def Part.WellRead : Part → Prop
  | .text text => ∀ c ∈ text.toList, Text.isGap c = true
  | .node n => n.WellRead
end

theorem Part.allWellRead_iff {ps : List Part} :
    Part.AllWellRead ps ↔ ∀ p ∈ ps, p.WellRead := by
  induction ps with
  | nil => simp [Part.AllWellRead]
  | cons p ps ih => simp [Part.AllWellRead, ih]

/-- The part is blank, or a comment. -/
def Part.IsGap : Part → Prop
  | .text t => ∀ c ∈ t.toList, Text.isGap c = true
  | .node (.token kind t) =>
      (kind = "comment" ∨ kind = "html_comment") ∧ StartsAs kind t.toList
  | .node _ => False

theorem Part.IsGap.wellRead {p : Part} (h : p.IsGap) : p.WellRead := by
  cases p with
  | text t => exact h
  | node n =>
      cases n with
      | token kind t => exact h.2
      | _ => cases h

/-! ## §3. Patterns. -/

theorem patternKind_eq (kind : String) :
    patternKind kind = kind ∨ startingChars (patternKind kind) = []
      ∧ patternKind kind ≠ "import_specifier" := by
  unfold patternKind
  split
  case h_7 => exact .inl rfl
  all_goals exact .inr (by decide)

mutual
theorem Node.WellRead.toPattern : ∀ {n : Node}, n.WellRead → n.toPattern.WellRead
  | .identifier _, h => h
  | .member .., h => h
  | .token .., h => h
  | .construct kind parts, h => by
      by_cases hkind : kind = "object" ∨ kind = "array"
      · simp only [Node.toPattern, if_pos hkind]
        refine ⟨?_, ?_, Part.allWellRead_toPatterns h.2.2⟩
        · rcases hkind with rfl | rfl <;> rfl
        · rcases hkind with rfl | rfl <;> exact fun hne => absurd hne (by decide)
      · simp only [Node.toPattern, if_neg hkind]
        exact h
theorem Part.allWellRead_toPatterns :
    ∀ {ps : List Part}, Part.AllWellRead ps → Part.AllWellRead (Part.toPatterns ps)
  | [], _ => trivial
  | _ :: _, h => ⟨Part.WellRead.toPattern h.1, Part.allWellRead_toPatterns h.2⟩
theorem Part.WellRead.toPattern : ∀ {p : Part}, p.WellRead → p.toPattern.WellRead
  | .text _, h => h
  | .node (.identifier _), h => h
  | .node (.member ..), h => h
  | .node (.token kind word), h => by
      show Node.WellRead (.token (patternKind kind) word)
      rcases patternKind_eq kind with heq | ⟨hstart, -⟩
      · rw [heq]
        exact h
      · exact fun hne => absurd hstart hne
  | .node (.construct kind parts), h => by
      unfold Part.toPattern
      split
      · next hkind =>
          refine ⟨?_, ?_, Part.allWellRead_toPatterns h.2.2⟩
          · rcases hkind with rfl | rfl | rfl | rfl | rfl <;> rfl
          · rcases hkind with rfl | rfl | rfl | rfl | rfl <;>
              exact fun hne => absurd hne (by decide)
      · exact h
end

/-! ## §4. Building. -/

/-- The property of an access is its last part. -/
theorem Part.getLast?_of_splitProperty? :
    ∀ {ps before : List Part} {property : String},
      Part.splitProperty? ps = some (before, property) →
      ps.getLast? = some (.node (.token "property_identifier" property)) := by
  intro ps
  induction ps with
  | nil =>
      intro before property h
      cases h
  | cons p rest ih =>
      intro before property h
      unfold Part.splitProperty? at h
      split at h
      · cases h
      · next kind word heq =>
          obtain ⟨rfl, rfl⟩ := List.cons.inj heq
          split at h
          · next hkind =>
              cases h
              rw [hkind]
              rfl
          · cases h
      · cases h
      · next q tail _ _ heq =>
          obtain ⟨rfl, rfl⟩ := List.cons.inj heq
          obtain ⟨⟨b, q⟩, hb, hpair⟩ := Option.map_eq_some_iff.1 h
          cases hpair
          rw [List.getLast?_cons, ih hb]
          rfl

/-- A name of a property at the end of these parts is a word. -/
def Part.EndInWord (ps : List Part) : Prop :=
  ∀ property, ps.getLast? = some (.node (.token "property_identifier" property)) →
    IsWord property.toList

theorem Node.wellRead_of_access? {ps : List Part} {n : Node} (hps : Part.AllWellRead ps)
    (hword : Part.EndInWord ps)
    (hpoint : '.' ∈ (Part.spellingOfList ps).toList) (h : Node.access? ps = some n) :
    n.WellRead := by
  have hspelling := Node.spelling_of_access? h
  unfold Node.access? at h
  split at h
  · next object rest =>
      cases hsplit : Part.splitProperty? rest with
      | none =>
          rw [hsplit] at h
          cases h
      | some x =>
          simp only [hsplit] at h
          split at h
          · cases h
          · cases h
            have hlast := Part.getLast?_of_splitProperty? hsplit
            refine ⟨hps.1, hword _ (by rw [List.getLast?_cons, hlast]; rfl), ?_⟩
            show '.' ∈ (Node.member object _ _).spelling.toList
            rw [hspelling]
            exact hpoint
  · cases h

/-- A node built of well-read parts is well read. -/
theorem Node.wellRead_build {kind : String} {ps : List Part} (hps : Part.AllWellRead ps)
    (hkind : startingChars kind = [])
    (hspecifier : kind = "import_specifier" → SpecifierNames (Part.exportNames ps))
    (hmember : kind = "member_expression" →
      '.' ∈ (Part.spellingOfList ps).toList ∧ Part.EndInWord ps) :
    (Node.build kind ps).WellRead := by
  have hconstruct : (Node.construct kind ps).WellRead := ⟨hkind, hspecifier, hps⟩
  unfold Node.build
  by_cases haccess : kind = "member_expression"
  · rw [if_pos haccess]
    obtain ⟨hpoint, hword⟩ := hmember haccess
    cases hbuilt : Node.access? ps with
    | none => exact hconstruct
    | some n => exact Node.wellRead_of_access? hps hword hpoint hbuilt
  · rw [if_neg haccess]
    by_cases hassign : kind = "assignment_expression"
    · rw [if_pos hassign]
      -- an assignment is built with a pattern on its left
      refine ⟨hkind, fun hne => absurd (hassign ▸ hne) (by decide), ?_⟩
      unfold Part.asAssignment
      split
      · exact ⟨Node.WellRead.toPattern hps.1, hps.2⟩
      · exact hps
    · rw [if_neg hassign]
      exact hconstruct

/-! ## §5. Tokens. -/

namespace Grammar

/-- The first character of a match is one that the scanner starts with. -/
theorem head?_of_longest? {σ : Type} {m : Scanner σ} {s : List Char} {n : Nat} {d : Char}
    (h : m.longest? s = some n) (hstart : m.accepts m.start = false)
    (hmove : ∀ c s', m.move m.start c = some s' → c = d) : (s.take n).head? = some d := by
  -- the run took a character, since the start does not accept
  obtain ⟨-, state, hrun, hacc⟩ := Scanner.run_of_longest? h
  cases htake : s.take n with
  | nil =>
      rw [htake] at hrun
      cases hrun
      rw [hstart] at hacc
      cases hacc
  | cons c rest =>
      rw [htake] at hrun
      cases hc : m.move m.start c with
      | none => simp [Scanner.run, hc] at hrun
      | some s' =>
          rw [hmove c s' hc]
          rfl

/-- A quoted literal starts with its quote. -/
theorem head?_of_quoted {q : Char} {s : List Char} {n : Nat}
    (h : (quoted q).longest? s = some n) : (s.take n).head? = some q := by
  refine head?_of_longest? h rfl fun c s' hc => ?_
  have hmove : (if (c == q) = true then some StringState.inside else none) = some s' := hc
  by_cases hcq : (c == q) = true
  · exact eq_of_beq hcq
  · simp [hcq] at hmove

theorem head?_of_string {s : List Char} {n : Nat} (h : Lexeme.string.size? s = some n) :
    ∃ c ∈ (s.take n).head?, c ∈ startingChars "string" := by
  unfold Lexeme.size? at h
  cases hdouble : (quoted '"').longest? s with
  | some m =>
      rw [hdouble] at h
      cases h
      exact ⟨'"', head?_of_quoted hdouble, by decide⟩
  | none =>
      rw [hdouble] at h
      have h : (quoted '\'').longest? s = some n := h
      exact ⟨'\'', head?_of_quoted h, by decide⟩

theorem head?_take_succ {s : List Char} {n : Nat} (hn : 0 < n) : (s.take n).head? = s.head? := by
  cases s with
  | nil => simp
  | cons c s =>
      cases n with
      | zero => cases hn
      | succ n => rfl

theorem head?_of_markupString {s : List Char} {n : Nat}
    (h : Lexeme.markupString.size? s = some n) :
    ∃ c ∈ (s.take n).head?, c ∈ startingChars "string" := by
  unfold Lexeme.size? markupString? at h
  cases s with
  | nil => cases h
  | cons q rest =>
      by_cases hq : (q == '"' || q == '\'') = true
      · simp only [hq, if_true] at h
        split at h
        · cases h
          refine ⟨q, rfl, ?_⟩
          rcases Bool.or_eq_true _ _ ▸ hq with hq | hq
          · rw [eq_of_beq hq]
            decide
          · rw [eq_of_beq hq]
            decide
        · cases h
      · simp [hq] at h

/-- A comment starts with its sign. -/
theorem startsAs_of_commentHere? {withMarkup : Bool} {s : List Char} {kind : String} {n : Nat}
    (h : commentHere? withMarkup s = some (kind, n)) : StartsAs kind (s.take n) := by
  intro _
  unfold commentHere? at h
  cases hcomment : comment.longest? s with
  | some m =>
      rw [hcomment] at h
      cases h
      refine ⟨'/', head?_of_longest? hcomment rfl fun c s' hc => ?_, by decide⟩
      have hmove : (if (c == '/') = true then some CommentState.slash else none) = some s' := hc
      by_cases hslash : (c == '/') = true
      · exact eq_of_beq hslash
      · simp [hslash] at hmove
  | none =>
      rw [hcomment] at h
      by_cases hmarkup : withMarkup = true
      · simp only [hmarkup, if_true] at h
        obtain ⟨m, hm, hpair⟩ := Option.map_eq_some_iff.1 h
        cases hpair
        unfold markupComment? at hm
        split at hm
        · next hsign =>
            cases hm
            rcases Bool.or_eq_true _ _ ▸ hsign with hsign | hsign
            · obtain ⟨t, rfl⟩ := List.isPrefixOf_iff_prefix.1 hsign
              exact ⟨'<', rfl, by decide⟩
            · obtain ⟨t, rfl⟩ := List.isPrefixOf_iff_prefix.1 hsign
              exact ⟨'-', rfl, by decide⟩
        · cases hm
      · simp [hmarkup] at h

/-- A comment is of one of two kinds, and takes a character at least. -/
theorem kind_of_commentHere? {withMarkup : Bool} {s : List Char} {kind : String} {n : Nat}
    (h : commentHere? withMarkup s = some (kind, n)) : kind = "comment" ∨ kind = "html_comment" := by
  unfold commentHere? at h
  split at h
  · cases h
    exact .inl rfl
  · split at h
    · obtain ⟨m, -, hpair⟩ := Option.map_eq_some_iff.1 h
      cases hpair
      exact .inr rfl
    · cases h

/-- **A gap is blanks and comments.** -/
theorem isGap_of_mem_readGap {withMarkup : Bool} (budget : List Char) :
    ∀ (row : List Part) (s : List Char),
      ∀ p ∈ (readGap withMarkup budget row s).1, p ∈ row ∨ p.IsGap := by
  induction budget with
  | nil => exact fun _ _ _ hp => .inl hp
  | cons b budget ih =>
      intro row s p hp
      -- the row with the blanks at the start of the text
      have hblanks : ∀ p ∈ (if (s.takeWhile Text.isGap).length = 0 then row
          else .text (String.ofList (s.take (s.takeWhile Text.isGap).length)) :: row),
          p ∈ row ∨ p.IsGap := by
        intro p hp
        by_cases hzero : (s.takeWhile Text.isGap).length = 0
        · rw [if_pos hzero] at hp
          exact .inl hp
        · rw [if_neg hzero] at hp
          rcases List.mem_cons.1 hp with rfl | hp
          · refine .inr fun d hd => ?_
            rw [String.toList_ofList,
              ← List.prefix_iff_eq_take.1 (List.takeWhile_prefix Text.isGap)] at hd
            exact List.all_eq_true.1 List.all_takeWhile d hd
          · exact .inl hp
      unfold readGap at hp
      cases hcomment : commentHere? withMarkup (s.drop (s.takeWhile Text.isGap).length) with
      | none =>
          simp only [hcomment] at hp
          exact hblanks p hp
      | some x =>
          simp only [hcomment] at hp
          rcases ih _ _ p hp with hp | hp
          · rcases List.mem_cons.1 hp with rfl | hp
            · refine .inr ⟨kind_of_commentHere? hcomment, ?_⟩
              rw [String.toList_ofList]
              exact startsAs_of_commentHere? hcomment
            · exact hblanks p hp
          · exact .inr hp

/-- What a gap puts before a row is a gap. -/
theorem isGap_of_readGap {withMarkup : Bool} {s : List Char} :
    ∀ p ∈ (readGap withMarkup s [] s).1, p.IsGap := fun p hp =>
  (isGap_of_mem_readGap s [] s p hp).resolve_left List.not_mem_nil

theorem not_point_of_isWord {t : List Char} (h : IsWord t) : '.' ∉ t := by
  intro hpoint
  have hpiece := h.pieces '.' hpoint
  revert hpiece
  decide

/-- A name of markup may have dashes, but no point. -/
theorem not_point_of_markupName? {s : List Char} {n : Nat} (h : markupName? s = some n) :
    '.' ∉ s.take n := by
  unfold markupName? at h
  cases hdashed : dashedName? s with
  | none =>
      rw [hdashed] at h
      have hword : word.longest? s = some n := h
      exact not_point_of_isWord (isWord_of_longest? hword).2
  | some m =>
      rw [hdashed] at h
      cases h
      -- the first character is a letter, and the others are letters, digits or dashes
      unfold dashedName? at hdashed
      cases s with
      | nil => cases hdashed
      | cons c rest =>
          simp only at hdashed
          split at hdashed
          · next hname =>
              cases hdashed
              intro hpoint
              rw [List.take_succ_cons] at hpoint
              rcases List.mem_cons.1 hpoint with rfl | hpoint
              · revert hname
                simp
              · rw [← List.prefix_iff_eq_take.1 (List.takeWhile_prefix _)] at hpoint
                have hmore := List.all_eq_true.1 List.all_takeWhile '.' hpoint
                revert hmore
                decide
          · cases hdashed

/-- A token of this kind and form looks as its kind asks. -/
def leafChecks (kind : String) (lexeme : Lexeme) : Bool :=
  if kind = "identifier" then
    match lexeme with
    | .name _ | .markupName => true
    | _ => false
  else if kind = "string" then
    match lexeme with
    | .string | .markupString => true
    | _ => false
  else if kind = "hash_bang_line" then lexeme = .hashbang
  else kind ≠ "comment" ∧ kind ≠ "html_comment"

/-- A name that is read by its lexeme is a word. -/
theorem isWord_of_name {besides : List (List Char)} {s : List Char} {n : Nat}
    (h : (Lexeme.name besides).size? s = some n) : IsWord (s.take n) := by
  simp only [Lexeme.size?] at h
  cases hword : word.longest? s with
  | none => simp [hword] at h
  | some m =>
      simp only [hword] at h
      split at h
      · cases h
      · cases h
        exact (isWord_of_longest? hword).2

theorem not_point_of_leafChecks {lexeme : Lexeme} {s : List Char} {n : Nat}
    (hchecks : leafChecks "identifier" lexeme = true) (hsize : lexeme.size? s = some n) :
    '.' ∉ s.take n := by
  unfold leafChecks at hchecks
  rw [if_pos rfl] at hchecks
  cases lexeme with
  | name besides => exact not_point_of_isWord (isWord_of_name hsize)
  | markupName => exact not_point_of_markupName? hsize
  | _ => cases hchecks

theorem startsAs_of_leafChecks {kind : String} {lexeme : Lexeme} {s : List Char} {n : Nat}
    (hchecks : leafChecks kind lexeme = true) (hsize : lexeme.size? s = some n) :
    StartsAs kind (s.take n) := by
  unfold leafChecks at hchecks
  by_cases hname : kind = "identifier"
  · rw [hname]
    exact fun hne => absurd hne (by decide)
  rw [if_neg hname] at hchecks
  by_cases hstring : kind = "string"
  · rw [if_pos hstring] at hchecks
    subst hstring
    intro _
    cases lexeme with
    | string => exact head?_of_string hsize
    | markupString => exact head?_of_markupString hsize
    | _ => cases hchecks
  rw [if_neg hstring] at hchecks
  by_cases hhashbang : kind = "hash_bang_line"
  · rw [if_pos hhashbang] at hchecks
    subst hhashbang
    obtain rfl : lexeme = .hashbang := of_decide_eq_true hchecks
    intro _
    have hsize : hashbang? s = some n := hsize
    unfold hashbang? at hsize
    split at hsize
    · next hsign =>
        cases hsize
        obtain ⟨t, rfl⟩ := List.isPrefixOf_iff_prefix.1 hsign
        exact ⟨'#', rfl, by decide⟩
    · cases hsize
  · rw [if_neg hhashbang] at hchecks
    -- a token of any other kind may start as it likes
    obtain ⟨hcomment, hmarkup⟩ := of_decide_eq_true hchecks
    intro hne
    unfold startingChars at hne
    simp [hstring, hhashbang, hcomment, hmarkup] at hne

theorem wellRead_leaf {kind : String} {lexeme : Lexeme} {s : List Char} {n : Nat}
    (hchecks : leafChecks kind lexeme = true) (hsize : lexeme.size? s = some n) :
    (Node.leaf kind (String.ofList (s.take n))).WellRead := by
  unfold Node.leaf
  by_cases hkind : kind = "identifier"
  · rw [if_pos hkind]
    subst hkind
    show '.' ∉ (String.ofList (s.take n)).toList
    rw [String.toList_ofList]
    exact not_point_of_leafChecks hchecks hsize
  · rw [if_neg hkind]
    show StartsAs kind (String.ofList (s.take n)).toList
    rw [String.toList_ofList]
    exact startsAs_of_leafChecks hchecks hsize

/-! ## §6. Rules. -/

namespace Rule

variable {ν : Type}

/-- The rule takes a point, wherever it is read. -/
def takesPoint : Rule ν → Bool
  | leaf _ lexeme =>
      match lexeme with
      | .sign cs _ => cs.contains '.'
      | _ => false
  | seq first second => takesPoint first || takesPoint second
  | either first second => takesPoint first && takesPoint second
  | scope r | wrap _ r | within _ r => takesPoint r
  | _ => false

/-- What the rule takes last is a word, if it is the name of a property. -/
def endsInWord : Rule ν → Bool
  | leaf kind lexeme =>
      kind ≠ "property_identifier" || match lexeme with
        | .name _ => true
        | _ => false
  | seq _ second => endsInWord second
  | either first second => endsInWord first && endsInWord second
  | _ => false

/-- Whether the row is still `bare` of names behind the rule; `none` where the
rule could put in a name that is no word, or a string behind a name. -/
def namesAfter : (bare : Bool) → Rule ν → Option Bool
  | bare, leaf kind lexeme =>
      if kind = "string" then if bare then some false else none
      else if kind = "identifier" then
        match lexeme with
        | .name _ => some false
        | _ => none
      else some bare
  | bare, seq first second => (namesAfter bare first).bind (namesAfter · second)
  | bare, either first second =>
      (namesAfter bare first).bind fun b => (namesAfter bare second).map (b && ·)
  | bare, within _ r => namesAfter bare r
  | _, many _ | _, scope _ | _, wrap .. | _, call _ => none
  | bare, _ => some bare

/-- The rule builds nodes that look as their kinds ask.  An import specifier is
built only where the row is `fresh`, so that all its names are read by its own
rule. -/
def checks : (fresh : Bool) → Rule ν → Bool
  | _, leaf kind lexeme => leafChecks kind lexeme
  | _, seq first second | _, either first second => checks false first && checks false second
  | _, many r | _, within _ r => checks false r
  | _, scope r => checks true r
  | fresh, wrap kind r =>
      startingChars kind = [] && (kind ≠ "member_expression" || (takesPoint r && endsInWord r))
        && (kind ≠ "import_specifier" || (fresh && (namesAfter true r).isSome))
        && checks false r
  | _, _ => true

end Rule

variable {ν : Type} {rules : ν → Rule ν} {r : Rule ν} {c : Context} {row row' : List Part}
  {s s' : List Char}

theorem Reads.takesPoint (h : Reads rules r c row s row' s') (hr : r.takesPoint = true) :
    '.' ∈ rowText row' := by
  induction h with
  | nothing | gap | ends | stays | stop | again | call | ahead | notAhead | holds | given =>
      cases hr
  | @leaf c row s kind lexeme n hsize =>
      cases lexeme with
      | sign cs butNot =>
          have hmem : '.' ∈ cs := List.contains_iff_mem.1 hr
          simp only [Lexeme.size?] at hsize
          split at hsize
          · next hsign =>
              cases hsize
              obtain ⟨t, rfl⟩ := List.isPrefixOf_iff_prefix.1 (Bool.and_eq_true _ _ ▸ hsign).1
              rw [rowText_cons]
              simp [Part.spelling, hmem]
          · cases hsize
      | _ => cases hr
  | seq _ hsecond ih₁ ih₂ =>
      rcases Bool.or_eq_true _ _ ▸ hr with hr | hr
      · -- what the first rule took stays in the row
        obtain ⟨t, -, ht⟩ := hsecond.consumes
        rw [ht]
        exact List.mem_append_left _ (ih₁ hr)
      · exact ih₂ hr
  | left _ ih => exact ih (Bool.and_eq_true _ _ ▸ hr).1
  | right _ ih => exact ih (Bool.and_eq_true _ _ ▸ hr).2
  | @scope r c row s inner s' _ ih =>
      rw [rowText_append]
      exact List.mem_append_right _ (ih hr)
  | @wrap r c row s kind row' s' _ ih =>
      have hrow := ih hr
      rw [rowText_cons]
      simpa [Part.spelling, Node.spelling_build, rowText] using hrow
  | within _ ih => exact ih hr

theorem Reads.endsInWord (h : Reads rules r c row s row' s') (hr : r.endsInWord = true) :
    Part.EndInWord row'.reverse := by
  induction h with
  | @leaf c row s kind lexeme n hsize =>
      intro property hlast
      rw [List.reverse_cons, List.getLast?_concat] at hlast
      unfold Node.leaf at hlast
      split at hlast
      · cases hlast
      · cases hlast
        -- the name of a property is read as a name
        cases lexeme with
        | name besides =>
            rw [String.toList_ofList]
            exact isWord_of_name hsize
        | _ => cases hr
  | seq _ _ _ ih₂ => exact ih₂ hr
  | left _ ih => exact ih (Bool.and_eq_true _ _ ▸ hr).1
  | right _ ih => exact ih (Bool.and_eq_true _ _ ▸ hr).2
  | _ => cases hr

/-- The names in a row, latest part first, are those of one specifier; a `bare`
row has none. -/
def RowNames (bare : Bool) (row : List Part) : Prop :=
  SpecifierNames (Part.exportNames row.reverse) ∧ (bare = true → Part.exportNames row.reverse = [])

theorem exportNames_reverse_append (inner row : List Part) :
    Part.exportNames (inner ++ row).reverse
      = Part.exportNames row.reverse ++ Part.exportNames inner.reverse := by
  simp [Part.exportNames, Part.nodes]

/-- A gap holds no name. -/
theorem exportNames_of_isGap {ps : List Part} (hps : ∀ p ∈ ps, p.IsGap) :
    Part.exportNames ps = [] := by
  refine List.filterMap_eq_nil_iff.2 fun n hn => ?_
  obtain ⟨p, hp, hpn⟩ := List.mem_filterMap.1 hn
  have hgap : p.IsGap := hps p hp
  cases p with
  | text t => cases hpn
  | node m =>
      cases hpn
      cases n with
      | token kind t => rcases hgap.1 with rfl | rfl <;> rfl
      | _ => cases hgap

theorem RowNames.readGap {bare withMarkup : Bool} {row : List Part} (h : RowNames bare row)
    (s : List Char) : RowNames bare ((readGap withMarkup s [] s).1 ++ row) := by
  have hgap : Part.exportNames (Grammar.readGap withMarkup s [] s).1.reverse = [] :=
    exportNames_of_isGap fun p hp => isGap_of_readGap p (List.mem_reverse.1 hp)
  unfold RowNames
  rw [exportNames_reverse_append, hgap, List.append_nil]
  exact h

/-- A part without a name changes nothing. -/
theorem RowNames.cons {bare : Bool} {row : List Part} (h : RowNames bare row) {n : Node}
    (hn : n.exportName? = none) : RowNames bare (.node n :: row) := by
  have hnames : Part.exportNames [Part.node n].reverse = [] := by
    simp [Part.exportNames, Part.nodes, Part.node?, hn]
  have happend := exportNames_reverse_append [.node n] row
  rw [hnames, List.append_nil] at happend
  unfold RowNames
  rw [List.cons_append, List.nil_append] at happend
  rw [happend]
  exact h

/-- A name is a word, or the first name. -/
theorem RowNames.cons_name {bare : Bool} {row : List Part} (h : RowNames bare row) {n : Node}
    {x : String × Bool} (hn : n.exportName? = some x) (hword : x.2 = false → IsWord x.1.toList)
    (hfirst : x.2 = true → bare = true) : RowNames false (.node n :: row) := by
  have hnames : Part.exportNames [Part.node n].reverse = [x] := by
    simp [Part.exportNames, Part.nodes, Part.node?, hn]
  have happend := exportNames_reverse_append [.node n] row
  rw [hnames, List.cons_append, List.nil_append] at happend
  obtain ⟨⟨hwords, htail⟩, hbare⟩ := h
  refine ⟨?_, fun hne => by cases hne⟩
  rw [happend]
  constructor
  · intro y hy
    rcases List.mem_append.1 hy with hy | hy
    · exact hwords y hy
    · rw [List.mem_singleton.1 hy]
      exact hword
  · intro y hy
    cases hrow : Part.exportNames row.reverse with
    | nil =>
        rw [hrow] at hy
        cases hy
    | cons z rest =>
        rw [hrow, List.cons_append, List.tail_cons] at hy
        rcases List.mem_append.1 hy with hy | hy
        · exact htail y (by rw [hrow]; exact hy)
        · -- a string would have been the first name
          rw [List.mem_singleton.1 hy]
          refine Bool.eq_false_iff.2 fun hstring => ?_
          rw [hbare (hfirst hstring)] at hrow
          cases hrow

theorem Reads.rowNames (h : Reads rules r c row s row' s') :
    ∀ {bare bare' : Bool}, r.namesAfter bare = some bare' → RowNames bare row →
      RowNames bare' row' := by
  induction h with
  | nothing | stays | ahead | notAhead | holds | given =>
      intro bare bare' hr hrow
      cases hr
      exact hrow
  | @leaf c row s kind lexeme n hsize =>
      intro bare bare' hr hrow
      -- a string is a name only at the front, an identifier is a word,
      -- and any other token is no name
      simp only [Rule.namesAfter] at hr
      by_cases hstring : kind = "string"
      · subst hstring
        rw [if_pos rfl] at hr
        by_cases hbare : bare = true
        · rw [if_pos hbare] at hr
          cases hr
          exact hrow.cons_name (x := (quotedText (String.ofList (s.take n)), true)) rfl
            (fun h => by cases h) fun _ => hbare
        · rw [if_neg hbare] at hr
          cases hr
      rw [if_neg hstring] at hr
      by_cases hname : kind = "identifier"
      · subst hname
        rw [if_pos rfl] at hr
        cases lexeme with
        | name besides =>
            cases hr
            refine hrow.cons_name (x := (String.ofList (s.take n), false)) rfl (fun _ => ?_)
              fun h => by cases h
            rw [String.toList_ofList]
            exact isWord_of_name hsize
        | _ => cases hr
      · rw [if_neg hname] at hr
        cases hr
        refine hrow.cons ?_
        unfold Node.leaf
        rw [if_neg hname]
        unfold Node.exportName?
        split
        · next heq => cases heq
        · next heq =>
            cases heq
            exact absurd rfl hstring
        · rfl
  | gap =>
      intro bare bare' hr hrow
      cases hr
      exact hrow.readGap _
  | ends =>
      intro bare bare' hr hrow
      cases hr
      exact hrow.readGap _
  | seq _ _ ih₁ ih₂ =>
      intro bare bare' hr hrow
      obtain ⟨b, hfirst, hsecond⟩ := Option.bind_eq_some_iff.1 hr
      exact ih₂ hsecond (ih₁ hfirst hrow)
  | left _ ih =>
      intro bare bare' hr hrow
      obtain ⟨b, hfirst, hmap⟩ := Option.bind_eq_some_iff.1 hr
      -- the row is bare behind a choice if it is so behind both ways
      obtain ⟨b', hsecond, rfl⟩ := Option.map_eq_some_iff.1 hmap
      have hrow' := ih hfirst hrow
      exact ⟨hrow'.1, fun hb => hrow'.2 (Bool.and_eq_true _ _ ▸ hb).1⟩
  | right _ ih =>
      intro bare bare' hr hrow
      obtain ⟨b, hfirst, hmap⟩ := Option.bind_eq_some_iff.1 hr
      obtain ⟨b', hsecond, rfl⟩ := Option.map_eq_some_iff.1 hmap
      have hrow' := ih hsecond hrow
      exact ⟨hrow'.1, fun hb => hrow'.2 (Bool.and_eq_true _ _ ▸ hb).2⟩
  | within _ ih => exact fun hr hrow => ih hr hrow
  | _ => exact fun hr => by cases hr

theorem wellRead_of_readGap {withMarkup : Bool} {s : List Char} {row : List Part}
    (hrow : ∀ p ∈ row, p.WellRead) :
    ∀ p ∈ (readGap withMarkup s [] s).1 ++ row, p.WellRead := by
  intro p hp
  rcases List.mem_append.1 hp with hp | hp
  · exact (isGap_of_readGap p hp).wellRead
  · exact hrow p hp

/-- **A grammar all of whose rules pass their checks builds well-read trees.** -/
theorem Reads.wellRead (hrules : ∀ name, (rules name).checks false = true)
    (h : Reads rules r c row s row' s') :
    ∀ fresh, r.checks fresh = true → (fresh = true → row = []) → (∀ p ∈ row, p.WellRead) →
      ∀ p ∈ row', p.WellRead := by
  induction h with
  | nothing | stays | stop | ahead | notAhead | holds | given => exact fun _ _ _ hrow => hrow
  | @leaf c row s kind lexeme n hsize =>
      intro _ hr _ hrow p hp
      rcases List.mem_cons.1 hp with rfl | hp
      · exact wellRead_leaf hr hsize
      · exact hrow p hp
  | gap => exact fun _ _ _ hrow => wellRead_of_readGap hrow
  | ends => exact fun _ _ _ hrow => wellRead_of_readGap hrow
  | seq _ _ ih₁ ih₂ =>
      intro _ hr _ hrow
      obtain ⟨hfirst, hsecond⟩ := Bool.and_eq_true _ _ ▸ hr
      exact ih₂ false hsecond (fun h => by cases h) (ih₁ false hfirst (fun h => by cases h) hrow)
  | again _ _ ih₁ ih₂ =>
      intro fresh hr _ hrow
      exact ih₂ false hr (fun h => by cases h) (ih₁ false hr (fun h => by cases h) hrow)
  | left _ ih =>
      intro _ hr _ hrow
      exact ih false (Bool.and_eq_true _ _ ▸ hr).1 (fun h => by cases h) hrow
  | right _ ih =>
      intro _ hr _ hrow
      exact ih false (Bool.and_eq_true _ _ ▸ hr).2 (fun h => by cases h) hrow
  | scope _ ih =>
      intro _ hr _ hrow p hp
      rcases List.mem_append.1 hp with hp | hp
      · exact ih true hr (fun _ => rfl) (fun _ h => absurd h List.not_mem_nil) p hp
      · exact wellRead_of_readGap hrow p hp
  | @wrap r c row s kind row' s' hinner ih =>
      intro fresh hr hfresh hrow p hp
      -- the node holds the whole row, so a specifier needs that the row was empty before
      simp only [Rule.checks, Bool.and_eq_true, Bool.or_eq_true, decide_eq_true_eq] at hr
      obtain ⟨⟨⟨hkind, hmember⟩, hspecifier⟩, hchecks⟩ := hr
      rw [List.mem_singleton.1 hp]
      have hrow' := ih false hchecks (fun h => by cases h) hrow
      refine Node.wellRead_build ?_ hkind ?_ ?_
      · exact Part.allWellRead_iff.2 fun q hq => hrow' q (List.mem_reverse.1 hq)
      · intro heq
        obtain ⟨hf, hnames⟩ := hspecifier.resolve_left (fun hne => hne heq)
        obtain ⟨bare, hbare⟩ := Option.isSome_iff_exists.1 hnames
        rw [hfresh hf] at hinner
        have hempty : RowNames true [] :=
          ⟨⟨fun _ h => absurd h List.not_mem_nil, fun _ h => absurd h List.not_mem_nil⟩, fun _ => rfl⟩
        exact (hinner.rowNames hbare hempty).1
      · intro heq
        obtain ⟨hpoint, hword⟩ := hmember.resolve_left fun hne => hne heq
        exact ⟨hinner.takesPoint hpoint, hinner.endsInWord hword⟩
  | call _ ih => exact fun _ _ _ hrow => ih false (hrules _) (fun h => by cases h) hrow
  | within _ ih => exact fun _ hr _ hrow => ih false hr (fun h => by cases h) hrow

theorem rule_checks : ∀ name : Symbol, (rule name).checks false = true := by
  intro name
  cases name <;> decide +kernel

end Grammar

end ImportSplit
