/-
  ImportSplit.Proofs.WrittenAccesses
  ────────────────────────────────
  **AN ACCESS WITH BLANKS AND COMMENTS IN IT.**

  The object of an access may stand in parentheses, and between any two tokens
  blanks and comments may be written:

      ( /* a */ ( _ ) ) /* b */ . map ;

  Such a text is a statement with an access on the name exactly if no comment
  stands inside the parentheses, no comment beside the point has `?.` in it, and
  the statement does not end of itself before the point.  Each of the three can
  fail: the tree keeps a comment beside the name, the sign is looked for in the
  whole operator, and a blank that is not of ASCII behind a line end counts as
  the start of a statement.
-/
import ImportSplit.Proofs.ReadExpressions
import ImportSplit.Tree.Accesses

namespace ImportSplit

/-! ## §1. Written accesses. -/

/-- A name, or one in parentheses. -/
inductive WrittenObject where
  | name (x : String)
  | parenthesized (before : Filling) (object : WrittenObject) (behind : Filling)

namespace WrittenObject

/-- The object as it is written. -/
def text : WrittenObject → List Char
  | name x => x.toList
  | parenthesized before object behind =>
      '(' :: (before.text ++ (object.text ++ (behind.text ++ [')'])))

/-- The name inside all parentheses. -/
def innerName : WrittenObject → String
  | name x => x
  | parenthesized _ object _ => object.innerName

/-- A comment stands inside the parentheses. -/
def hasComment : WrittenObject → Bool
  | name _ => false
  | parenthesized before object behind =>
      !before.comments.isEmpty || object.hasComment || !behind.comments.isEmpty

end WrittenObject

/-- `object . property ;` with what is written between the tokens. -/
structure WrittenAccess where
  object : WrittenObject
  beforePoint : Filling
  behindPoint : Filling
  property : String
  beforeEnd : Filling

namespace WrittenAccess

/-- What is written between object and property. -/
def operator (a : WrittenAccess) : List Char := a.beforePoint.text ++ '.' :: a.behindPoint.text

/-- What is written behind the property. -/
def behindProperty (a : WrittenAccess) : List Char := a.beforeEnd.text ++ [';']

/-- What is written behind the object. -/
def behindObject (a : WrittenAccess) : List Char :=
  a.beforePoint.text ++ '.' :: (a.behindPoint.text ++ (a.property.toList ++ a.behindProperty))

/-- The whole statement. -/
def text (a : WrittenAccess) : List Char := a.object.text ++ a.behindObject

/-- The words of the access are names where they stand: the object is one in an
expression, and without parentheses no word that starts another statement. -/
structure IsNamed (d : Dialect) (a : WrittenAccess) : Prop where
  object : Grammar.IsName a.object.innerName
  opening : a.object = .name a.object.innerName → a.object.innerName ∉ Grammar.openingWords d
  property : Grammar.IsWord a.property.toList

/-- The statement ends of itself before the point. -/
def endsEarly (d : Dialect) (a : WrittenAccess) : Bool :=
  (Grammar.Semicolon.absorbed? d true a.behindObject).isSome

end WrittenAccess

/-! ## §2. Parts that are told by their nodes. -/

/-- The node is one of the two parentheses. -/
def Node.isParenthesis (n : Node) : Bool := n.isToken "(" || n.isToken ")"

namespace Part

theorem onlyParentheses_eq (ps : List Part) :
    onlyParentheses ps = (nodes ps).all Node.isParenthesis := by
  induction ps with
  | nil => rfl
  | cons p ps ih =>
      cases p with
      | text t => exact ih
      | node n =>
          rw [onlyParentheses, ih]
          rfl

theorem loneName?_eq (ps : List Part) :
    loneName? ps = match (nodes ps).dropWhile Node.isParenthesis with
      | [] => none
      | n :: rest => if rest.all Node.isParenthesis then n.name? else none := by
  induction ps with
  | nil => rfl
  | cons p ps ih =>
      cases p with
      | text t => exact ih
      | node n =>
          have hnodes : nodes (.node n :: ps) = n :: nodes ps := rfl
          have hlone : loneName? (.node n :: ps) = if n.isParenthesis then loneName? ps
              else if (nodes ps).all Node.isParenthesis then n.name? else none := by
            rw [loneName?, onlyParentheses_eq]
            rfl
          rw [hnodes, hlone, List.dropWhile_cons]
          by_cases hn : n.isParenthesis = true
          · rw [if_pos hn, if_pos hn, ih]
          · rw [if_neg hn, if_neg hn]

theorem accessesOfList_eq (ps : List Part) :
    accessesOfList ps = (nodes ps).flatMap Node.accesses := by
  induction ps with
  | nil => rfl
  | cons p ps ih =>
      rw [accessesOfList, ih]
      cases p <;> rfl

theorem areSettled_eq (ps : List Part) : areSettled ps = (nodes ps).all Node.isSettled := by
  induction ps with
  | nil => rfl
  | cons p ps ih =>
      rw [areSettled, ih]
      cases p <;> rfl

/-- A plain property at the end is split off. -/
theorem splitProperty?_append (ps : List Part) (property : String) :
    splitProperty? (ps ++ [.node (.token "property_identifier" property)])
      = some (ps, property) := by
  induction ps with
  | nil => rfl
  | cons p ps ih =>
      have hmap : splitProperty? (p :: (ps ++ [.node (.token "property_identifier" property)]))
          = (splitProperty? (ps ++ [.node (.token "property_identifier" property)])).map
              fun split => (p :: split.1, split.2) := by
        cases ps <;> simp [splitProperty?]
      rw [List.cons_append, hmap, ih]
      rfl

end Part

namespace Filling

/-- The comments of a filling are tokens that start with a slash. -/
theorem of_mem_comments {g : Filling} {n : Node} (h : n ∈ g.comments) :
    ∃ t, n = .token "comment" (String.ofList ('/' :: t)) := by
  obtain ⟨f, -, hf⟩ := List.mem_filterMap.1 h
  cases f with
  | blank => cases hf
  | comment body hbody => exact ⟨_, (Option.some.inj hf).symm⟩

theorem isParenthesis_of_mem {g : Filling} {n : Node} (h : n ∈ g.comments) :
    n.isParenthesis = false := by
  obtain ⟨t, rfl⟩ := of_mem_comments h
  have hother : ∀ w : Char, w ≠ '/' →
      (String.ofList ('/' :: t) == String.ofList [w]) = false := by
    intro w hw
    refine beq_eq_false_iff_ne.2 fun heq => hw ?_
    exact (List.cons.inj (String.ofList_inj.1 heq)).1.symm
  show (_ || _) = false
  rw [Bool.or_eq_false_iff]
  exact ⟨hother '(' (by decide), hother ')' (by decide)⟩

/-- They hold no access. -/
theorem flatMap_accesses (g : Filling) : g.comments.flatMap Node.accesses = [] := by
  refine List.flatMap_eq_nil_iff.2 fun n hn => ?_
  obtain ⟨t, rfl⟩ := of_mem_comments hn
  rfl

theorem all_isSettled (g : Filling) : g.comments.all Node.isSettled = true := by
  refine List.all_eq_true.2 fun n hn => ?_
  obtain ⟨t, rfl⟩ := of_mem_comments hn
  rfl

end Filling

/-! ## §3. Objects. -/

open Grammar

namespace WrittenObject

variable {o : WrittenObject} {rest : List Char} {e : Char}

theorem text_parenthesized (before : Filling) (o : WrittenObject) (behind : Filling)
    (rest : List Char) :
    (parenthesized before o behind).text ++ rest
      = '(' :: (before.text ++ (o.text ++ (behind.text ++ ')' :: rest))) := by
  simp [text]

/-- No gap starts at an object. -/
theorem atToken (hname : IsName o.innerName) (rest : List Char) : AtToken .js (o.text ++ rest) := by
  cases o with
  | name x => exact hname.word.atToken rest
  | parenthesized before o behind =>
      rw [text_parenthesized]
      exact atToken_sign (by decide) _

theorem isSign (he : e ∈ [')', '.']) : e ∈ ['(', ')', '.', ';'] :=
  List.Sublist.subset (by decide) he

/-- An object starts in one of three ways. -/
theorem opening {besides : List String} (hname : IsName o.innerName)
    (hbesides : o = .name o.innerName → o.innerName ∉ besides) (he : e ∈ [')', '.'])
    (hrest : Follows e rest) : ∃ ms ∈ openings besides e, Stand ms (o.text ++ rest) := by
  have hsign := isSign he
  cases o with
  | name x =>
      exact ⟨_, List.mem_cons_self, hname.word.stand (hbesides rfl) (hrest.endsWord hsign)
        (hrest.stand hsign)⟩
  | parenthesized before o behind =>
      rw [text_parenthesized]
      cases o with
      | name x =>
          have hname : IsName x := hname
          have hclose : Follows ')' (behind.text ++ ')' :: rest) :=
            .of_filling (by decide) behind rest
          refine ⟨_, List.mem_cons_of_mem _ List.mem_cons_self,
            stand_sign (by decide) (by simp) ?_⟩
          rw [text, pastGap_filling before (hname.word.atToken _)]
          refine hname.word.stand hname.free (hclose.endsWord (by decide)) ?_
          rw [pastGap_filling behind (atToken_sign (by decide) rest)]
          exact stand_sign (by decide) (by simp) (hrest.stand hsign)
      | parenthesized before' o behind' =>
          refine ⟨_, List.mem_cons_of_mem _ (List.mem_cons_of_mem _ List.mem_cons_self),
            stand_sign (by decide) (by simp) ?_⟩
          rw [text_parenthesized, pastGap_filling before (atToken_sign (by decide) _)]
          exact stand_sign (by decide) (by simp) trivial

/-- The node stands for the object. -/
structure IsNode (o : WrittenObject) (n : Node) : Prop where
  name : n.name? = if o.hasComment then none else some o.innerName
  accesses : n.accesses = []
  settled : n.isSettled = true
  visible : n.isParenthesis = false

/-- A name in parentheses is seen if nothing else stands in them. -/
theorem IsNode.parenthesized {n : Node} (h : o.IsNode n) {before behind : Filling}
    {ps : List Part} (hnodes : Part.nodes ps = .token "(" "(" :: (before.comments ++ n ::
      (behind.comments ++ [.token ")" ")"]))) :
    (WrittenObject.parenthesized before o behind).IsNode
      (.construct "parenthesized_expression" ps) where
  name := by
    have hlone : (Node.construct "parenthesized_expression" ps).name? = Part.loneName? ps := rfl
    rw [hlone, Part.loneName?_eq, hnodes, List.dropWhile_cons, if_pos (by rfl)]
    cases hbefore : before.comments with
    | cons k ks =>
        -- a comment before the name is found first, and is not alone
        have hk : k.isParenthesis = false :=
          Filling.isParenthesis_of_mem (by rw [hbefore]; exact List.mem_cons_self)
        simp [hasComment, hbefore, hk, h.visible]
    | nil =>
        cases hbehind : behind.comments with
        | cons k ks =>
            have hk : k.isParenthesis = false :=
              Filling.isParenthesis_of_mem (by rw [hbehind]; exact List.mem_cons_self)
            simp [hasComment, hbefore, hbehind, hk, h.visible]
        | nil =>
            have hclose : (Node.token ")" ")").isParenthesis = true := rfl
            simp [hasComment, hbefore, hbehind, hclose, h.visible, h.name, innerName]
  accesses := by
    rw [Node.accesses, Part.accessesOfList_eq, hnodes]
    simp [Filling.flatMap_accesses, h.accesses, Node.accesses]
  settled := by
    have hparts : Part.areSettled ps = true := by
      rw [Part.areSettled_eq, hnodes]
      simp only [List.all_cons, List.all_append, List.all_nil, h.settled, Bool.and_true,
        Filling.all_isSettled, Node.isSettled]
    show (_ && Part.areSettled ps) = true
    rw [hparts]
    rfl
  visible := rfl

/-- What is tried before an object is refused. -/
theorem refuses (hname : IsName o.innerName) (he : e ∈ [')', '.']) (hrest : Follows e rest)
    (d : Dialect) (inside : Bool) : ∀ r ∈ beforeChain ++ beforeName,
      Refuses readDeep r (place d inside) (o.text ++ rest) := by
  obtain ⟨ms, hms, hstand⟩ := opening hname (fun _ => hname.free) he hrest
  exact refuses_of_isBarred (opening_barred d inside e he ms hms) hstand

/-- **Something in parentheses is read as the base of a chain** if it is one itself. -/
theorem gives_parenthesized {n : Node} (before : Filling) {behind : Filling}
    (hname : IsName o.innerName) (he : e ∈ [')', '.']) (hrest : Follows e rest) (d : Dialect)
    (inside : Bool)
    (hbase : Gives readDeep chainBase (place d true) (o.text ++ (behind.text ++ ')' :: rest))
      [.node n] (behind.text ++ ')' :: rest)) :
    ∃ ps, Part.nodes ps = .token "(" "(" :: (before.comments ++ n ::
        (behind.comments ++ [.token ")" ")"]))
      ∧ Gives readDeep chainBase (place d inside) ((parenthesized before o behind).text ++ rest)
        [.node (.construct "parenthesized_expression" ps)] rest := by
  have hclose : Follows ')' (behind.text ++ ')' :: rest) := .of_filling (by decide) behind rest
  have hclosed : Stand [.sign ')'] (pastGap (behind.text ++ ')' :: rest)) :=
    hclose.stand (by decide)
  have hobject := atToken hname (behind.text ++ ')' :: rest)
  obtain ⟨row, hrow, hcomments, -⟩ := before.readGap hobject
  obtain ⟨row', hrow', hcomments', -⟩ :=
    behind.readGap (atToken_sign (e := ')') (by decide) rest)
  -- what stands in the parentheses is all of the expressions there
  have hstop := refuses_of_isBarred (closing_barred d true ')' (by decide)) hclosed
  have hinner := refuses hname List.mem_cons_self hclose d true
  have hexpressions := gives_expressions hrow hobject
    (fun r hr => hinner r (List.mem_append_left _ hr))
    (gives_chain hobject.noGap hbase (hstop _ List.mem_cons_self))
    (refuses_of_isBarred (behind_barred d true ')' (by decide)) hclosed)
  -- nothing but parentheses starts with a parenthesis
  have hbefore : ∀ r ∈ beforeName ++ beforeParenthesis, Refuses readDeep r (place d inside)
      ('(' :: (before.text ++ (o.text ++ (behind.text ++ ')' :: rest)))) := by
    intro r hr
    rcases List.mem_append.1 hr with hr | hr
    · rw [← text_parenthesized]
      exact refuses (o := parenthesized before o behind) hname he hrest d inside r
        (List.mem_append_right _ hr)
    · exact refuses_of_isBarred (parenthesis_barred d inside)
        (stand_sign (by decide) (by simp) trivial) r hr
  have hbracketed : (place d inside).bracketed = place d true := by cases inside <;> rfl
  rw [← hbracketed] at hexpressions hstop
  have hgives := Grammar.gives_parenthesized hbefore hexpressions
    (hstop _ (List.mem_cons_of_mem _ List.mem_cons_self)) hrow'
  rw [← text_parenthesized] at hgives
  refine ⟨_, ?_, hgives⟩
  simp only [Part.nodes, List.filterMap_cons, List.filterMap_append, List.filterMap_nil,
    Part.node?] at hcomments hcomments' ⊢
  rw [hcomments, hcomments', List.append_assoc]
  rfl

/-- **An object is read as a node that stands for it.** -/
theorem gives (hname : IsName o.innerName) (he : e ∈ [')', '.']) (hrest : Follows e rest)
    (d : Dialect) (inside : Bool) :
    ∃ n, o.IsNode n
      ∧ Gives readDeep chainBase (place d inside) (o.text ++ rest) [.node n] rest := by
  -- by the depth of the parentheses: what stands in them is followed by the closing one
  induction o generalizing e rest inside with
  | name x =>
      have hbefore := refuses hname he hrest d inside
      exact ⟨.identifier x, ⟨rfl, rfl, rfl, rfl⟩, gives_name hname (hrest.endsWord (isSign he))
        fun r hr => hbefore r (List.mem_append_right _ hr)⟩
  | parenthesized before o behind ih =>
      have hname : IsName o.innerName := hname
      have hclose : Follows ')' (behind.text ++ ')' :: rest) :=
        .of_filling (by decide) behind rest
      obtain ⟨n, hn, hbase⟩ := ih hname List.mem_cons_self hclose true
      obtain ⟨ps, hps, hgives⟩ := gives_parenthesized before hname he hrest d inside hbase
      exact ⟨_, hn.parenthesized hps, hgives⟩

end WrittenObject

/-! ## §4. Accesses. -/

namespace WrittenAccess

variable {d : Dialect} {a : WrittenAccess}

/-- Behind the point stands no digit and no point. -/
theorem head?_behindPoint (hproperty : IsWord a.property.toList) (rest : List Char) :
    ∀ c ∈ (a.behindPoint.text ++ (a.property.toList ++ rest)).head?,
      isDigit c = false ∧ c ≠ '.' := by
  intro c hc
  by_cases hg : a.behindPoint = []
  · rw [hg] at hc
    obtain ⟨k, hk, hmove⟩ := hproperty.exists_move
    have hhead : (a.property.toList ++ rest).head? = some k := by
      rw [List.head?_append, hk]
      rfl
    obtain rfl : k = c := Option.some.inj (hhead.symm.trans hc)
    obtain ⟨hdigit, hsigns⟩ := of_word_move hmove
    exact ⟨hdigit, fun heq => hsigns (heq ▸ List.mem_cons_self)⟩
  · obtain ⟨k, hk, hor⟩ := Filling.head?_text hg (a.property.toList ++ rest)
    obtain rfl : k = c := Option.some.inj (hk.symm.trans hc)
    rcases hor with hgap | rfl
    · refine ⟨Bool.eq_false_iff.2 fun hdigit => ?_, fun heq => ?_⟩
      · have hrange := Bool.and_eq_true _ _ ▸ hdigit
        rw [isGap_of_isWordChar (isWordChar_of_ascii
          (.inl ⟨of_decide_eq_true hrange.1, of_decide_eq_true hrange.2⟩))] at hgap
        cases hgap
      · rw [heq] at hgap
        cases hgap
    · decide

/-- The node stands for the access. -/
structure IsNode (a : WrittenAccess) (m : Node) : Prop where
  accesses : ∃ n, a.object.IsNode n ∧ m.accesses = if hasOptionalSign a.operator then []
    else [⟨n, String.ofList a.operator, a.property⟩]
  settled : m.isSettled = true

/-- An object, the point and a property make an access, unless `?.` stands between. -/
theorem isNode_build {n : Node} (hn : a.object.IsNode n) {g g' : List Part}
    (hg : Part.nodes g = a.beforePoint.comments
      ∧ Part.spellingOfList g = String.ofList a.beforePoint.text)
    (hg' : Part.nodes g' = a.behindPoint.comments
      ∧ Part.spellingOfList g' = String.ofList a.behindPoint.text) :
    a.IsNode (Node.build "member_expression" (.node n :: (g ++ (.node (.token "." ".") ::
      (g' ++ [.node (.token "property_identifier" a.property)]))))) := by
  have hsplit := Part.splitProperty?_append (g ++ (.node (.token "." ".") :: g')) a.property
  rw [List.append_assoc, List.cons_append] at hsplit
  have hoperator : Part.spellingOfList (g ++ (.node (.token "." ".") :: g'))
      = String.ofList a.operator := by
    rw [Part.spellingOfList_append, hg.2]
    show _ ++ ("." ++ Part.spellingOfList g') = _
    rw [hg'.2, ← String.toList_inj]
    simp [operator]
  unfold Node.build
  rw [if_pos rfl]
  simp only [Node.access?, hsplit, hoperator, String.toList_ofList]
  by_cases hoptional : hasOptionalSign a.operator = true
  · rw [if_pos hoptional, Option.getD_none]
    have hnodes : Part.nodes (.node n :: (g ++ (.node (.token "." ".") ::
          (g' ++ [.node (.token "property_identifier" a.property)]))))
        = n :: (a.beforePoint.comments ++ .token "." "." ::
          (a.behindPoint.comments ++ [.token "property_identifier" a.property])) := by
      rw [← hg.1, ← hg'.1]
      simp [Part.nodes, Part.node?]
    refine ⟨⟨n, hn, ?_⟩, ?_⟩
    · rw [if_pos hoptional, Node.accesses, Part.accessesOfList_eq, hnodes]
      simp [hn.accesses, Filling.flatMap_accesses, Node.accesses]
    · show (_ && Part.areSettled _) = true
      rw [Part.areSettled_eq, hnodes]
      simp [hn.settled, Filling.all_isSettled, Node.isSettled]
  · rw [if_neg hoptional, Option.getD_some]
    refine ⟨⟨n, hn, ?_⟩, hn.settled⟩
    rw [if_neg hoptional, Node.accesses, hn.accesses]

theorem follows_behindProperty : Follows ';' a.behindProperty :=
  .of_filling (by decide) a.beforeEnd []

theorem follows_behindObject (hproperty : IsWord a.property.toList) :
    Follows '.' a.behindObject :=
  ⟨a.beforePoint, _, rfl, fun _ k hk => (head?_behindPoint hproperty _ k hk).1⟩

/-- A point and a property are read as such. -/
theorem gives_member (hproperty : IsWord a.property.toList) (d : Dialect) :
    ∃ g g', (Part.nodes g = a.beforePoint.comments
        ∧ Part.spellingOfList g = String.ofList a.beforePoint.text)
      ∧ (Part.nodes g' = a.behindPoint.comments
        ∧ Part.spellingOfList g' = String.ofList a.behindPoint.text)
      ∧ Gives readDeep (Rule.row [.either (.sign ".") optionalSign, Grammar.property]) { dialect := d }
        a.behindObject (g ++ (.node (.token "." ".") ::
          (g' ++ [.node (.token "property_identifier" a.property)]))) a.behindProperty := by
  have hafter := head?_behindPoint (a := a) hproperty a.behindProperty
  obtain ⟨row, hrow, hcomments, hspelling⟩ := a.beforePoint.readGap (atToken_sign (e := '.')
    (by decide) (a.behindPoint.text ++ (a.property.toList ++ a.behindProperty)))
  obtain ⟨row', hrow', hcomments', hspelling'⟩ :=
    a.behindPoint.readGap (hproperty.atToken a.behindProperty)
  refine ⟨row.reverse, row'.reverse, ⟨hcomments, hspelling⟩, ⟨hcomments', hspelling'⟩, ?_⟩
  -- the point is not the first of three
  have hsize : (Lexeme.sign ".".toList (Rule.continuations ".")).size?
      (['.'] ++ (a.behindPoint.text ++ (a.property.toList ++ a.behindProperty)))
        = some ['.'].length := by
    have hcontinuations : Rule.continuations "." = [['.', '.']] := by decide
    rw [hcontinuations]
    cases hrest : a.behindPoint.text ++ (a.property.toList ++ a.behindProperty) with
    | nil => rfl
    | cons k rest =>
        have hk : k ≠ '.' := (hafter k (by rw [hrest]; exact rfl)).2
        simp [Lexeme.size?, hk.symm]
  have hpoint : Gives readDeep (Rule.sign ".") { dialect := d } a.behindObject
      (row.reverse ++ [.node (.leaf "." (String.ofList ['.']))]) _ := gives_token hrow hsize
  have hends : EndsWord a.behindProperty := follows_behindProperty.endsWord (by decide)
  have hname : Gives readDeep Grammar.property { dialect := d } _
      (row'.reverse ++ [.node (.leaf "property_identifier" a.property)]) a.behindProperty :=
    (gives_word hproperty hends hrow').left
  have hgives := Gives.row (hpoint.left : Gives readDeep (.either _ optionalSign) _ _ _ _) hname.last
  rw [List.append_assoc] at hgives
  exact hgives

/-- Behind an object a chain goes on with the point, unless the statement ends. -/
theorem step_chainSuffix {n : Node} (hn : a.object.IsNode n)
    (hproperty : IsWord a.property.toList) (hstays : a.endsEarly d = false) :
    ∃ m, a.IsNode m ∧ step readDeep chainSuffix { dialect := d } [.node n] a.behindObject
      = .done [.node m] a.behindProperty := by
  obtain ⟨g, g', hg, hg', hgives⟩ := gives_member hproperty d
  have hstep : step readDeep (.stays true) { dialect := d } [.node n] a.behindObject
      = .done [.node n] a.behindObject := by
    have hnone : (Context.absorbed? { dialect := d } true a.behindObject).isSome = false := hstays
    rw [step, hnone, Bool.and_false]
    rfl
  refine ⟨_, isNode_build hn hg hg', ?_⟩
  unfold chainSuffix
  rw [step_row hstep]
  exact step_oneOf (hgives.step_wrap _)

/-! ## §5. The statement. -/

/-- No gap starts at an access. -/
theorem atToken (h : a.IsNamed d) : AtToken .js a.text :=
  WrittenObject.atToken h.object a.behindObject

/-- Nor is it a line `#!…`. -/
theorem hashbang?_text (h : a.IsNamed d) : hashbang? a.text = none := by
  have hhead : ∀ o : WrittenObject, IsName o.innerName → ∀ rest, ∃ c,
      (o.text ++ rest).head? = some c ∧ c ≠ '#' := by
    intro o ho rest
    cases o with
    | name x =>
        obtain ⟨c, hc, hmove⟩ := ho.word.exists_move
        refine ⟨c, ?_, fun heq => (of_word_move hmove).2 (by rw [heq]; decide)⟩
        rw [WrittenObject.text, List.head?_append]
        exact congrArg (·.or rest.head?) hc
    | parenthesized before o behind => exact ⟨'(', rfl, by decide⟩
  obtain ⟨c, hc, hne⟩ := hhead a.object h.object a.behindObject
  obtain ⟨rest, hrest⟩ := List.head?_eq_some_iff.1 hc
  unfold hashbang?
  rw [text, hrest]
  simp [hne.symm]

/-- **Expressions and the end of a statement are a statement** where an access is
written. -/
theorem readStatement_of_gives {m : Node} {ps : List Part} {u rest : List Char}
    (h : a.IsNamed d)
    (hexpressions : Gives readDeep expressions { dialect := d } a.text [.node m] u)
    (hsemicolon : Gives readDeep (Rule.semicolon true) { dialect := d } u ps rest) :
    readStatement { dialect := d } a.text
      = .done [.node (.construct "expression_statement" (.node m :: ps))] rest := by
  have hbesides : a.object = .name a.object.innerName →
      a.object.innerName ∉ expressionWords ++ openingWords d := by
    intro hname hmem
    exact (List.mem_append.1 hmem).elim h.object.free (h.opening hname)
  obtain ⟨ms, hms, hstand⟩ := WrittenObject.opening h.object hbesides
    (List.mem_cons_of_mem _ List.mem_cons_self) (follows_behindObject h.property)
  have hbarred := refuses_of_isBarred (statement_barred d ms hms) hstand
  have hstatement : Gives readDeep expressionStatement { dialect := d } a.text
      [.node (.construct "expression_statement" (.node m :: ps))] rest :=
    ((hbarred _ List.mem_cons_self).notAhead.row
      ((Gives.call .expressions hexpressions).row hsemicolon.last)).node (atToken h).noGap
  have hgives : Gives readDeep (.oneOf (statementRules.dropLast ++ [expressionStatement]))
      { dialect := d } a.text _ rest :=
    Gives.oneOf (fun r hr => hbarred r (List.mem_cons_of_mem _ hr)) hstatement
  rw [readStatement_unbounded ((atToken h).of_js d)]
  exact hgives []

/-- The pieces behind the statement hold no access: comments, and perhaps a
semicolon alone. -/
theorem pieces_behind {g : Filling} {ks : List Node} {rest : List Char}
    (hks : ∀ k ∈ ks, k ∈ g.comments) (hrest : Skips false rest ks [';']) :
    ∃ ns, Pieces d false rest ns ∧ ∀ n ∈ ns, n.isSettled = true
      ∧ (Statement.ofNode n).accesses = [] := by
  have hempty : Pieces d false [';'] [.token "empty_statement" ";"] :=
    .next (by cases d <;> decide +kernel) .done
  refine ⟨_, (hrest.mono fun h => by cases h).pieces hempty, fun n hn => ?_⟩
  rcases List.mem_append.1 hn with hn | hn
  · obtain ⟨body, rfl⟩ := Filling.of_mem_comments (hks n hn)
    exact ⟨rfl, rfl⟩
  · rw [List.mem_singleton.1 hn]
    exact ⟨rfl, rfl⟩

/-- A statement that is expressions is no import declaration. -/
theorem accesses_expressionStatement {m : Node} {ps : List Part}
    (hps : ∀ k ∈ Part.nodes ps, k.accesses = []) :
    (Statement.ofNode (.construct "expression_statement" (.node m :: ps))).accesses = m.accesses := by
  have hother : Statement.ofNode (.construct "expression_statement" (.node m :: ps))
      = .other (.construct "expression_statement" (.node m :: ps)) := rfl
  rw [hother, Statement.accesses, Node.accesses, Part.accessesOfList_eq]
  show m.accesses ++ (Part.nodes ps).flatMap Node.accesses = m.accesses
  rw [List.flatMap_eq_nil_iff.2 hps, List.append_nil]

/-- The object of an access is read as a node that stands for it. -/
theorem gives_object (h : a.IsNamed d) :
    ∃ n, a.object.IsNode n
      ∧ Gives readDeep chainBase { dialect := d } a.text [.node n] a.behindObject :=
  WrittenObject.gives h.object (List.mem_cons_of_mem _ List.mem_cons_self)
    (follows_behindObject h.property) d false

/-- A chain that starts with it is an expression, where nothing behind belongs to it. -/
theorem gives_expressions_of_chain {m : Node} {u : List Char} (h : a.IsNamed d)
    (hchain : Gives readDeep chain { dialect := d } a.text [.node m] u)
    (hbehind : ∀ r ∈ behindChain, Refuses readDeep r { dialect := d } u) :
    Gives readDeep expressions { dialect := d } a.text [.node m] u := by
  have hbefore := WrittenObject.refuses h.object (List.mem_cons_of_mem _ List.mem_cons_self)
    (follows_behindObject h.property) d false
  exact gives_expressions (atToken h).noGap (atToken h)
    (fun r hr => hbefore r (List.mem_append_left _ hr)) hchain hbehind

/-- An access is read as such, where the statement does not end before the point. -/
theorem gives_access (h : a.IsNamed d) (hstays : a.endsEarly d = false) :
    ∃ m, a.IsNode m
      ∧ Gives readDeep expressions { dialect := d } a.text [.node m] a.behindProperty := by
  obtain ⟨n, hn, hbase⟩ := gives_object h
  obtain ⟨m, hm, hsuffix⟩ := step_chainSuffix hn h.property hstays
  have hend : Stand [.sign ';'] (pastGap a.behindProperty) :=
    follows_behindProperty.stand (by decide)
  have hstop := refuses_of_isBarred (closing_barred d false ';' (by decide)) hend
  have hlt : a.behindProperty.length < a.behindObject.length := by
    simp only [behindObject, List.length_append, List.length_cons]
    omega
  have hchain := gives_chain_suffix (atToken h).noGap hbase hsuffix hlt
    (hstop _ List.mem_cons_self)
  exact ⟨m, hm, gives_expressions_of_chain h hchain
    (refuses_of_isBarred (behind_barred d false ';' (by decide)) hend)⟩

/-- An object is all of an expression, where the statement ends behind it. -/
theorem gives_expressions_of_endsEarly (h : a.IsNamed d) (hends : a.endsEarly d = true) :
    ∃ n, Gives readDeep expressions { dialect := d } a.text [.node n] a.behindObject := by
  obtain ⟨n, -, hbase⟩ := gives_object h
  have hstays : Refuses readDeep (.stays true) { dialect := d } a.behindObject := by
    intro row
    have hsome : (Context.absorbed? { dialect := d } true a.behindObject).isSome = true := hends
    rw [step, hsome]
    rfl
  have hbehind : ∀ r ∈ behindChain, Refuses readDeep r { dialect := d } a.behindObject := by
    simp only [behindChain, List.forall_mem_cons]
    exact ⟨hstays.row.wrap, hstays.row, hstays.row, hstays.row, hstays.row,
      fun _ hr => (by cases hr)⟩
  exact ⟨n, gives_expressions_of_chain h (gives_chain (atToken h).noGap hbase hstays.row) hbehind⟩

/-- **A statement that does not end before the point** is read with its access,
and there is no other. -/
theorem ofSource_of_stays (h : a.IsNamed d) (hstays : a.endsEarly d = false) :
    ∃ m p, a.IsNode m ∧ Program.ofSource d (String.ofList a.text) = .ok p
      ∧ p.accesses = m.accesses := by
  obtain ⟨m, hm, hexpressions⟩ := gives_access h hstays
  obtain ⟨ps, rest, hsemicolon, hps, hrest⟩ := gives_semicolon a.beforeEnd d
  have hplain : ∀ k ∈ Part.nodes ps, k.accesses = [] ∧ k.isSettled = true := by
    intro k hk
    rcases hps k hk with rfl | hk
    · exact ⟨rfl, rfl⟩
    · obtain ⟨t, rfl⟩ := Filling.of_mem_comments hk
      exact ⟨rfl, rfl⟩
  obtain ⟨ns, hns, hall⟩ : ∃ ns, Pieces d false rest ns ∧ ∀ n ∈ ns, n.isSettled = true
      ∧ (Statement.ofNode n).accesses = [] := by
    rcases hrest with rfl | ⟨ks, hks, hskips⟩
    · exact ⟨[], .done, fun n hn => (by cases hn)⟩
    · exact pieces_behind hks hskips
  have hpieces := (pieces_statement_iff true ((atToken h).of_js d) (fun _ => hashbang?_text h)
    (readStatement_of_gives h hexpressions hsemicolon)).2 ⟨ns, rfl, hns⟩
  have hsettled : (Node.construct "expression_statement" (.node m :: ps)).isSettled = true := by
    show (m.isSettled && Part.areSettled ps) = true
    rw [hm.settled, Part.areSettled_eq, List.all_eq_true.2 fun k hk => (hplain k hk).2]
    rfl
  refine ⟨m, ⟨(.construct "expression_statement" (.node m :: ps) :: ns).map Statement.ofNode⟩,
    hm, ?_, ?_⟩
  · rw [Program.ofSource_eq_ok_iff, Program.ofSource?_eq_some_iff, String.toList_ofList]
    refine ⟨_, hpieces, List.forall_mem_cons.2 ⟨hsettled, fun n hn => (hall n hn).1⟩, rfl⟩
  · have hbehind : (ns.map Statement.ofNode).flatMap Statement.accesses = [] := by
      refine List.flatMap_eq_nil_iff.2 fun s hs => ?_
      obtain ⟨n, hn, rfl⟩ := List.mem_map.1 hs
      exact (hall n hn).2
    rw [Program.accesses, List.map_cons, List.flatMap_cons, hbehind, List.append_nil]
    exact accesses_expressionStatement fun k hk => (hplain k hk).1

/-- **A statement that ends of itself before the point** leaves a point behind, and
there is no module. -/
theorem ofSource_of_endsEarly (h : a.IsNamed d) (hends : a.endsEarly d = true) (p : Program) :
    Program.ofSource d (String.ofList a.text) ≠ .ok p := by
  intro hp
  rw [Program.ofSource_eq_ok_iff, Program.ofSource?_eq_some_iff, String.toList_ofList] at hp
  obtain ⟨ns, hpieces, -, -⟩ := hp
  obtain ⟨n, hexpressions⟩ := gives_expressions_of_endsEarly h hends
  -- the statement is the object alone, and the next one would start with the point
  have hpoint : AtToken .js ('.' :: (a.behindPoint.text
      ++ (a.property.toList ++ a.behindProperty))) := atToken_sign (by decide) _
  obtain ⟨k, habsorbed⟩ := Option.isSome_iff_exists.1 hends
  have habsorbed : Context.absorbed? { dialect := d } true a.behindObject = some k := habsorbed
  obtain ⟨ps, rest, ks, hgives, -, hskips⟩ :=
    gives_ends habsorbed (a.beforePoint.skips false _) hpoint
  obtain ⟨ms, -, hms⟩ := (pieces_statement_iff true ((atToken h).of_js d)
    (fun _ => hashbang?_text h) (readStatement_of_gives h hexpressions hgives.left)).1 hpieces
  obtain ⟨ms', -, hms'⟩ := (hskips.mono fun h => by cases h).of_pieces hms
  refine not_pieces_of_refused (hpoint.of_js d) (by simp) ?_ hms'
  rw [readStatement_unbounded (hpoint.of_js d)]
  refine Refuses.oneOf (refuses_of_isBarred (point_barred d) ?_) []
  exact stand_sign (by decide) (fun _ k hk => (head?_behindPoint h.property _ k hk).1) trivial

/-! ## §6. Which accesses are seen. -/

/-- **Blanks and comments do not matter to an access**, but for three: a comment
inside the parentheses, `?.` in a comment beside the point, and blanks that end
the statement before the point. -/
theorem exists_access_iff (h : a.IsNamed d) :
    (∃ p, Program.ofSource d (String.ofList a.text) = .ok p
      ∧ ∃ access ∈ p.accesses, access.objectName? = some a.object.innerName
        ∧ access.property = a.property)
      ↔ a.object.hasComment = false ∧ hasOptionalSign a.operator = false
        ∧ a.endsEarly d = false := by
  constructor
  · rintro ⟨p, hp, access, haccess, hname, -⟩
    have hstays : a.endsEarly d = false :=
      Bool.eq_false_iff.2 fun hends => ofSource_of_endsEarly h hends p hp
    obtain ⟨m, q, hm, hq, haccesses⟩ := ofSource_of_stays h hstays
    obtain ⟨n, hn, hmn⟩ := hm.accesses
    obtain rfl : p = q := Except.ok.inj (hp.symm.trans hq)
    rw [haccesses, hmn] at haccess
    by_cases hoptional : hasOptionalSign a.operator = true
    · rw [if_pos hoptional] at haccess
      cases haccess
    · rw [if_neg hoptional, List.mem_singleton] at haccess
      subst haccess
      refine ⟨Bool.eq_false_iff.2 fun hcomment => ?_, Bool.eq_false_iff.2 hoptional, hstays⟩
      have hnone : n.name? = none := by rw [hn.name, if_pos hcomment]
      rw [Access.objectName?, hnone] at hname
      cases hname
  · rintro ⟨hcomment, hoptional, hstays⟩
    obtain ⟨m, p, hm, hp, haccesses⟩ := ofSource_of_stays h hstays
    obtain ⟨n, hn, hmn⟩ := hm.accesses
    rw [hoptional] at hmn
    refine ⟨p, hp, ⟨n, String.ofList a.operator, a.property⟩, ?_, ?_, rfl⟩
    · rw [haccesses, hmn]
      exact List.mem_singleton.2 rfl
    · rw [Access.objectName?, hn.name, hcomment]
      rfl

/-- `(( _ )) /* ? */ . /* . */ map ;`. -/
def spacedAccess : WrittenAccess where
  object := .parenthesized [] (.parenthesized [.blank ' ' rfl] (.name "_") [.blank ' ' rfl]) []
  beforePoint := [.blank ' ' rfl, .comment " ? ".toList (by decide), .blank '\n' rfl]
  behindPoint := [.comment " . ".toList (by decide)]
  property := "map"
  beforeEnd := [.blank ' ' rfl]

/-- `(_ /* c */).map;`. -/
def remarkedAccess : WrittenAccess where
  object := .parenthesized [] (.name "_") [.blank ' ' rfl, .comment " c ".toList (by decide)]
  beforePoint := []
  behindPoint := []
  property := "map"
  beforeEnd := []

theorem isNamed_spacedAccess : spacedAccess.IsNamed .ts where
  object := by decide
  opening := fun h => by cases h
  property := by decide

theorem isNamed_remarkedAccess (d : Dialect) : remarkedAccess.IsNamed d where
  object := by decide
  opening := fun h => by cases h
  property := by decide

/-- Of these two only the first is seen. -/
theorem exists_access_iff_spaced :
    (spacedAccess.IsNamed .ts
      ∧ ∃ p, Program.ofSource .ts (String.ofList spacedAccess.text) = .ok p
        ∧ ∃ access ∈ p.accesses, access.objectName? = some "_" ∧ access.property = "map")
      ∧ remarkedAccess.IsNamed .ts
      ∧ ¬ ∃ p, Program.ofSource .ts (String.ofList remarkedAccess.text) = .ok p
        ∧ ∃ access ∈ p.accesses, access.objectName? = some "_" ∧ access.property = "map" :=
  ⟨⟨isNamed_spacedAccess,
      (exists_access_iff isNamed_spacedAccess).2 ⟨by decide, by decide, by decide⟩⟩,
    isNamed_remarkedAccess .ts,
    fun h => absurd ((exists_access_iff (isNamed_remarkedAccess .ts)).1 h).1 (by decide)⟩

/-- A comment beside the name hides it. -/
theorem not_remarked_seen :
    ¬ ∀ (d : Dialect) (a : WrittenAccess), a.IsNamed d →
      ∃ p, Program.ofSource d (String.ofList a.text) = .ok p
        ∧ ∃ access ∈ p.accesses, access.objectName? = some a.object.innerName
          ∧ access.property = a.property := by
  intro h
  obtain ⟨p, hp, access, haccess, hname, -⟩ := h .js remarkedAccess (isNamed_remarkedAccess .js)
  have htext : String.ofList remarkedAccess.text = "(_ /* c */).map;" := by decide
  have hread : (Program.ofSource .js "(_ /* c */).map;").toOption.map
      (fun p => p.accesses.map Access.objectName?) = some [none] := by decide +kernel
  rw [htext] at hp
  rw [hp] at hread
  have hnames : p.accesses.map Access.objectName? = [none] := Option.some.inj hread
  have hmem : access.objectName? ∈ [none] := hnames ▸ List.mem_map_of_mem haccess
  rw [hname] at hmem
  cases List.mem_singleton.1 hmem

end WrittenAccess

end ImportSplit
