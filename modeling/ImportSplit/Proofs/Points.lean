/-
  ImportSplit.Proofs.Points
  ────────────────────────────────
  **WHAT A SPLIT TAKES AWAY.**

  A split writes no point and no letter `l` of its own, so amounts of these
  characters bound what it did:

    • a rewritten access takes its point away (`amount_point_le`),
    • an import of `lodash` that goes away takes its letter along
      (`amount_letter_le`).

  A split that keeps all points therefore rewrote no access
  (`split_body_of_amount_point`).
-/
import ImportSplit.Proofs.Amounts
import ImportSplit.Proofs.SecondRun

namespace ImportSplit

/-! ## §1. Accesses. -/

/-- A direct import for an access has no point, if the module has none. -/
theorem amount_ofAccess {module property : String} (hmodule : '.' ∉ module.toList)
    (hproperty : '.' ∉ property.toList) :
    amount '.' (memberName module property) = 0
      ∧ amount '.' (DirectImport.ofAccess module property).statement.spelling = 0 := by
  -- a slash turns into a low line, and nothing into a point
  have hflat : '.' ∉ module.toList.map fun c => if c = '/' then '_' else c := by
    intro hmem
    obtain ⟨e, he, heq⟩ := List.mem_map.1 hmem
    by_cases hslash : e = '/'
    · rw [if_pos hslash] at heq
      exact absurd heq (by decide)
    · rw [if_neg hslash] at heq
      exact hmodule (heq ▸ he)
  have hname : amount '.' (memberName module property) = 0 := by
    unfold memberName
    rw [amount_append, amount_append]
    unfold amount
    rw [String.toList_ofList, List.count_eq_zero_of_not_mem hflat,
      List.count_eq_zero_of_not_mem hproperty]
    rfl
  have hpath : amount '.' (memberPath module property) = 0 := by
    unfold memberPath
    rw [amount_append, amount_append]
    unfold amount
    rw [List.count_eq_zero_of_not_mem hmodule, List.count_eq_zero_of_not_mem hproperty]
    rfl
  have hpoint : Unwritten '.' := .inl rfl
  have hfixed : amount '.' "import " = 0 ∧ amount '.' " from " = 0 ∧ amount '.' ";" = 0 := by
    decide
  refine ⟨hname, ?_⟩
  rw [DirectImport.spelling_statement]
  show amount '.' ("import " ++ memberName module property ++ " from "
    ++ Text.quote (memberPath module property) ++ ";") = 0
  rw [amount_append, amount_append, amount_append, amount_append, hname, hpoint.amount_quote,
    hpath, hfixed.1, hfixed.2.1, hfixed.2.2]

/-- The scope names no module with a point. -/
def Scope.Pointless (scope : Scope) : Prop :=
  ∀ x module, scope x = some module → '.' ∉ module.toList

theorem Part.amount_directList_le {scope : Scope} {ps : List Part}
    (hnode : ∀ n, .node n ∈ ps →
      amount '.' (n.direct scope).spelling + (n.directImports scope).length
        ≤ amount '.' n.spelling) :
    amount '.' (Part.spellingOfList (Part.directList scope ps))
        + ((Part.nodes ps).flatMap (Node.directImports scope)).length
      ≤ amount '.' (Part.spellingOfList ps) := by
  induction ps with
  | nil => exact Nat.le_refl _
  | cons p ps ih =>
      have hps := ih fun n hn => hnode n (List.mem_cons_of_mem _ hn)
      rw [Part.directList, Part.spellingOfList_cons, Part.spellingOfList_cons, amount_append,
        amount_append]
      cases p with
      | text t =>
          have hlength : ((Part.nodes (.text t :: ps)).flatMap
              (Node.directImports scope)).length
              = ((Part.nodes ps).flatMap (Node.directImports scope)).length := rfl
          simp only [Part.direct]
          omega
      | node n =>
          have hn := hnode n List.mem_cons_self
          have hlength : ((Part.nodes (.node n :: ps)).flatMap
              (Node.directImports scope)).length
              = (n.directImports scope).length
                + ((Part.nodes ps).flatMap (Node.directImports scope)).length :=
            List.length_append
          simp only [Part.direct, Part.spelling]
          omega

/-- **Each rewritten access takes a point away**, and its direct import has none. -/
theorem Node.amount_direct_le {scope : Scope} (hscope : scope.Pointless) (n : Node) :
    n.WellRead →
      amount '.' (n.direct scope).spelling + (n.directImports scope).length
          ≤ amount '.' n.spelling
        ∧ ∀ d ∈ n.directImports scope, amount '.' d.statement.spelling = 0 := by
  induction n using Node.induction with
  | identifier name => exact fun _ => ⟨Nat.le_refl _, fun _ h => absurd h List.not_mem_nil⟩
  | token kind text => exact fun _ => ⟨Nat.le_refl _, fun _ h => absurd h List.not_mem_nil⟩
  | member object operator property ih =>
      rintro ⟨hobject, hproperty, hpoint⟩
      obtain ⟨ih, ihimports⟩ := ih hobject
      cases h : object.name?.bind scope with
      | some module =>
          obtain ⟨hdirect, himports⟩ := Node.direct_member_of_some operator property h
          obtain ⟨x, -, hx⟩ := Option.bind_eq_some_iff.1 h
          obtain ⟨hname, hstatement⟩ := amount_ofAccess (hscope x module hx) (Grammar.not_point_of_isWord hproperty)
          rw [hdirect, himports]
          refine ⟨?_, fun d hd => by rwa [List.mem_singleton.1 hd]⟩
          -- the point of the access is gone, and its name and its import have none
          have hpos : 0 < amount '.' (Node.member object operator property).spelling := by
            rw [Node.spelling]
            exact List.count_pos_iff.2 hpoint
          have hdirected : amount '.' (Node.identifier (memberName module property)).spelling
              = 0 := by
            rw [Node.spelling]
            exact hname
          simp only [List.length_singleton]
          omega
      | none =>
          obtain ⟨hdirect, himports⟩ := Node.direct_member_of_none operator property h
          rw [hdirect, himports]
          -- the access stays, and so does its point
          refine ⟨?_, ihimports⟩
          simp only [Node.spelling, amount_append]
          omega
  | construct kind parts ih =>
      rintro ⟨-, -, hparts⟩
      rw [Part.allWellRead_iff] at hparts
      have hnode : ∀ n, .node n ∈ parts → n.WellRead := fun n hn => hparts _ hn
      rw [Node.directImports_construct, Node.direct]
      constructor
      · simp only [Node.spelling]
        exact Part.amount_directList_le fun n hn => (ih n hn (hnode n hn)).1
      · intro d hd
        obtain ⟨n, hn, hdn⟩ := List.mem_flatMap.1 hd
        obtain ⟨p, hp, hpn⟩ := List.mem_filterMap.1 hn
        cases p with
        | text t => cases hpn
        | node m =>
            cases hpn
            exact (ih n hp (hnode n hp)).2 d hdn

/-! ## §2. Statements. -/

/-- The modules that are watched where nothing else is said. -/
theorem WatchList.standard_watches {source : String}
    (h : WatchList.standard.watches source = true) : source = "lodash" ∨ source = "lodash/fp" := by
  have hnames : WatchList.standard.names = ["lodash", "lodash/fp"] := by decide
  have hmem : source ∈ WatchList.standard.names := List.contains_iff_mem.1 h
  rw [hnames] at hmem
  simpa using hmem

/-- None of them has a point. -/
theorem WatchList.point_of_standard {source : String}
    (h : WatchList.standard.watches source = true) : '.' ∉ source.toList := by
  rcases WatchList.standard_watches h with rfl | rfl <;> decide

/-- A handle of a declaration stands for its source. -/
theorem Specifier.module_of_handle? {module : String} {x : Specifier} {h : Handle}
    (hx : x.handle? module = some h) : h.module = module := by
  have hbound : ∀ bound : Option String,
      bound.map (fun b => (⟨b, module⟩ : Handle)) = some h → h.module = module := by
    intro bound hbound
    obtain ⟨b, -, rfl⟩ := Option.map_eq_some_iff.1 hbound
    rfl
  cases x with
  | byDefault bound | whole bound => exact hbound bound hx
  | named exported bound =>
      have hhandle : (if exported = some "default" then
          bound.map (fun b => (⟨b, module⟩ : Handle)) else none) = some h := hx
      by_cases hdefault : exported = some "default"
      · rw [if_pos hdefault] at hhandle
        exact hbound bound hhandle
      · rw [if_neg hdefault] at hhandle
        cases hhandle
  | typeOnly exported bound => cases hx

/-- A name that stands for a module is a handle of a watched declaration above. -/
theorem exists_handle_of_scopeAt {w : WatchList} {before : List Statement} {x module : String}
    (h : scopeAt w before x = some module) :
    ∃ d, .importing d ∈ before ∧ w.watches d.source = true ∧ d.source = module
      ∧ ∃ handle ∈ d.handles, handle.name = x := by
  obtain ⟨handle, hfind, rfl⟩ := Option.map_eq_some_iff.1 h
  have hmem := List.mem_of_find?_eq_some hfind
  rw [List.mem_reverse, List.mem_flatMap] at hmem
  obtain ⟨s, hs, hhandle⟩ := hmem
  cases s with
  | other n => cases hhandle
  | importing d =>
      have hhandle : handle ∈ if w.watches d.source then d.handles else [] := hhandle
      by_cases hw : w.watches d.source = true
      · rw [if_pos hw] at hhandle
        obtain ⟨y, -, hy⟩ := List.mem_filterMap.1 hhandle
        refine ⟨d, hs, hw, (Specifier.module_of_handle? hy).symm, handle, hhandle, ?_⟩
        simpa using List.find?_some hfind
      · rw [if_neg hw] at hhandle
        cases hhandle

theorem scopeAt_pointless (before : List Statement) :
    (scopeAt WatchList.standard before).Pointless := by
  intro x module hx
  obtain ⟨d, -, hw, rfl, -⟩ := exists_handle_of_scopeAt hx
  exact WatchList.point_of_standard hw

theorem Part.AllWellRead.node {ps : List Part} (h : Part.AllWellRead ps) {n : Node}
    (hn : n ∈ Part.nodes ps) : n.WellRead := by
  obtain ⟨p, hp, hpn⟩ := List.mem_filterMap.1 hn
  have hwell := Part.allWellRead_iff.1 h p hp
  cases p with
  | text t => cases hpn
  | node m =>
      cases hpn
      exact hwell

/-- The name that a specifier in braces binds is a word. -/
theorem Specifier.isWord_of_bound? {ps : List Part} (hps : SpecifierNames (Part.exportNames ps))
    {bound : String} (hbound : (ofParts ps).bound? = some bound) :
    Grammar.IsWord bound.toList := by
  obtain ⟨hwords, htail⟩ := hps
  -- the last name is bound, and only the first may be a string
  rcases ofParts_cases ps with ⟨x, y, rest, hnames, hspecifier⟩ | ⟨x, hnames, hspecifier⟩ | hnone
  · rw [hnames] at hwords htail
    obtain rfl : y.1 = bound := by
      rcases hspecifier with h | h <;> rw [h] at hbound <;> exact Option.some.inj hbound
    exact hwords y (List.mem_cons_of_mem _ List.mem_cons_self) (htail y List.mem_cons_self)
  · rw [hnames] at hwords
    obtain rfl : x = bound := by
      rcases hspecifier with h | h <;> rw [h] at hbound <;> exact Option.some.inj hbound
    exact hwords (x, false) List.mem_cons_self rfl
  · rw [hnone] at hbound
    cases hbound

/-- **What a declaration that was read binds in braces are words.** -/
theorem Node.WellRead.isWord_of_bound? {n : Node} {d : ImportDecl} (hn : n.WellRead)
    (h : ImportDecl.ofNode? n = some d) {x : Specifier} (hx : x ∈ d.specifiers)
    (hbraced : x.isNamed = true ∨ x.isTypeOnly = true) {bound : String}
    (hbound : x.bound? = some bound) : Grammar.IsWord bound.toList := by
  obtain ⟨parts, source, rfl, -, hspecifiers, -, -⟩ := ImportDecl.of_ofNode? h
  rw [hspecifiers] at hx
  -- from the statement down to the clause, to its nodes, and to the specifier
  obtain ⟨clause, hclause, hx⟩ := List.mem_flatMap.1 hx
  obtain ⟨c, hc, hcparts⟩ := List.mem_filterMap.1 hclause
  have hcwell : c.WellRead := hn.2.2.node hc
  rw [Node.of_partsOf? hcparts] at hcwell
  obtain ⟨node, hnode, hx⟩ := List.mem_flatMap.1 hx
  have hwell : node.WellRead := hcwell.2.2.node hnode
  unfold Specifier.ofClauseNode at hx
  split at hx
  · rw [List.mem_singleton.1 hx] at hbraced
    rcases hbraced with hb | hb <;> cases hb
  · rw [List.mem_singleton.1 hx] at hbraced
    rcases hbraced with hb | hb <;> cases hb
  · next named =>
      obtain ⟨ps, hps, rfl⟩ := List.mem_map.1 hx
      obtain ⟨s, hs, hsparts⟩ := List.mem_filterMap.1 hps
      have hswell : s.WellRead := hwell.2.2.node hs
      rw [Node.of_partsOf? hsparts] at hswell
      exact Specifier.isWord_of_bound? (hswell.2.1 rfl) hbound
  · cases hx

/-- The named members of a declaration that was read bind words. -/
theorem Node.WellRead.isWord_of_member {n : Node} {d : ImportDecl} (hn : n.WellRead)
    (h : ImportDecl.ofNode? n = some d) {x : Specifier} (hx : x ∈ d.specifiers)
    {m : DirectImport} (hm : x.member? d.source = some m) : Grammar.IsWord m.name.toList := by
  have hnamed : x.isNamed = true := by
    cases x with
    | named => rfl
    | byDefault | whole | typeOnly => cases hm
  exact hn.isWord_of_bound? h hx (.inl hnamed) (Specifier.bound?_of_member? hm)

/-! ## §3. What a split takes away. -/

/-- The direct import of a named member has the points of its exported name. -/
theorem Specifier.amount_member_le {x : Specifier} {module : String} {m : DirectImport}
    (hm : x.member? module = some m) (hmodule : '.' ∉ module.toList)
    (hword : Grammar.IsWord m.name.toList) :
    amount '.' m.statement.spelling ≤ amount '.' x.spelled ∧ x.isFullType = false := by
  cases x with
  | named exported bound =>
      cases exported with
      | none => cases hm
      | some exported =>
          cases bound with
          | none => cases hm
          | some bound =>
              have hmember : (if exported = "default" then none
                  else some (DirectImport.ofNamed bound module exported)) = some m := hm
              by_cases hdefault : exported = "default"
              · rw [if_pos hdefault] at hmember
                cases hmember
              rw [if_neg hdefault] at hmember
              obtain rfl := Option.some.inj hmember
              refine ⟨?_, rfl⟩
              -- of the three texts in the import only the exported name may have points
              have hbound : amount '.' bound = 0 :=
                List.count_eq_zero_of_not_mem (Grammar.not_point_of_isWord hword)
              have hsource : amount '.' module = 0 := List.count_eq_zero_of_not_mem hmodule
              have hpoint : Unwritten '.' := .inl rfl
              have hfixed : amount '.' "import " = 0 ∧ amount '.' " from " = 0
                  ∧ amount '.' ";" = 0 ∧ amount '.' "/" = 0 ∧ amount '.' " as " = 0 := by
                decide
              obtain ⟨h₁, h₂, h₃, h₄, h₅⟩ := hfixed
              have hstatement : amount '.' (DirectImport.ofNamed bound module exported).statement.spelling
                  = amount '.' exported := by
                rw [DirectImport.spelling_statement]
                show amount '.' ("import " ++ bound ++ " from "
                  ++ Text.quote (module ++ "/" ++ exported) ++ ";") = _
                simp only [amount_append, hpoint.amount_quote]
                omega
              have hspelled : amount '.' exported
                  ≤ amount '.' (Specifier.spellNamed exported bound) := by
                unfold Specifier.spellNamed
                by_cases heq : exported = bound
                · rw [if_pos heq]
                  exact Nat.le_of_eq (congrArg (amount '.') heq)
                · rw [if_neg heq, amount_append, amount_append]
                  omega
              rw [hstatement]
              exact hspelled
  | _ => cases hm

namespace Statement

/-- The direct imports for the accesses of a statement. -/
def accessImports (scope : Scope) : Statement → List DirectImport
  | importing _ => []
  | other n => n.directImports scope

theorem ofNode_of_some {n : Node} {d : ImportDecl} (h : ImportDecl.ofNode? n = some d) :
    ofNode n = .importing d := by
  unfold ofNode
  rw [h]

theorem ofNode_of_none {n : Node} (h : ImportDecl.ofNode? n = none) : ofNode n = .other n := by
  unfold ofNode
  rw [h]

/-- A statement that was read is spelled as its node. -/
theorem spelling_ofNode (n : Node) : (ofNode n).spelling = n.spelling := by
  cases h : ImportDecl.ofNode? n with
  | none =>
      rw [ofNode_of_none h]
      rfl
  | some d =>
      obtain ⟨-, -, -, -, -, -, hraw⟩ := ImportDecl.of_ofNode? h
      rw [ofNode_of_some h]
      show d.raw.getD d.spellFields = n.spelling
      rw [hraw]
      rfl

/-- **The points of a statement**: they are those of what stays of it, those of
its direct imports, and one for each access that was rewritten. -/
theorem amount_point_le {n : Node} (hn : n.WellRead) {scope : Scope} (hscope : scope.Pointless) :
    (((ofNode n).kept .standard scope).map fun s => amount '.' s.spelling).sum
        + (((ofNode n).directImports .standard scope).map fun d =>
            amount '.' d.statement.spelling).sum
        + ((ofNode n).accessImports scope).length
      ≤ amount '.' n.spelling := by
  cases h : ImportDecl.ofNode? n with
  | none =>
      obtain ⟨hle, hzero⟩ := n.amount_direct_le hscope hn
      -- no import that is made for an access has a point
      have hsum : ((n.directImports scope).map fun d => amount '.' d.statement.spelling).sum = 0 := by
        refine List.sum_eq_zero_iff_forall_eq_nat.2 fun k hk => ?_
        obtain ⟨d, hd, rfl⟩ := List.mem_map.1 hk
        exact hzero d hd
      rw [ofNode_of_none h]
      show amount '.' (n.direct scope).spelling + 0
        + ((n.directImports scope).map fun d => amount '.' d.statement.spelling).sum
        + (n.directImports scope).length ≤ _
      omega
  | some d =>
      have hpoint : Unwritten '.' := .inl rfl
      have hnames := hpoint.amount_ofNode?_le h
      have hspelling := spelling_ofNode n
      rw [ofNode_of_some h] at hspelling ⊢
      by_cases hw : WatchList.standard.watches d.source = true
      · -- each specifier is a type that stays, or a member, or neither
        have hspecifier : ∀ x ∈ d.specifiers,
            (if x.isFullType then amount '.' x.spelled else 0)
              + (x.member? d.source).elim 0 (fun m => amount '.' m.statement.spelling)
              ≤ amount '.' x.spelled := by
          intro x hx
          cases hm : x.member? d.source with
          | none =>
              by_cases hfull : x.isFullType = true
              · simp [hfull]
              · simp [hfull]
          | some m =>
              obtain ⟨hle, hfull⟩ := Specifier.amount_member_le hm (WatchList.point_of_standard hw)
                (hn.isWord_of_member h hx hm)
              simpa [hfull] using hle
        have hsum := sum_add_le hspecifier
        have htypes := sum_types d fun x => amount '.' x.spelled
        have hmembers : (d.members.map fun m => amount '.' m.statement.spelling).sum
            = (d.specifiers.map fun x =>
              (x.member? d.source).elim 0 fun m => amount '.' m.statement.spelling).sum :=
          sum_filterMap _ _ _
        have hdirect : (importing d).directImports .standard scope = d.members := if_pos hw
        -- the types that stay, with the source, if there are any
        have hkept : (((importing d).kept .standard scope).map fun s => amount '.' s.spelling).sum
            ≤ (d.types.map fun x => amount '.' x.spelled).sum + amount '.' d.source := by
          have hall : (importing d).kept .standard scope = if d.types.isEmpty then []
              else [importing { specifiers := d.types, source := d.source }] := if_pos hw
          rw [hall]
          by_cases hnil : d.types = []
          · rw [hnil]
            exact Nat.zero_le _
          · rw [if_neg (by simpa using hnil), ← hpoint.amount_types d hnil]
            exact Nat.le_of_eq (Nat.add_zero _)
        rw [hdirect]
        show _ + _ + 0 ≤ _
        omega
      · have hdirect : (importing d).directImports .standard scope = [] := if_neg hw
        have hkept : (importing d).kept .standard scope = [importing d] := if_neg hw
        rw [hdirect, hkept, ← hspelling]
        exact Nat.le_refl _

/-- **The letters of a statement**: they are those of what stays of it, and one
at least if it goes away. -/
theorem amount_letter_le {n : Node} {scope : Scope}
    (hnone : (ofNode n).accessImports scope = []) :
    (((ofNode n).kept .standard scope).map fun s => amount 'l' s.spelling).sum
        + (if (ofNode n).goesAway .standard then 1 else 0)
      ≤ amount 'l' n.spelling := by
  have hspelling := spelling_ofNode n
  cases h : ImportDecl.ofNode? n with
  | none =>
      rw [ofNode_of_none h] at hnone ⊢
      have hdirect : n.direct scope = n := n.direct_of_directImports hnone
      show amount 'l' (n.direct scope).spelling + 0 + 0 ≤ _
      rw [hdirect]
      exact Nat.le_refl _
  | some d =>
      have hletter : Unwritten 'l' := .inr rfl
      have hnames := hletter.amount_ofNode?_le h
      rw [ofNode_of_some h] at hspelling ⊢
      by_cases hw : WatchList.standard.watches d.source = true
      · have hall : (importing d).kept .standard scope = if d.types.isEmpty then []
            else [importing { specifiers := d.types, source := d.source }] := if_pos hw
        have hgone : (importing d).goesAway .standard = d.types.isEmpty := by
          show (WatchList.standard.watches d.source && d.types.isEmpty) = _
          rw [hw, Bool.true_and]
        rw [hall, hgone]
        by_cases hnil : d.types = []
        -- the source goes away with the declaration, and has the letter
        · have hsource : 0 < amount 'l' d.source := by
            rcases WatchList.standard_watches hw with heq | heq <;> rw [heq] <;> decide
          rw [hnil]
          show 0 + 1 ≤ _
          omega
        · have hempty : ¬ d.types.isEmpty = true := by simpa using hnil
          have hkept := hletter.amount_types d hnil
          have htypes := sum_types d fun x => amount 'l' x.spelled
          -- the specifiers that are no types go away, and weigh nothing less
          have hle := sum_le (l := d.specifiers) (f := fun x =>
            if x.isFullType then amount 'l' x.spelled else 0) (h := fun x => amount 'l' x.spelled)
            fun x _ => by split <;> omega
          rw [if_neg hempty, if_neg hempty]
          show amount 'l' (ImportDecl.spelling _) + 0 + 0 ≤ _
          omega
      · have hkept : (importing d).kept .standard scope = [importing d] := if_neg hw
        have hgone : (importing d).goesAway .standard = false := by
          show (WatchList.standard.watches d.source && _) = false
          rw [Bool.eq_false_iff.2 hw, Bool.false_and]
        rw [hkept, hgone, ← hspelling]
        exact Nat.le_refl _

end Statement

/-! ## §4. Modules. -/

/-- Where no access is rewritten, what stays of a statement and what it makes
does not depend on its place. -/
theorem Statement.kept_of_accessImports {w : WatchList} {scope : Scope} {s : Statement}
    (h : s.accessImports scope = []) :
    s.kept w scope = s.kept w Scope.none ∧ s.directImports w scope = s.members w := by
  cases s with
  | importing d => exact ⟨rfl, rfl⟩
  | other n =>
      have himports : n.directImports scope = [] := h
      have hdirect : n.direct scope = n := n.direct_of_directImports himports
      have hnone : n.direct Scope.none = n := n.direct_of_no_handles fun _ => rfl
      refine ⟨?_, himports⟩
      show [other (n.direct scope)] = [other (n.direct Scope.none)]
      rw [hdirect, hnone]

theorem inScopeAfter_of_accessImports {w : WatchList} :
    ∀ rest before : List Statement, inScopeAfter w Statement.accessImports before rest = [] →
      inScopeAfter w (Statement.kept w) before rest = rest.flatMap (Statement.kept w Scope.none)
        ∧ inScopeAfter w (Statement.directImports w) before rest
          = rest.flatMap (Statement.members w) := by
  intro rest
  induction rest with
  | nil => exact fun _ _ => ⟨rfl, rfl⟩
  | cons s rest ih =>
      intro before h
      obtain ⟨hs, hrest⟩ := List.append_eq_nil_iff.1 h
      obtain ⟨hkept, hdirect⟩ := Statement.kept_of_accessImports (w := w) hs
      obtain ⟨ihkept, ihdirect⟩ := ih (before ++ [s]) hrest
      rw [inScopeAfter, inScopeAfter, hkept, hdirect, ihkept, ihdirect]
      exact ⟨rfl, rfl⟩

theorem amount_point_inScopeAfter :
    ∀ (rest : List Node) (before : List Statement), (∀ n ∈ rest, n.WellRead) →
      ((inScopeAfter .standard (Statement.kept .standard) before
            (rest.map Statement.ofNode)).map fun s => amount '.' s.spelling).sum
          + ((inScopeAfter .standard (Statement.directImports .standard) before
            (rest.map Statement.ofNode)).map fun d => amount '.' d.statement.spelling).sum
          + (inScopeAfter .standard Statement.accessImports before
            (rest.map Statement.ofNode)).length
        ≤ (rest.map fun n => amount '.' n.spelling).sum := by
  intro rest
  induction rest with
  | nil => exact fun _ _ => Nat.le_refl _
  | cons n rest ih =>
      intro before h
      have hn := Statement.amount_point_le (h n List.mem_cons_self) (scopeAt_pointless before)
      have hrest := ih (before ++ [.ofNode n]) fun m hm => h m (List.mem_cons_of_mem _ hm)
      simp only [List.map_cons, inScopeAfter, List.map_append, List.sum_append_nat,
        List.length_append, List.sum_cons]
      omega

theorem sum_insertImports (f : Statement → Nat) (imports body : List Statement) :
    ((insertImports imports body).map f).sum = (imports.map f).sum + (body.map f).sum := by
  rw [((insertImports_perm imports body).map f).sum_nat, List.map_append, List.sum_append_nat]

/-- The text of a module holds the character as often as its statements. -/
theorem Unwritten.amount_spelling {c : Char} (hc : Unwritten c) (p : Program) :
    amount c p.spelling = (p.body.map fun s => amount c s.spelling).sum := by
  have hline : amount c "\n" = 0 := by
    rcases hc with rfl | rfl <;> decide
  unfold Program.spelling
  rw [amount_intercalate hline, List.map_map]
  rfl

/-- **If a split takes no point away, it rewrites no access**: the module is its
statements, each without what goes away, and the direct imports of its named
members. -/
theorem split_body_of_amount_point {p : Program} {ns : List Node}
    (hbody : p.body = ns.map Statement.ofNode) (hwell : ∀ n ∈ ns, n.WellRead)
    (hpoints : (ns.map fun n => amount '.' n.spelling).sum
      ≤ amount '.' (p.split .standard).spelling) :
    (p.split .standard).body
      = insertImports ((p.members .standard).map DirectImport.statement)
          (p.body.flatMap (Statement.kept .standard Scope.none)) := by
  have hpoint : Unwritten '.' := .inl rfl
  have hle := amount_point_inScopeAfter ns [] hwell
  have hsplit := p.split_body .standard
  rw [hpoint.amount_spelling, hsplit, sum_insertImports, List.map_map,
    Function.comp_def] at hpoints
  unfold Program.kept Program.directImports at hpoints hsplit
  rw [Program.inScope_eq, Program.inScope_eq] at hpoints hsplit
  rw [← hbody] at hle
  -- as many points as before: the number of accesses that were rewritten is zero
  have hnone : inScopeAfter .standard Statement.accessImports [] p.body = [] :=
    List.length_eq_zero_iff.1 (by omega)
  obtain ⟨hkept, hdirect⟩ := inScopeAfter_of_accessImports p.body [] hnone
  rw [hsplit, hkept, hdirect]
  rfl

end ImportSplit
