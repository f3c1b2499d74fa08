/-
  ImportSplit.Proofs.HandleUses
  ────────────────────────────────
  **WHAT IS LEFT OF THE USES OF A HANDLE.**

  A watched import goes away whether or not its handle is still used.  A split
  rewrites the plain accesses on the handle and nothing else, so a use that is
  no object of an access stays:

      _.map(xs, _)   ↦   lodash_map(xs, _)

  `bareNames` lists the names that are no object of an access.  Where imports
  stand first and no import of the split module binds the handle again, the
  uses that are left are exactly the bare ones, statement by statement
  (`count_identifiers_split`).
-/
import ImportSplit.Proofs.Meaning
import ImportSplit.Proofs.Pieces

namespace ImportSplit

/-! ## §1. Bare names. -/

mutual
/-- The names inside a node that are no object of an access, in order. -/
def Node.bareNames : Node → List String
  | .identifier name => [name]
  | .member object _ _ => if object.name?.isSome then [] else object.bareNames
  | .construct _ parts => Part.bareNamesOfList parts
  | .token .. => []
/-- The bare names inside parts, from left to right. -/
def Part.bareNamesOfList : List Part → List String
  | [] => []
  | p :: rest => p.bareNames ++ Part.bareNamesOfList rest
/-- The bare names inside one part. -/
def Part.bareNames : Part → List String
  | .text _ => []
  | .node n => n.bareNames
end

/-- What holds of the nodes among parts holds of all names in the parts. -/
theorem Part.count_identifiers_directList {scope : Scope} {x : String} {ps : List Part}
    (hnode : ∀ n, .node n ∈ ps → (n.direct scope).identifiers.count x = n.bareNames.count x) :
    (Part.identifiersOfList (Part.directList scope ps)).count x
      = (Part.bareNamesOfList ps).count x := by
  induction ps with
  | nil => rfl
  | cons p ps ih =>
      have hps := ih fun n hn => hnode n (List.mem_cons_of_mem _ hn)
      have hp : (p.direct scope).identifiers.count x = p.bareNames.count x := by
        cases p with
        | text text => rfl
        | node n => exact hnode n List.mem_cons_self
      show ((p.direct scope).identifiers ++ Part.identifiersOfList (Part.directList scope ps)).count x
        = (p.bareNames ++ Part.bareNamesOfList ps).count x
      rw [List.count_append, List.count_append, hp, hps]

/-- **A substitution leaves the bare uses of a handle**, and no others, if it
makes no new name that is the handle's. -/
theorem Node.count_identifiers_direct {scope : Scope} {x : String} (hx : (scope x).isSome)
    (n : Node) : (∀ d ∈ n.directImports scope, d.name ≠ x) →
      (n.direct scope).identifiers.count x = n.bareNames.count x := by
  induction n using Node.induction with
  | identifier name => exact fun _ => rfl
  | token kind text => exact fun _ => rfl
  | construct kind parts ih =>
      intro hnew
      refine Part.count_identifiers_directList fun n hn => ih n hn fun d hd => hnew d ?_
      rw [Node.directImports_construct]
      exact List.mem_flatMap.2 ⟨n, List.mem_filterMap.2 ⟨_, hn, rfl⟩, hd⟩
  | member object operator property ih =>
      intro hnew
      cases hscope : object.name?.bind scope with
      | some module =>
          -- the access was on a handle: its name is gone, and the new name is another
          obtain ⟨hdirect, himports⟩ := Node.direct_member_of_some operator property hscope
          obtain ⟨y, hy, -⟩ := Option.bind_eq_some_iff.1 hscope
          have hother : memberName module property ≠ x :=
            hnew (.ofAccess module property) (himports ▸ List.mem_cons_self)
          rw [hdirect]
          show [memberName module property].count x
            = (if object.name?.isSome then [] else object.bareNames).count x
          rw [if_pos (by rw [hy]; rfl), List.count_nil, List.count_eq_zero]
          simpa using hother.symm
      | none =>
          obtain ⟨hdirect, himports⟩ := Node.direct_member_of_none operator property hscope
          have hobject := ih fun d hd => hnew d (himports ▸ hd)
          rw [hdirect]
          show (object.direct scope).identifiers.count x
            = (if object.name?.isSome then [] else object.bareNames).count x
          cases hname : object.name? with
          | none => exact hobject
          | some y =>
              -- the object is a name that is no handle, so it is not `x`
              have hne : y ≠ x := by
                rintro rfl
                rw [hname, Option.bind_some] at hscope
                rw [hscope] at hx
                cases hx
              have hlone := Node.lone_of_name? hname
              have hsame : object.direct scope = object := by
                apply Node.direct_of_directImports
                unfold Node.directImports
                rw [hlone.1, List.filterMap_nil]
              rw [hsame, hlone.2]
              show [y].count x = ([] : List String).count x
              rw [List.count_nil, List.count_eq_zero]
              simpa using hne.symm

/-! ## §2. Handles of a module. -/

namespace Program

/-- No import declaration stands below another statement. -/
def ImportsFirst (p : Program) : Prop :=
  p.body.Pairwise fun s t => s.import? = none → t.import? = none

instance (p : Program) : Decidable p.ImportsFirst :=
  inferInstanceAs (Decidable (p.body.Pairwise fun s t => s.import? = none → t.import? = none))

/-- The names that watched imports bind to whole modules. -/
def handleNames (w : WatchList) (p : Program) : List String :=
  (p.body.flatMap (Statement.handles w)).map Handle.name

/-- The names inside the statements that are no object of an access. -/
def bareNames (p : Program) : List String := p.others.flatMap Node.bareNames

variable {w : WatchList} {p : Program} {x : String}

/-- Where imports stand first, a handle is bound above every other statement. -/
theorem ImportsFirst.isSome_scopeAt (hfirst : p.ImportsFirst) (hx : x ∈ p.handleNames w)
    {before rest : List Statement} {n : Node} (hbody : p.body = before ++ .other n :: rest) :
    (scopeAt w before x).isSome := by
  obtain ⟨h, hh, rfl⟩ := List.mem_map.1 hx
  obtain ⟨s, hs, hbinds⟩ := List.mem_flatMap.1 hh
  unfold ImportsFirst at hfirst
  rw [hbody, List.pairwise_append, List.pairwise_cons] at hfirst
  rw [hbody, List.mem_append, List.mem_cons] at hs
  -- what binds it is an import, and below the statement there is none
  have habove : s ∈ before := by
    rcases hs with hs | rfl | hs
    · exact hs
    · exact absurd hbinds List.not_mem_nil
    · have hnone := hfirst.2.1.1 s hs rfl
      cases s with
      | importing d => cases hnone
      | other m => exact absurd hbinds List.not_mem_nil
  rw [Option.isSome_iff_ne_none]
  intro hnone
  exact scopeOf_eq_none_iff.1 hnone h (List.mem_flatMap.2 ⟨s, habove, hbinds⟩) rfl

/-- An inserted import binds its name in the split module. -/
theorem name_mem_boundNames_split {d : DirectImport} (hd : d ∈ p.inserted w) :
    d.name ∈ (p.split w).boundNames := by
  apply List.mem_flatMap.2
  exact ⟨d.decl, List.mem_filterMap.2 ⟨_, statement_mem_of_mem_inserted hd, rfl⟩,
    List.mem_cons_self⟩

/-! ## §3. The uses that are left. -/

/-- **Of the uses of a handle that a split takes away, exactly the bare ones are
left.**  Where imports stand first and no import of the split module binds the
handle, each statement holds its name as often as it did outside the objects of
accesses; so none is left exactly if every use was the object of an access. -/
theorem count_identifiers_split (hfirst : p.ImportsFirst) (hx : x ∈ p.handleNames w)
    (hfree : x ∉ (p.split w).boundNames) :
    (p.split w).others.map (fun n => n.identifiers.count x)
        = p.others.map (fun n => n.bareNames.count x)
      ∧ (x ∉ (p.split w).identifiers ↔ x ∉ p.bareNames) := by
  have hcount : (p.split w).others.map (fun n => n.identifiers.count x)
      = p.others.map (fun n => n.bareNames.count x) := by
    apply map_others_split
    intro before n rest hbody
    refine Node.count_identifiers_direct (hfirst.isSome_scopeAt hx hbody) n fun d hd => ?_
    have hinserted : d ∈ p.inserted w :=
      mem_inserted_iff.2 (mem_inScope_iff.2 ⟨before, .other n, rest, hbody, hd⟩)
    rintro rfl
    exact hfree (name_mem_boundNames_split hinserted)
  refine ⟨hcount, ?_⟩
  -- the statements of both modules correspond, so the sums of the counts agree
  have hsum := congrArg List.sum hcount
  unfold identifiers bareNames
  rw [← List.count_eq_zero, ← List.count_eq_zero, List.count_flatMap, List.count_flatMap]
  show ((p.split w).others.map fun n => n.identifiers.count x).sum = 0
    ↔ (p.others.map fun n => n.bareNames.count x).sum = 0
  rw [hsum]

/-- `import _, { map } from "lodash";` before `map(_.chunk(_), (_).size)`. -/
def handleSample : Program where
  body := [
    .importing { specifiers := [.byDefault (some "_"), .named (some "map") (some "map")]
                 source := "lodash" },
    .other (.construct "call_expression" [
      .node (.identifier "map"), .text "(",
      .node (.construct "call_expression" [
        .node (.member (.identifier "_") "." "chunk"), .text "(", .node (.identifier "_"),
        .text ")"]), .text ", ",
      .node (.member (.construct "parenthesized_expression"
        [.text "(", .node (.identifier "_"), .text ")"]) "." "size"), .text ")"])]

theorem count_identifiers_split_sample :
    handleSample.ImportsFirst ∧ "_" ∈ handleSample.handleNames ⟨["lodash"]⟩
      ∧ "_" ∉ (handleSample.split ⟨["lodash"]⟩).boundNames
      ∧ (handleSample.split ⟨["lodash"]⟩).others.map (fun n => n.identifiers.count "_") = [1]
      ∧ "_" ∈ (handleSample.split ⟨["lodash"]⟩).identifiers := by
  have hleft := count_identifiers_split (p := handleSample) (w := ⟨["lodash"]⟩) (x := "_")
    (by decide) (by decide) (by decide)
  refine ⟨by decide, by decide, by decide, hleft.1, ?_⟩
  exact Decidable.not_not.1 fun h => absurd (hleft.2.1 h) (by decide)

end Program

/-! ## §4. A use that is left. -/

/-- `import _ from "lodash";` and `_(x);` as they are read. -/
def bareUseModule : Program where
  body := [
    .importing { specifiers := [.byDefault (some "_")], source := "lodash"
                 raw := some "import _ from \"lodash\";" },
    .other (.construct "expression_statement" [
      .node (.construct "call_expression" [
        .node (.identifier "_"),
        .node (.construct "arguments" [
          .node (.token "(" "("), .node (.identifier "x"), .node (.token ")" ")")])]),
      .node (.token ";" ";")])]

/-- A handle that is called loses its import, and the call stays. -/
theorem handle_left_unbound :
    ¬ ∀ (w : WatchList) (d : Dialect) (source : String) (p : Program),
      Program.ofSource d source = .ok p → p.ImportsFirst → p.boundNames.Nodup →
      ∀ x ∈ p.handleNames w, x ∉ (p.split w).boundNames → x ∉ (p.split w).identifiers := by
  intro h
  have hread : Program.ofSource .js "import _ from \"lodash\";\n_(x);" = .ok bareUseModule :=
    Program.ofSource_eq_ok_iff.2 (by decide +kernel)
  have hgone := h .standard .js _ bareUseModule hread (by decide) (by decide) "_"
    (by decide +kernel) (by decide +kernel)
  exact hgone (by decide +kernel)

end ImportSplit
