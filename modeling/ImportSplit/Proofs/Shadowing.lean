/-
  ImportSplit.Proofs.Shadowing
  ────────────────────────────────
  **A PARAMETER DOES NOT HIDE A HANDLE.**

  Accesses are told by the name of their object alone.  A function that binds
  the name of a handle again is rewritten like everything else:

      xs.map(_ => _.name)      ↦      xs.map(_ => lodash_name)

  where `_` stands for lodash.

  A place in a node is a path of part numbers (§1).  What stands at a place
  before the rewrite stands there afterwards, rewritten, unless the place is
  inside of a rewritten access; and such an access holds nothing but the name of
  its handle and parentheses (§2).  So an arrow function keeps its place and its
  parameter, and every access on the parameter in it is rewritten
  (`arrow_split`).
-/
import ImportSplit.Proofs.Meaning
import ImportSplit.Proofs.Pieces

namespace ImportSplit

/-! ## §1. Places in a node. -/

namespace Node

/-- The node that stands directly inside of a node as the part of this number;
the object of an access is its part 0. -/
def child? (i : Nat) : Node → Option Node
  | identifier _ | token .. => none
  | member object _ _ => if i = 0 then some object else none
  | construct _ parts => parts[i]?.bind Part.node?

/-- The node at a place: the path tells the number of the part at each step. -/
def at? : List Nat → Node → Option Node
  | [], n => some n
  | i :: path, n => (n.child? i).bind (at? path)

theorem at?_append (path more : List Nat) :
    ∀ n : Node, n.at? (path ++ more) = (n.at? path).bind (at? more) := by
  induction path with
  | nil => intro n; rfl
  | cons i path ih =>
      intro n
      show (n.child? i).bind (at? (path ++ more)) = ((n.child? i).bind (at? path)).bind (at? more)
      cases n.child? i with
      | none => rfl
      | some k => exact ih k

theorem child?_member_eq_some_iff {object k : Node} {operator property : String} {i : Nat} :
    (member object operator property).child? i = some k ↔ i = 0 ∧ object = k := by
  show (if i = 0 then some object else none) = some k ↔ _
  by_cases hi : i = 0 <;> simp [hi]

/-- What stands directly inside of a construct is one of its parts. -/
theorem mem_of_child?_construct {kind : String} {parts : List Part} {i : Nat} {k : Node}
    (h : (construct kind parts).child? i = some k) : parts[i]? = some (.node k) := by
  obtain ⟨p, hp, hk⟩ := Option.bind_eq_some_iff.1 h
  cases p with
  | text text => cases hk
  | node m =>
      cases hk
      exact hp

/-- The accesses directly inside of a node are accesses of the node. -/
theorem accesses_subset_of_child? {n k : Node} {i : Nat} (h : n.child? i = some k) :
    k.accesses ⊆ n.accesses := by
  cases n with
  | identifier | token => cases h
  | member object operator property =>
      obtain ⟨-, rfl⟩ := child?_member_eq_some_iff.1 h
      exact List.subset_cons_self _ _
  | construct kind parts =>
      intro a ha
      show a ∈ Part.accessesOfList parts
      rw [Part.accessesOfList_eq_flatMap, List.mem_flatMap]
      exact ⟨.node k, List.mem_of_getElem? (mem_of_child?_construct h), ha⟩

/-- An access at a place is one of the accesses of the node. -/
theorem mem_accesses_of_at? {a : Access} (path : List Nat) :
    ∀ {n : Node}, n.at? path = some a.node → a ∈ n.accesses := by
  induction path with
  | nil =>
      intro n h
      cases h
      exact List.mem_cons_self
  | cons i path ih =>
      intro n h
      obtain ⟨k, hk, hm⟩ := Option.bind_eq_some_iff.1 h
      exact accesses_subset_of_child? hk (ih hm)

end Node

/-! ## §2. What stands at a place after a rewrite. -/

/-- A node is a token. -/
def Node.isLeaf : Node → Bool
  | .token .. => true
  | _ => false

theorem Node.isLeaf_of_isToken {n : Node} {text : String} (h : n.isToken text = true) :
    n.isLeaf = true := by
  cases n with
  | token => rfl
  | identifier | member | construct => cases h

theorem Part.isLeaf_of_onlyParentheses {ps : List Part} (h : Part.onlyParentheses ps = true) :
    ∀ n, .node n ∈ ps → n.isLeaf = true := by
  induction ps with
  | nil => intro n hn; exact absurd hn List.not_mem_nil
  | cons p ps ih =>
      intro n hn
      cases p with
      | text text => exact ih h n ((List.mem_cons.1 hn).resolve_left nofun)
      | node m =>
          simp only [Part.onlyParentheses, Bool.and_eq_true, Bool.or_eq_true] at h
          rcases List.mem_cons.1 hn with hn | hn
          · cases hn
            exact h.1.elim Node.isLeaf_of_isToken Node.isLeaf_of_isToken
          · exact ih h.2 n hn

/-- Beside the name that parts denote there are only parentheses. -/
theorem Part.name?_or_isLeaf {ps : List Part} {x : String} (h : Part.loneName? ps = some x) :
    ∀ n, .node n ∈ ps → n.name? = some x ∨ n.isLeaf = true := by
  induction ps with
  | nil => cases h
  | cons p ps ih =>
      intro n hn
      cases p with
      | text text => exact ih h n ((List.mem_cons.1 hn).resolve_left nofun)
      | node m =>
          simp only [Part.loneName?] at h
          split at h
          · next hparenthesis =>
              rcases List.mem_cons.1 hn with hn | hn
              · cases hn
                exact .inr ((Bool.or_eq_true _ _ ▸ hparenthesis).elim
                  Node.isLeaf_of_isToken Node.isLeaf_of_isToken)
              · exact ih h n hn
          · split at h
            · next honly =>
                rcases List.mem_cons.1 hn with hn | hn
                · cases hn
                  exact .inl h
                · exact .inr (Part.isLeaf_of_onlyParentheses honly n hn)
            · cases h

namespace Node

/-- Directly inside of a node that denotes a name there are the name and tokens. -/
theorem name?_or_isLeaf_of_child? {n k : Node} {x : String} {i : Nat} (hx : n.name? = some x)
    (hk : n.child? i = some k) : k.name? = some x ∨ k.isLeaf = true := by
  cases n with
  | identifier | token => cases hk
  | member => cases hx
  | construct kind parts =>
      have hlone : Part.loneName? parts = some x := by
        simp only [name?] at hx
        split at hx
        · exact hx
        · cases hx
      exact Part.name?_or_isLeaf hlone k (List.mem_of_getElem? (mem_of_child?_construct hk))

/-- So it is at every depth. -/
theorem name?_or_isLeaf_of_at? (path : List Nat) :
    ∀ {n m : Node} {x : String}, n.name? = some x ∨ n.isLeaf = true → n.at? path = some m →
      m.name? = some x ∨ m.isLeaf = true := by
  induction path with
  | nil =>
      intro n m x hn hm
      cases hm
      exact hn
  | cons i path ih =>
      intro n m x hn hm
      obtain ⟨k, hk, hm⟩ := Option.bind_eq_some_iff.1 hm
      rcases hn with hx | hleaf
      · exact ih (name?_or_isLeaf_of_child? hx hk) hm
      · -- nothing is inside of a token
        cases n with
        | token => cases hk
        | identifier | member | construct => cases hleaf

/-- What stands directly inside of a node keeps its place, unless it is the name
of a handle. -/
theorem child?_direct (scope : Scope) {n k : Node} {i : Nat} (h : n.child? i = some k) :
    (n.direct scope).child? i = some (k.direct scope) ∨ ∃ x, k.name? = some x := by
  cases n with
  | identifier | token => cases h
  | construct kind parts =>
      left
      show (Part.directList scope parts)[i]?.bind Part.node? = _
      rw [Part.directList_eq_map, List.getElem?_map, mem_of_child?_construct h]
      rfl
  | member object operator property =>
      obtain ⟨rfl, rfl⟩ := child?_member_eq_some_iff.1 h
      cases hscope : object.name?.bind scope with
      | none =>
          left
          rw [(direct_member_of_none operator property hscope).1]
          rfl
      | some module =>
          right
          obtain ⟨x, hx, -⟩ := Option.bind_eq_some_iff.1 hscope
          exact ⟨x, hx⟩

/-- **A node keeps its place**, rewritten, unless it is a part of a name. -/
theorem at?_direct {scope : Scope} {m : Node} (hname : m.name? = none)
    (hleaf : m.isLeaf = false) (path : List Nat) :
    ∀ n : Node, n.at? path = some m → (n.direct scope).at? path = some (m.direct scope) := by
  induction path with
  | nil =>
      intro n h
      cases h
      rfl
  | cons i path ih =>
      intro n h
      obtain ⟨k, hk, hm⟩ := Option.bind_eq_some_iff.1 h
      rcases child?_direct scope hk with hk' | ⟨x, hx⟩
      · show ((n.direct scope).child? i).bind (at? path) = _
        rw [hk']
        exact ih k hm
      · -- the name of a handle holds no such node
        rcases name?_or_isLeaf_of_at? path (.inl hx) hm with hx' | hleaf'
        · rw [hx'] at hname
          cases hname
        · rw [hleaf'] at hleaf
          cases hleaf

/-- An access on a handle gives its place to the name of its direct import. -/
theorem at?_direct_access {scope : Scope} {n : Node} {path : List Nat} {a : Access}
    {x module : String} (ha : n.at? path = some a.node) (hx : a.objectName? = some x)
    (hmodule : scope x = some module) :
    (n.direct scope).at? path = some (.identifier (memberName module a.property)) := by
  have hscope : a.object.name?.bind scope = some module := by
    show a.objectName?.bind scope = some module
    rw [hx, Option.bind_some, hmodule]
  rw [at?_direct rfl rfl path n ha]
  exact congrArg some (direct_member_of_some a.operator a.property hscope).1

end Node

/-! ## §3. Arrow functions. -/

/-- The node is an arrow function with this name as its only parameter. -/
def Node.isArrowOver (x : String) : Node → Bool
  | .construct kind parts =>
      kind == "arrow_function" &&
        match Part.nodes parts with
        | .identifier y :: sign :: _ => y == x && sign.isToken "=>"
        | _ => false
  | _ => false

/-- An arrow function keeps its parameter. -/
theorem Node.isArrowOver_direct {scope : Scope} {x : String} {f : Node}
    (h : f.isArrowOver x = true) : (f.direct scope).isArrowOver x = true := by
  cases f with
  | identifier | member | token => cases h
  | construct kind parts =>
      simp only [isArrowOver, Bool.and_eq_true] at h
      simp only [direct, isArrowOver, Part.nodes_directList, h.1, Bool.true_and]
      replace h := h.2
      split at h
      · next y sign rest hnodes =>
          rw [hnodes]
          simpa only [List.map_cons, direct, isToken_direct] using h
      · cases h

/-- An arrow function is neither a name nor a token. -/
theorem Node.of_isArrowOver {x : String} {f : Node} (h : f.isArrowOver x = true) :
    f.name? = none ∧ f.isLeaf = false := by
  cases f with
  | identifier | member | token => cases h
  | construct kind parts =>
      simp only [isArrowOver, Bool.and_eq_true, beq_iff_eq] at h
      refine ⟨?_, rfl⟩
      unfold name?
      rw [h.1]
      rfl

/-! ## §4. Arrow functions of a module. -/

namespace Program

variable {w : WatchList} {p : Program}

/-- A statement keeps its place among the other statements, rewritten in the
scope before it. -/
theorem getElem?_others_split {before rest : List Statement} {n : Node}
    (hbody : p.body = before ++ .other n :: rest) :
    (p.split w).others[(Program.mk before).others.length]?
      = some (n.direct (scopeAt w before)) := by
  have hbefore : ((Program.mk before).split w).others.length
      = (Program.mk before).others.length := by
    have hmap := map_others_split (p := Program.mk before) (w := w) (f := fun _ => ())
      (g := fun _ => ()) fun _ _ _ _ => rfl
    simpa using congrArg List.length hmap
  rw [others_split, kept, inScope_eq, hbody, inScopeAfter_append, List.filterMap_append]
  rw [others_split, kept, inScope_eq] at hbefore
  rw [List.getElem?_append_right (Nat.le_of_eq hbefore), hbefore, Nat.sub_self]
  rfl

/-- **An arrow function over the name of a handle is rewritten like everything
else.**  Where a watched import above binds the name to a module, the arrow
function keeps its place and its parameter, and every access on the parameter
inside of it gives its place to the name of a direct import from the module, which
is inserted and stands in the split module. -/
theorem arrow_split {before rest : List Statement} {n f : Node} {x module : String}
    {path : List Nat} (hbody : p.body = before ++ .other n :: rest)
    (hx : scopeAt w before x = some module) (hf : n.at? path = some f)
    (harrow : f.isArrowOver x = true) :
    ∃ n', (p.split w).others[(Program.mk before).others.length]? = some n'
      ∧ (∃ f', n'.at? path = some f' ∧ f'.isArrowOver x = true)
      ∧ ∀ (more : List Nat) (a : Access), f.at? more = some a.node → a.objectName? = some x →
        n'.at? (path ++ more) = some (.identifier (memberName module a.property))
          ∧ .ofAccess module a.property ∈ p.inserted w
          ∧ (DirectImport.ofAccess module a.property).statement ∈ (p.split w).body := by
  obtain ⟨hname, hleaf⟩ := Node.of_isArrowOver harrow
  refine ⟨_, getElem?_others_split hbody, ⟨_, Node.at?_direct hname hleaf path n hf,
    Node.isArrowOver_direct harrow⟩, ?_⟩
  intro more a ha hax
  have hplace : n.at? (path ++ more) = some a.node := by
    rw [Node.at?_append, hf, Option.bind_some, ha]
  have hdirect : a.direct? (scopeAt w before) = some (.ofAccess module a.property) := by
    unfold Access.direct?
    rw [hax, Option.bind_some, hx]
    rfl
  have hmade : DirectImport.ofAccess module a.property ∈ n.directImports (scopeAt w before) :=
    List.mem_filterMap.2 ⟨a, Node.mem_accesses_of_at? _ hplace, hdirect⟩
  have hinserted : DirectImport.ofAccess module a.property ∈ p.inserted w :=
    mem_inserted_iff.2 (mem_inScope_iff.2 ⟨before, .other n, rest, hbody, hmade⟩)
  exact ⟨Node.at?_direct_access hplace hax hx, hinserted, statement_mem_of_mem_inserted hinserted⟩

/-- `import _ from "lodash";` and `xs.map(_ => _.name);` as they are read. -/
def arrowModule : Program where
  body := [
    .importing { specifiers := [.byDefault (some "_")], source := "lodash"
                 raw := some "import _ from \"lodash\";" },
    .other (.construct "expression_statement" [
      .node (.construct "call_expression" [
        .node (.member (.identifier "xs") "." "map"),
        .node (.construct "arguments" [
          .node (.token "(" "("),
          .node (.construct "arrow_function" [
            .node (.identifier "_"), .text " ", .node (.token "=>" "=>"), .text " ",
            .node (.member (.identifier "_") "." "name")]),
          .node (.token ")" ")")])]),
      .node (.token ";" ";")])]

theorem arrow_split_arrowModule :
    ∃ n', (arrowModule.split .standard).others[0]? = some n'
      ∧ (∃ f', n'.at? [0, 1, 1] = some f' ∧ f'.isArrowOver "_" = true)
      ∧ n'.at? [0, 1, 1, 4] = some (.identifier "lodash_name")
      ∧ ⟨"lodash_name", "lodash/name"⟩ ∈ arrowModule.inserted .standard
      ∧ (DirectImport.mk "lodash_name" "lodash/name").statement
        ∈ (arrowModule.split .standard).body := by
  obtain ⟨n', hn', hf', haccess⟩ := @arrow_split .standard arrowModule (arrowModule.body.take 1) []
    _ _ "_" "lodash" [0, 1, 1] rfl (by decide +kernel) rfl (by decide)
  exact ⟨n', hn', hf', haccess [4] ⟨.identifier "_", ".", "name"⟩ rfl rfl⟩

/-- The access on the parameter does not stay, for one in `xs.map(_ => _.name)`
where `_` is imported above. -/
theorem not_shadowed_access_stays :
    ¬ ∀ (w : WatchList) (d : Dialect) (source : String) (p : Program),
      Program.ofSource d source = .ok p →
      ∀ (before rest : List Statement) (n f : Node) (x module : String) (path : List Nat),
        p.body = before ++ .other n :: rest → scopeAt w before x = some module →
        n.at? path = some f → f.isArrowOver x = true →
        ∀ (more : List Nat) (a : Access), f.at? more = some a.node → a.objectName? = some x →
          ∃ n', (p.split w).others[(Program.mk before).others.length]? = some n'
            ∧ n'.at? (path ++ more) = some a.node := by
  intro h
  have hread : Program.ofSource .js "import _ from \"lodash\";\nxs.map(_ => _.name);"
      = .ok arrowModule :=
    Program.ofSource_eq_ok_iff.2 (by decide +kernel)
  obtain ⟨n', hn', hstays⟩ := h .standard .js _ arrowModule hread (arrowModule.body.take 1) [] _ _
    "_" "lodash" [0, 1, 1] rfl (by decide +kernel) rfl (by decide) [4]
    ⟨.identifier "_", ".", "name"⟩ rfl rfl
  have hgone : (arrowModule.split .standard).others[0]?.bind (Node.at? [0, 1, 1, 4])
      = some (.identifier "lodash_name") := by
    decide +kernel
  have hfirst : (arrowModule.split .standard).others[0]? = some n' := hn'
  rw [hfirst, Option.bind_some] at hgone
  exact absurd (hgone.symm.trans hstays) (by decide)

end Program

end ImportSplit
