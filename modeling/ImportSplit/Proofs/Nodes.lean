/-
  ImportSplit.Proofs.Nodes
  ────────────────────────────────
  **NODES, TAKEN AS A WHOLE.**

  The tree is nested: a construct holds parts, and a part may hold a node.
  `Node.induction` hides the parts, so that a proof about nodes has one case
  for each kind of node, and the functions on lists of parts are shown to be
  the list functions that they look like (§2).

  A node that denotes a name, perhaps in parentheses, is that name and nothing
  else (§3): it holds one identifier and no access.
-/
import ImportSplit.Tree.Accesses

namespace ImportSplit

/-! ## §1. Induction. -/

/-- What holds of names and tokens, of an access if it holds of its object, and
of a construct if it holds of the nodes among its parts, holds of every node. -/
theorem Node.induction {motive : Node → Prop}
    (identifier : ∀ name, motive (.identifier name))
    (member : ∀ object operator property, motive object →
      motive (.member object operator property))
    (construct : ∀ kind parts, (∀ n, .node n ∈ parts → motive n) →
      motive (.construct kind parts))
    (token : ∀ kind text, motive (.token kind text)) (n : Node) : motive n := by
  apply Node.rec (motive_1 := motive) (motive_2 := fun p => ∀ n, p = .node n → motive n)
    (motive_3 := fun ps => ∀ n, .node n ∈ ps → motive n)
  · exact identifier
  · exact fun object operator property ih => member object operator property ih
  · exact fun kind parts ih => construct kind parts ih
  · exact token
  · intro text n h
    cases h
  · intro m hm n h
    cases h
    exact hm
  · intro n h
    cases h
  · intro p ps hp hps n h
    rcases List.mem_cons.1 h with h | h
    · exact hp n h.symm
    · exact hps n h

/-! ## §2. Parts as lists. -/

theorem Part.accessesOfList_eq_flatMap (ps : List Part) :
    Part.accessesOfList ps = ps.flatMap Part.accesses := by
  induction ps with
  | nil => rfl
  | cons p ps ih => rw [Part.accessesOfList, ih, List.flatMap_cons]

mutual
/-- The names inside a node, in order. -/
def Node.identifiers : Node → List String
  | .identifier name => [name]
  | .member object _ _ => object.identifiers
  | .construct _ parts => Part.identifiersOfList parts
  | .token .. => []
/-- The names inside parts, from left to right. -/
def Part.identifiersOfList : List Part → List String
  | [] => []
  | p :: rest => p.identifiers ++ Part.identifiersOfList rest
/-- The names inside one part. -/
def Part.identifiers : Part → List String
  | .text _ => []
  | .node n => n.identifiers
end

theorem Part.identifiersOfList_eq_flatMap (ps : List Part) :
    Part.identifiersOfList ps = ps.flatMap Part.identifiers := by
  induction ps with
  | nil => rfl
  | cons p ps ih => rw [Part.identifiersOfList, ih, List.flatMap_cons]

/-! ## §3. A node that denotes a name. -/

/-- A token holds no access and no name. -/
theorem Node.bare_of_isToken {n : Node} {text : String} (h : n.isToken text = true) :
    n.accesses = [] ∧ n.identifiers = [] := by
  cases n with
  | token kind t => exact ⟨rfl, rfl⟩
  | identifier | member | construct => simp [Node.isToken] at h

/-- Nor do parentheses. -/
theorem Part.bare_of_onlyParentheses {ps : List Part} (h : Part.onlyParentheses ps = true) :
    Part.accessesOfList ps = [] ∧ Part.identifiersOfList ps = [] := by
  induction ps with
  | nil => exact ⟨rfl, rfl⟩
  | cons p ps ih =>
      cases p with
      | text t => exact ih h
      | node n =>
          simp only [Part.onlyParentheses, Bool.and_eq_true, Bool.or_eq_true] at h
          have hn : n.accesses = [] ∧ n.identifiers = [] :=
            h.1.elim Node.bare_of_isToken Node.bare_of_isToken
          have hps := ih h.2
          constructor
          · show n.accesses ++ Part.accessesOfList ps = []
            rw [hn.1, hps.1]
            rfl
          · show n.identifiers ++ Part.identifiersOfList ps = []
            rw [hn.2, hps.2]
            rfl

/-- The only node among parts that denote a name denotes it. -/
theorem Part.lone_of_loneName? {ps : List Part} {x : String}
    (hnode : ∀ n, .node n ∈ ps → n.name? = some x → n.accesses = [] ∧ n.identifiers = [x])
    (h : Part.loneName? ps = some x) :
    Part.accessesOfList ps = [] ∧ Part.identifiersOfList ps = [x] := by
  induction ps with
  | nil => simp [Part.loneName?] at h
  | cons p ps ih =>
      have hrest := ih (fun n hn => hnode n (List.mem_cons_of_mem _ hn))
      cases p with
      | text t => exact hrest h
      | node n =>
          show n.accesses ++ Part.accessesOfList ps = []
            ∧ n.identifiers ++ Part.identifiersOfList ps = [x]
          simp only [Part.loneName?] at h
          split at h
          · next hp =>
              have hn : n.accesses = [] ∧ n.identifiers = [] :=
                (Bool.or_eq_true _ _ ▸ hp).elim Node.bare_of_isToken Node.bare_of_isToken
              rw [hn.1, hn.2]
              exact hrest h
          · split at h
            · next ho =>
                have hn := hnode n List.mem_cons_self h
                have hps := Part.bare_of_onlyParentheses ho
                rw [hn.1, hn.2, hps.1, hps.2]
                exact ⟨rfl, rfl⟩
            · cases h

/-- A node that denotes a name holds that name and no access. -/
theorem Node.lone_of_name? {n : Node} {x : String} (h : n.name? = some x) :
    n.accesses = [] ∧ n.identifiers = [x] := by
  induction n using Node.induction with
  | identifier name =>
      cases h
      exact ⟨rfl, rfl⟩
  | member object operator property _ => simp [Node.name?] at h
  | construct kind parts ih =>
      simp only [Node.name?] at h
      split at h
      · exact Part.lone_of_loneName? ih h
      · cases h
  | token kind text => simp [Node.name?] at h

end ImportSplit
