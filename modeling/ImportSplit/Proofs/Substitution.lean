/-
  ImportSplit.Proofs.Substitution
  ────────────────────────────────
  **ACCESSES REPLACED BY NAMES.**

  `scope x` is the module that the name `x` stands for at a place, if it is a
  handle there.  `n.direct scope` replaces every access on a handle by the
  name of the member, in one structural pass and without a state; the direct
  imports that go with it are read off the accesses of the node:

      (x.a).b(y.c)   with x ↦ m, y ↦ m/k   ↦   (m_a).b(m_k_c)
                                                m/a, m/k/c

  An access on a handle holds no other access (its object is a name), so a
  replacement takes exactly one access away (`accessCount_direct`).
-/
import ImportSplit.Proofs.Nodes
import ImportSplit.Split.DirectImport
import ImportSplit.Split.Handles

namespace ImportSplit

/-! ## §1. The substitution. -/

/-- The direct import that replaces an access, if the access is on a handle. -/
def Access.direct? (scope : Scope) (a : Access) : Option DirectImport :=
  (a.objectName?.bind scope).map fun module => .ofAccess module a.property

mutual
/-- The node with a name in the place of every access on a handle. -/
def Node.direct (scope : Scope) : Node → Node
  | .identifier name => .identifier name
  | .member object operator property =>
      match object.name?.bind scope with
      | some module => .identifier (memberName module property)
      | none => .member (object.direct scope) operator property
  | .construct kind parts => .construct kind (Part.directList scope parts)
  | .token kind text => .token kind text
/-- The parts with their nodes so changed. -/
def Part.directList (scope : Scope) : List Part → List Part
  | [] => []
  | p :: rest => p.direct scope :: Part.directList scope rest
/-- The part with its node so changed. -/
def Part.direct (scope : Scope) : Part → Part
  | .text text => .text text
  | .node n => .node (n.direct scope)
end

theorem Part.directList_eq_map (scope : Scope) (ps : List Part) :
    Part.directList scope ps = ps.map (Part.direct scope) := by
  induction ps with
  | nil => rfl
  | cons p ps ih => rw [Part.directList, ih, List.map_cons]

/-- The direct imports that replace accesses of a node, in order. -/
def Node.directImports (scope : Scope) (n : Node) : List DirectImport :=
  n.accesses.filterMap (Access.direct? scope)

/-! ## §2. One access at a time. -/

/-- An access on a handle becomes a name, and nothing else is in it. -/
theorem Node.direct_member_of_some {scope : Scope} {object : Node} {module : String}
    (operator property : String) (h : object.name?.bind scope = some module) :
    (Node.member object operator property).direct scope = .identifier (memberName module property)
      ∧ (Node.member object operator property).directImports scope
          = [.ofAccess module property] := by
  obtain ⟨x, hx, -⟩ := Option.bind_eq_some_iff.1 h
  have hbare := (Node.lone_of_name? hx).1
  constructor
  · simp only [Node.direct, h]
  · simp [Node.directImports, Node.accesses, hbare, Access.direct?, Access.objectName?, h]

/-- Any other access stays, with its object changed. -/
theorem Node.direct_member_of_none {scope : Scope} {object : Node} (operator property : String)
    (h : object.name?.bind scope = none) :
    (Node.member object operator property).direct scope
        = .member (object.direct scope) operator property
      ∧ (Node.member object operator property).directImports scope
          = object.directImports scope := by
  constructor
  · simp only [Node.direct, h]
  · simp [Node.directImports, Node.accesses, Access.direct?, Access.objectName?, h]

/-- The direct imports made in a construct are those made in its nodes. -/
theorem Node.directImports_construct (scope : Scope) (kind : String) (parts : List Part) :
    (Node.construct kind parts).directImports scope
      = (Part.nodes parts).flatMap (Node.directImports scope) := by
  show (Part.accessesOfList parts).filterMap (Access.direct? scope) = _
  induction parts with
  | nil => rfl
  | cons p ps ih =>
      rw [Part.accessesOfList, List.filterMap_append, ih]
      cases p with
      | text text => rfl
      | node n => rfl

/-! ## §3. Where nothing is replaced. -/

/-- A node that makes no direct import stays as it is. -/
theorem Node.direct_of_directImports {scope : Scope} (n : Node) :
    n.directImports scope = [] → n.direct scope = n := by
  induction n using Node.induction with
  | identifier name => exact fun _ => rfl
  | member object operator property ih =>
      intro h
      cases hobject : object.name?.bind scope with
      | some module =>
          -- an access on a handle makes an import
          rw [(Node.direct_member_of_some operator property hobject).2] at h
          cases h
      | none =>
          obtain ⟨hdirect, himports⟩ := Node.direct_member_of_none operator property hobject
          rw [hdirect, ih (himports ▸ h)]
  | construct kind parts ih =>
      intro h
      rw [Node.directImports_construct, List.flatMap_eq_nil_iff] at h
      rw [Node.direct, Part.directList_eq_map]
      congr 1
      refine (List.map_congr_left fun p hp => ?_).trans (List.map_id parts)
      cases p with
      | text text => rfl
      | node n =>
          show Part.node (n.direct scope) = .node n
          rw [ih n hp (h n (List.mem_filterMap.2 ⟨_, hp, rfl⟩))]
  | token kind text => exact fun _ => rfl

/-- Without handles no direct import is made. -/
theorem Node.directImports_of_no_handles {scope : Scope} (h : ∀ x, scope x = none) (n : Node) :
    n.directImports scope = [] := by
  unfold Node.directImports
  rw [List.filterMap_eq_nil_iff]
  intro a _
  unfold Access.direct?
  rw [Option.map_eq_none_iff, Option.bind_eq_none_iff]
  exact fun x _ => h x

/-- Without handles nothing is replaced. -/
theorem Node.direct_of_no_handles {scope : Scope} (h : ∀ x, scope x = none) (n : Node) :
    n.direct scope = n :=
  n.direct_of_directImports (n.directImports_of_no_handles h)

/-! ## §4. Every replacement takes one access away. -/

theorem Part.accessCount_directList {scope : Scope} {ps : List Part}
    (hnode : ∀ n, .node n ∈ ps →
      (n.direct scope).accessCount + (n.directImports scope).length = n.accessCount) :
    (Part.accessesOfList (Part.directList scope ps)).length
        + ((Part.accessesOfList ps).filterMap (Access.direct? scope)).length
      = (Part.accessesOfList ps).length := by
  induction ps with
  | nil => rfl
  | cons p ps ih =>
      have hps := ih fun n hn => hnode n (List.mem_cons_of_mem _ hn)
      have hp : ((p.direct scope).accesses).length
          + (p.accesses.filterMap (Access.direct? scope)).length = p.accesses.length := by
        cases p with
        | text text => rfl
        | node n => exact hnode n List.mem_cons_self
      simp only [Part.directList, Part.accessesOfList, List.filterMap_append, List.length_append]
      omega

/-- **The accesses left and the direct imports made are as many as the accesses
there were.** -/
theorem Node.accessCount_direct (scope : Scope) (n : Node) :
    (n.direct scope).accessCount + (n.directImports scope).length = n.accessCount := by
  induction n using Node.induction with
  | identifier name => rfl
  | member object operator property ih =>
      cases h : object.name?.bind scope with
      | some module =>
          obtain ⟨x, hx, -⟩ := Option.bind_eq_some_iff.1 h
          -- one access before, none after, and one import
          have hbare := (Node.lone_of_name? hx).1
          obtain ⟨hd, hi⟩ := Node.direct_member_of_some operator property h
          rw [hd, hi]
          simp [Node.accessCount, Node.accesses, hbare]
      | none =>
          obtain ⟨hd, hi⟩ := Node.direct_member_of_none operator property h
          rw [hd, hi]
          simp only [Node.accessCount, Node.accesses, List.length_cons] at ih ⊢
          omega
  | construct kind parts ih => exact Part.accessCount_directList ih
  | token kind text => rfl

/-! ## §5. What the substitution keeps. -/

/-- A node keeps its kind, unless it is an access. -/
theorem Node.kind_direct (scope : Scope) (n : Node) {kind : String}
    (hname : kind ≠ "identifier") (haccess : kind ≠ "member_expression") :
    ((n.direct scope).kind == kind) = (n.kind == kind) := by
  cases n with
  | identifier | token | construct => rfl
  | member object operator property =>
      have hbefore : ((Node.member object operator property).kind == kind) = false :=
        beq_eq_false_iff_ne.2 haccess.symm
      rw [hbefore, direct]
      split
      · exact beq_eq_false_iff_ne.2 hname.symm
      · exact beq_eq_false_iff_ne.2 haccess.symm

theorem Node.isToken_direct (scope : Scope) (n : Node) (text : String) :
    (n.direct scope).isToken text = n.isToken text := by
  cases n with
  | identifier | token | construct => rfl
  | member object operator property =>
      rw [direct]
      split <;> rfl

theorem Part.nodes_directList (scope : Scope) (ps : List Part) :
    Part.nodes (Part.directList scope ps) = (Part.nodes ps).map (Node.direct scope) := by
  induction ps with
  | nil => rfl
  | cons p ps ih =>
      cases p with
      | text text => exact ih
      | node n => exact congrArg (n.direct scope :: ·) ih

end ImportSplit
