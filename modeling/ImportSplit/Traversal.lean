/-
  ImportSplit.Traversal
  ────────────────────────────────
  **WALKING A MODULE AND EDITING IT.**

  A visitor is told of every top-level import declaration and of every access
  `object.property`, in source order, and carries a state from call to call.
  It may keep, remove or replace a declaration, and it may replace an access
  by any node; the replacement is walked in turn.  An access that is kept has
  its object walked.

  Replacements inside replacements need not end, so `walk` takes a depth: how
  many replacements may nest.  A visitor whose replacements hold fewer
  accesses than what they replace is `Shrinking`, and for it the number of
  accesses in the module is depth enough:

      v.Shrinks → p.accessCount ≤ depth → (v.traverse? depth p).isSome

  so a shrinking visitor runs on every module without a depth (`run`).
-/
import ImportSplit.Tree.Accesses

namespace ImportSplit

/-! ## §1. Visitors. -/

/-- What becomes of an import declaration. -/
inductive ImportEdit where
  | keep
  | remove
  | replace (decl : ImportDecl)
  deriving Repr, DecidableEq, Inhabited

namespace ImportEdit

/-- The statements that stand in the place of a declaration after the edit. -/
def apply (d : ImportDecl) : ImportEdit → List Statement
  | keep => [.importing d]
  | remove => []
  | replace decl => [.importing decl]

end ImportEdit

/-- What is called during a walk; every call is handed the state and returns
the next one. -/
structure Visitor (σ : Type) where
  /-- The state before the first statement. -/
  enter : Program → σ
  /-- Called for every top-level import declaration. -/
  onImport : ImportDecl → σ → ImportEdit × σ := fun _ s => (.keep, s)
  /-- Called for every access, the outer before the inner; a node that it
  returns takes the place of the access. -/
  onAccess : Access → σ → Option Node × σ := fun _ s => (none, s)
  /-- Called after the last statement, on the edited module. -/
  leave : Program → σ → Program × σ := fun p s => (p, s)

namespace Visitor

variable {σ : Type}

/-! ## §2. Walking. -/

mutual
/-- Walks a node; a replacement is handed to `again`. -/
def walkWith (v : Visitor σ) (again : Node → σ → Option (Node × σ)) :
    Node → σ → Option (Node × σ)
  | .identifier name, s => some (.identifier name, s)
  | .token kind text, s => some (.token kind text, s)
  | .member object operator property, s =>
      match v.onAccess ⟨object, operator, property⟩ s with
      | (some replacement, s') => again replacement s'
      | (none, s') =>
          match walkWith v again object s' with
          | some (object', s'') => some (.member object' operator property, s'')
          | none => none
  | .construct kind parts, s =>
      match walkParts v again parts s with
      | some (parts', s') => some (.construct kind parts', s')
      | none => none
/-- Walks parts from left to right. -/
def walkParts (v : Visitor σ) (again : Node → σ → Option (Node × σ)) :
    List Part → σ → Option (List Part × σ)
  | [], s => some ([], s)
  | p :: rest, s =>
      match walkPart v again p s with
      | some (p', s') =>
          match walkParts v again rest s' with
          | some (rest', s'') => some (p' :: rest', s'')
          | none => none
      | none => none
/-- Walks one part. -/
def walkPart (v : Visitor σ) (again : Node → σ → Option (Node × σ)) :
    Part → σ → Option (Part × σ)
  | .text text, s => some (.text text, s)
  | .node n, s =>
      match walkWith v again n s with
      | some (n', s') => some (.node n', s')
      | none => none
end

/-- Walks a node in which replacements nest no deeper than `depth`; `none` if
they do. -/
def walk (v : Visitor σ) : (depth : Nat) → Node → σ → Option (Node × σ)
  | 0 => v.walkWith fun _ _ => none
  | depth + 1 => v.walkWith (v.walk depth)

/-- Walks statements in order. -/
def walkBody (v : Visitor σ) (depth : Nat) :
    List Statement → σ → Option (List Statement × σ)
  | [], s => some ([], s)
  | .importing d :: rest, s =>
      let (edit, s') := v.onImport d s
      match walkBody v depth rest s' with
      | some (rest', s'') => some (edit.apply d ++ rest', s'')
      | none => none
  | .other n :: rest, s =>
      match v.walk depth n s with
      | some (n', s') =>
          match walkBody v depth rest s' with
          | some (rest', s'') => some (.other n' :: rest', s'')
          | none => none
      | none => none

/-- Walks a whole module; `none` if replacements nest deeper than `depth`. -/
def traverse? (v : Visitor σ) (depth : Nat) (p : Program) : Option (Program × σ) :=
  match v.walkBody depth p.body (v.enter p) with
  | some (body, s) => some (v.leave ⟨body⟩ s)
  | none => none

/-! ## §3. Shrinking visitors always finish. -/

/-- Every replacement holds fewer accesses than the access it replaces. -/
def Shrinks (v : Visitor σ) : Prop :=
  ∀ (a : Access) (s s' : σ) (r : Node),
    v.onAccess a s = (some r, s') → r.accessCount < a.node.accessCount

theorem accessCount_member (object : Node) (operator property : String) :
    (Node.member object operator property).accessCount = object.accessCount + 1 := by
  simp [Node.accessCount, Node.accesses]

mutual
theorem walkWith_isSome {v : Visitor σ} (hv : v.Shrinks)
    {again : Node → σ → Option (Node × σ)} {k : Nat}
    (hagain : ∀ r s, r.accessCount < k → (again r s).isSome) :
    ∀ (n : Node) (s : σ), n.accessCount ≤ k → (v.walkWith again n s).isSome
  | .identifier _, _, _ => by simp [walkWith]
  | .token .., _, _ => by simp [walkWith]
  | .member object operator property, s, hk => by
      have hcount := accessCount_member object operator property
      unfold walkWith
      split
      · next r s' h =>
          have := hv ⟨object, operator, property⟩ s s' r h
          exact hagain r s' (by simp only [Access.node] at this; omega)
      · next s' h =>
          have := walkWith_isSome hv hagain object s' (by omega)
          obtain ⟨x, hx⟩ := Option.isSome_iff_exists.1 this
          simp [hx]
  | .construct kind parts, s, hk => by
      have := walkParts_isSome hv hagain parts s hk
      obtain ⟨x, hx⟩ := Option.isSome_iff_exists.1 this
      simp [walkWith, hx]
theorem walkParts_isSome {v : Visitor σ} (hv : v.Shrinks)
    {again : Node → σ → Option (Node × σ)} {k : Nat}
    (hagain : ∀ r s, r.accessCount < k → (again r s).isSome) :
    ∀ (ps : List Part) (s : σ), (Part.accessesOfList ps).length ≤ k →
      (v.walkParts again ps s).isSome
  | [], _, _ => by simp [walkParts]
  | p :: rest, s, hk => by
      simp only [Part.accessesOfList, List.length_append] at hk
      have hp := walkPart_isSome hv hagain p s (by omega)
      obtain ⟨⟨p', s'⟩, hp⟩ := Option.isSome_iff_exists.1 hp
      have hr := walkParts_isSome hv hagain rest s' (by omega)
      obtain ⟨x, hr⟩ := Option.isSome_iff_exists.1 hr
      simp [walkParts, hp, hr]
theorem walkPart_isSome {v : Visitor σ} (hv : v.Shrinks)
    {again : Node → σ → Option (Node × σ)} {k : Nat}
    (hagain : ∀ r s, r.accessCount < k → (again r s).isSome) :
    ∀ (p : Part) (s : σ), p.accesses.length ≤ k → (v.walkPart again p s).isSome
  | .text _, _, _ => by simp [walkPart]
  | .node n, s, hk => by
      have := walkWith_isSome hv hagain n s hk
      obtain ⟨x, hx⟩ := Option.isSome_iff_exists.1 this
      simp [walkPart, hx]
end

/-- As many nested replacements as there are accesses are enough. -/
theorem walk_isSome {v : Visitor σ} (hv : v.Shrinks) (depth : Nat) :
    ∀ (n : Node) (s : σ), n.accessCount ≤ depth → (v.walk depth n s).isSome := by
  induction depth with
  | zero =>
      intro n s hn
      exact walkWith_isSome hv (fun r _ h => absurd h (Nat.not_lt_zero _)) n s hn
  | succ d ih =>
      intro n s hn
      exact walkWith_isSome hv (fun r s' h => ih r s' (by omega)) n s hn

theorem walkBody_isSome {v : Visitor σ} (hv : v.Shrinks) (depth : Nat) :
    ∀ (body : List Statement) (s : σ), (body.flatMap Statement.accesses).length ≤ depth →
      (v.walkBody depth body s).isSome
  | [], _, _ => by simp [walkBody]
  | .importing d :: rest, s, hd => by
      simp only [List.flatMap_cons, Statement.accesses, List.nil_append] at hd
      have := walkBody_isSome hv depth rest (v.onImport d s).2 hd
      obtain ⟨x, hx⟩ := Option.isSome_iff_exists.1 this
      simp [walkBody, hx]
  | .other n :: rest, s, hd => by
      simp only [List.flatMap_cons, Statement.accesses, List.length_append] at hd
      have hn := walk_isSome hv depth n s (by simp only [Node.accessCount]; omega)
      obtain ⟨⟨n', s'⟩, hn⟩ := Option.isSome_iff_exists.1 hn
      have := walkBody_isSome hv depth rest s' (by omega)
      obtain ⟨x, hx⟩ := Option.isSome_iff_exists.1 this
      simp [walkBody, hn, hx]

/-- A shrinking visitor finishes on every module. -/
theorem traverse?_isSome {v : Visitor σ} (hv : v.Shrinks) {depth : Nat} {p : Program}
    (hp : p.accessCount ≤ depth) : (v.traverse? depth p).isSome := by
  have := walkBody_isSome hv depth p.body (v.enter p) hp
  obtain ⟨x, hx⟩ := Option.isSome_iff_exists.1 this
  simp [traverse?, hx]

end Visitor

/-- A visitor together with the reason why it always finishes. -/
structure ShrinkingVisitor (σ : Type) extends Visitor σ where
  shrinks : toVisitor.Shrinks

namespace ShrinkingVisitor

variable {σ : Type}

/-- The edited module and the last state of a shrinking visitor. -/
def run (v : ShrinkingVisitor σ) (p : Program) : Program × σ :=
  (v.traverse? p.accessCount p).get (Visitor.traverse?_isSome v.shrinks (Nat.le_refl _))

/-- The edited statements and the state with which the visitor leaves a module. -/
def walked (v : ShrinkingVisitor σ) (p : Program) : List Statement × σ :=
  (v.walkBody p.accessCount p.body (v.enter p)).get
    (Visitor.walkBody_isSome v.shrinks _ _ _ (Nat.le_refl _))

theorem run_eq_leave (v : ShrinkingVisitor σ) (p : Program) :
    v.run p = v.leave ⟨(v.walked p).1⟩ (v.walked p).2 := by
  have hbody : v.walkBody p.accessCount p.body (v.enter p) = some (v.walked p) :=
    (Option.some_get _).symm
  have htraverse : v.traverse? p.accessCount p
      = some (v.leave ⟨(v.walked p).1⟩ (v.walked p).2) := by
    unfold Visitor.traverse?
    rw [hbody]
  exact Option.some_inj.1 ((Option.some_get _).trans htraverse)

end ShrinkingVisitor

end ImportSplit
