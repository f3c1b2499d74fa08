/-
  ImportSplit.Proofs.Visits
  ────────────────────────────────
  **WHAT A WALK CALLS ITS VISITOR FOR.**

  A module holds its visits in the order of its text: one for each import
  declaration, and one for each access, the outer before the inner.

      statement              visits
      ─────────              ──────
      `import _ from "m";`   the declaration
      `f(a.b.c, d.e);`       `a.b.c`, `a.b`, `d.e`

  A visitor that reads only is called for exactly these, and leaves the module
  as it is.  A visitor that replaces accesses is called for those of its
  replacements as well, which may be larger trees than what they replace.  If
  each replacement holds fewer accesses than the access it stands for, the walk
  ends all the same: the accesses left to visit become fewer with every
  replacement, and the nodes left to visit with every other step.

    • `traverse?_of_readsOnly` — reading only,
    • `walk_bounded_of_lt` — one step: what holds of all nodes with fewer accesses
      holds of a node,
    • `exists_traverse?_of_shrinks` — a shrinking visitor finishes on every module, with
      at most as many calls as the module holds accesses.
-/
import ImportSplit.Proofs.Nodes
import ImportSplit.Split.Pass

namespace ImportSplit

/-! ## §1. Visits. -/

/-- What a visitor is called for. -/
inductive Visit where
  | declaration (d : ImportDecl)
  | access (a : Access)

/-- The visits of a statement, in order. -/
def Statement.visits : Statement → List Visit
  | importing d => [.declaration d]
  | other n => n.accesses.map .access

/-- The visits of a module, in order. -/
def Program.visits (p : Program) : List Visit := p.body.flatMap Statement.visits

/-- A construct holds the accesses of each node among its parts. -/
theorem Node.accessCount_le_of_mem {n : Node} {parts : List Part} (kind : String)
    (hn : .node n ∈ parts) : n.accessCount ≤ (Node.construct kind parts).accessCount := by
  have hmem : n.accesses ∈ parts.map Part.accesses := List.mem_map.2 ⟨.node n, hn, rfl⟩
  show n.accesses.length ≤ (Part.accessesOfList parts).length
  rw [Part.accessesOfList_eq_flatMap]
  exact (List.sublist_flatten_of_mem hmem).length_le

namespace Visitor

variable {σ : Type} {v : Visitor σ}

/-- The state after a call. -/
def after (v : Visitor σ) (s : σ) : Visit → σ
  | .declaration d => (v.onImport d s).2
  | .access a => (v.onAccess a s).2

/-! ## §2. Visitors that read only. -/

/-- The visitor keeps every declaration and every access, whatever it does to its
state. -/
structure ReadsOnly (v : Visitor σ) : Prop where
  keeps : ∀ d s, (v.onImport d s).1 = .keep
  replacesNone : ∀ a s, (v.onAccess a s).1 = none

theorem walkParts_of_readsOnly {again : Node → σ → Option (Node × σ)} {ps : List Part}
    (hnode : ∀ n, .node n ∈ ps → ∀ s,
      v.walkWith again n s = some (n, (n.accesses.map .access).foldl v.after s)) :
    ∀ s, v.walkParts again ps s
      = some (ps, ((Part.accessesOfList ps).map .access).foldl v.after s) := by
  induction ps with
  | nil => intro s; rfl
  | cons p ps ih =>
      intro s
      have hp : v.walkPart again p s = some (p, (p.accesses.map .access).foldl v.after s) := by
        cases p with
        | text t => rfl
        | node n =>
            simp only [walkPart, hnode n List.mem_cons_self s]
            rfl
      have hps := ih fun n hn => hnode n (List.mem_cons_of_mem _ hn)
      simp only [walkParts, hp, hps]
      rw [Part.accessesOfList, List.map_append, List.foldl_append]

/-- A visitor that reads only is called for the accesses of a node in order. -/
theorem walkWith_of_readsOnly (hv : v.ReadsOnly) (again : Node → σ → Option (Node × σ))
    (n : Node) :
    ∀ s, v.walkWith again n s = some (n, (n.accesses.map .access).foldl v.after s) := by
  induction n using Node.induction with
  | identifier name => intro s; rfl
  | token kind text => intro s; rfl
  | construct kind parts ih =>
      intro s
      simp only [walkWith, walkParts_of_readsOnly ih s]
      rfl
  | member object operator property ih =>
      intro s
      have hcall : v.onAccess ⟨object, operator, property⟩ s
          = (none, v.after s (.access ⟨object, operator, property⟩)) :=
        Prod.ext (hv.replacesNone _ s) rfl
      simp only [walkWith, hcall, ih]
      rfl

theorem walk_of_readsOnly (hv : v.ReadsOnly) (depth : Nat) (n : Node) (s : σ) :
    v.walk depth n s = some (n, (n.accesses.map .access).foldl v.after s) := by
  cases depth <;> exact walkWith_of_readsOnly hv _ n s

theorem walkBody_of_readsOnly (hv : v.ReadsOnly) (depth : Nat) (body : List Statement) :
    ∀ s, v.walkBody depth body s = some (body, (body.flatMap Statement.visits).foldl v.after s) := by
  induction body with
  | nil => intro s; rfl
  | cons t body ih =>
      intro s
      rw [List.flatMap_cons, List.foldl_append]
      cases t with
      | importing d =>
          have hcall : v.onImport d s = (.keep, v.after s (.declaration d)) :=
            Prod.ext (hv.keeps d s) rfl
          simp only [walkBody, hcall, ih]
          rfl
      | other n =>
          simp only [walkBody, walk_of_readsOnly hv, ih]
          rfl

/-- **A visitor that reads only observes everything once and changes nothing.**
At any depth the walk ends; what is handed on at its end is the module itself, and
the state after the visits of the module, in order. -/
theorem traverse?_of_readsOnly (v : Visitor σ) (hv : v.ReadsOnly) (depth : Nat) (p : Program) :
    v.traverse? depth p = some (v.leave p (p.visits.foldl v.after (v.enter p))) := by
  unfold traverse?
  rw [walkBody_of_readsOnly hv]
  rfl

/-- Writes down the sources and the properties that it meets. -/
def collecting : Visitor (List String) where
  enter _ := []
  onImport d s := (.keep, s ++ [d.source])
  onAccess a s := (none, s ++ [a.property])

theorem traverse?_of_readsOnly_collecting :
    collecting.ReadsOnly
      ∧ collecting.traverse? 0
          ⟨[.importing ⟨[.byDefault "x"], "m", none⟩,
            .other (.member (.member (.identifier "a") "." "b") "." "c")]⟩
        = some (⟨[.importing ⟨[.byDefault "x"], "m", none⟩,
            .other (.member (.member (.identifier "a") "." "b") "." "c")]⟩, ["m", "c", "b"]) :=
  have hreads : collecting.ReadsOnly := ⟨fun _ _ => rfl, fun _ _ => rfl⟩
  ⟨hreads, traverse?_of_readsOnly collecting hreads 0 _⟩

/-! ## §3. Counting calls. -/

/-- The visitor with a count of the accesses that it is called for. -/
def counted (v : Visitor σ) : Visitor (σ × Nat) where
  enter p := (v.enter p, 0)
  onImport d s := ((v.onImport d s.1).1, (v.onImport d s.1).2, s.2)
  onAccess a s := ((v.onAccess a s.1).1, (v.onAccess a s.1).2, s.2 + 1)
  leave p s := ((v.leave p s.1).1, (v.leave p s.1).2, s.2)

/-- Where a replacement is walked. -/
def again (v : Visitor σ) : (depth : Nat) → Node → σ → Option (Node × σ)
  | 0 => fun _ _ => none
  | depth + 1 => v.walk depth

theorem walk_eq_walkWith (v : Visitor σ) (depth : Nat) :
    v.walk depth = v.walkWith (v.again depth) := by
  cases depth <;> rfl

theorem again_succ (v : Visitor σ) (depth : Nat) :
    v.again (depth + 1) = v.walkWith (v.again depth) :=
  v.walk_eq_walkWith depth

/-- A walk of something that holds `count` accesses ends in one way at every depth
from `count` on, and calls the visitor for at most `count` accesses. -/
def Bounded {α : Type} (count : Nat) (walk : Nat → σ → Option (α × σ))
    (counted : Nat → σ × Nat → Option (α × σ × Nat)) : Prop :=
  ∀ s, ∃ x s' calls, calls ≤ count ∧ ∀ depth, count ≤ depth →
    walk depth s = some (x, s') ∧ ∀ k, counted depth (s, k) = some (x, s', k + calls)

/-- Where nothing is visited, the walk is bounded. -/
theorem bounded_of_still {α : Type} (x : α) :
    Bounded (σ := σ) 0 (fun _ s => some (x, s)) (fun _ s => some (x, s)) :=
  fun s => ⟨x, s, 0, Nat.le_refl 0, fun _ _ => ⟨rfl, fun _ => rfl⟩⟩

/-- The walk of a node is bounded by its accesses. -/
def WalkBounded (v : Visitor σ) (n : Node) : Prop :=
  Bounded n.accessCount (fun depth => v.walkWith (v.again depth) n)
    (fun depth => v.counted.walkWith (v.counted.again depth) n)

theorem walkParts_bounded {ps : List Part} (hnode : ∀ n, .node n ∈ ps → v.WalkBounded n) :
    Bounded (Part.accessesOfList ps).length (fun depth => v.walkParts (v.again depth) ps)
      (fun depth => v.counted.walkParts (v.counted.again depth) ps) := by
  induction ps with
  | nil => exact bounded_of_still []
  | cons p ps ih =>
      intro s
      have hps := ih fun n hn => hnode n (List.mem_cons_of_mem _ hn)
      have hp : Bounded p.accesses.length (fun depth => v.walkPart (v.again depth) p)
          (fun depth => v.counted.walkPart (v.counted.again depth) p) := by
        cases p with
        | text t => exact bounded_of_still (Part.text t)
        | node n =>
            intro s
            obtain ⟨n', s', calls, hcalls, hwalk⟩ := hnode n List.mem_cons_self s
            refine ⟨.node n', s', calls, hcalls, fun depth hdepth => ?_⟩
            obtain ⟨hn, hcounted⟩ := hwalk depth hdepth
            simp only [walkPart, hn, hcounted]
            exact ⟨trivial, fun _ => trivial⟩
      obtain ⟨p', s₁, first, hfirst, hwalk⟩ := hp s
      obtain ⟨ps', s₂, rest, hrest, hwalks⟩ := hps s₁
      rw [Part.accessesOfList, List.length_append]
      refine ⟨p' :: ps', s₂, first + rest, by omega, fun depth hdepth => ?_⟩
      obtain ⟨hone, hcount⟩ := hwalk depth (by omega)
      obtain ⟨hmany, hcounts⟩ := hwalks depth (by omega)
      simp only [walkParts, hone, hmany, hcount, hcounts, Nat.add_assoc]
      exact ⟨trivial, fun _ => trivial⟩

/-! ## §4. Shrinking visitors. -/

/-- **One step.**  A replacement has fewer accesses than the access that it stands
for, and so has the object of an access that stays; a construct is walked part by
part. -/
theorem walk_bounded_of_lt (hv : v.Shrinks) {m : Nat}
    (hless : ∀ n, n.accessCount < m → v.WalkBounded n) (n : Node) :
    n.accessCount ≤ m → v.WalkBounded n := by
  induction n using Node.induction with
  | identifier name => exact fun _ => bounded_of_still (Node.identifier name)
  | token kind text => exact fun _ => bounded_of_still (Node.token kind text)
  | construct kind parts ih =>
      intro hm s
      have hnode : ∀ n, .node n ∈ parts → v.WalkBounded n := fun n hn =>
        ih n hn (Nat.le_trans (Node.accessCount_le_of_mem kind hn) hm)
      obtain ⟨parts', s', calls, hcalls, hwalk⟩ := walkParts_bounded hnode s
      refine ⟨.construct kind parts', s', calls, hcalls, fun depth hdepth => ?_⟩
      obtain ⟨hparts, hcounted⟩ := hwalk depth hdepth
      simp only [walkWith, hparts, hcounted]
      exact ⟨trivial, fun _ => trivial⟩
  | member object operator property ih =>
      intro hm s
      have hcount := accessCount_member object operator property
      obtain ⟨replacement, s₁, hcall⟩ :
          ∃ replacement s₁, v.onAccess ⟨object, operator, property⟩ s = (replacement, s₁) :=
        ⟨_, _, rfl⟩
      have hcall' : ∀ k, v.counted.onAccess ⟨object, operator, property⟩ (s, k)
          = (replacement, s₁, k + 1) := by
        intro k
        simp only [counted, hcall]
      cases replacement with
      | some r =>
          have hr : r.accessCount < (Node.member object operator property).accessCount :=
            hv _ s s₁ r hcall
          obtain ⟨n', s', calls, hcalls, hwalk⟩ := hless r (by omega) s₁
          refine ⟨n', s', 1 + calls, by omega, fun depth hdepth => ?_⟩
          -- the access takes one call, and its replacement stands one deeper
          obtain ⟨depth, rfl⟩ : ∃ d, depth = d + 1 := ⟨depth - 1, by omega⟩
          obtain ⟨hwalked, hcounted⟩ := hwalk depth (by omega)
          simp only [walkWith, hcall, hcall', again_succ, hwalked, hcounted, Nat.add_assoc]
          exact ⟨trivial, fun _ => trivial⟩
      | none =>
          obtain ⟨object', s', calls, hcalls, hwalk⟩ := ih (by omega) s₁
          refine ⟨.member object' operator property, s', 1 + calls, by omega,
            fun depth hdepth => ?_⟩
          obtain ⟨hwalked, hcounted⟩ := hwalk depth (by omega)
          simp only [walkWith, hcall, hcall', hwalked, hcounted, Nat.add_assoc]
          exact ⟨trivial, fun _ => trivial⟩

/-- The walk of every node is bounded, by induction on the number of accesses. -/
theorem walk_bounded (hv : v.Shrinks) (n : Node) : v.WalkBounded n := by
  induction hm : n.accessCount using Nat.strongRecOn generalizing n with
  | ind m ih => exact walk_bounded_of_lt hv (fun r hr => ih _ hr r rfl) n (Nat.le_of_eq hm)

theorem walkBody_bounded (hv : v.Shrinks) (body : List Statement) :
    Bounded (body.flatMap Statement.accesses).length (fun depth => v.walkBody depth body)
      (fun depth => v.counted.walkBody depth body) := by
  induction body with
  | nil => exact bounded_of_still []
  | cons t body ih =>
      intro s
      cases t with
      | importing d =>
          obtain ⟨body', s', calls, hcalls, hwalk⟩ := ih (v.onImport d s).2
          refine ⟨(v.onImport d s).1.apply d ++ body', s', calls, hcalls, fun depth hdepth => ?_⟩
          obtain ⟨hbody, hcounted⟩ := hwalk depth hdepth
          simp only [walkBody, hbody, counted] at hcounted ⊢
          simp only [hcounted]
          exact ⟨trivial, fun _ => trivial⟩
      | other n =>
          obtain ⟨n', s₁, first, hfirst, hwalk⟩ := walk_bounded hv n s
          obtain ⟨body', s₂, rest, hrest, hwalks⟩ := ih s₁
          rw [List.flatMap_cons, List.length_append]
          have hn : (Statement.other n).accesses.length = n.accessCount := rfl
          refine ⟨.other n' :: body', s₂, first + rest, by omega, fun depth hdepth => ?_⟩
          obtain ⟨hone, hcount⟩ := hwalk depth (by omega)
          obtain ⟨hmany, hcounts⟩ := hwalks depth (by omega)
          simp only [walkBody, walk_eq_walkWith, hone, hmany, hcount, hcounts, Nat.add_assoc]
          exact ⟨trivial, fun _ => trivial⟩

/-- **A shrinking visitor finishes on every module.**  It ends in one way at every
depth that is at least the number of accesses in the module, and is called for at
most as many accesses.  The pass that splits imports is such a visitor. -/
theorem exists_traverse?_of_shrinks :
    (∀ {σ : Type} (v : Visitor σ), v.Shrinks → ∀ p : Program,
        ∃ q s calls, calls ≤ p.accessCount ∧ ∀ depth, p.accessCount ≤ depth →
          v.traverse? depth p = some (q, s)
            ∧ v.counted.traverse? depth p = some (q, s, calls))
      ∧ ∀ w, (Split.visitor w).Shrinks := by
  refine ⟨fun v hv p => ?_, Split.visitor_shrinks⟩
  obtain ⟨body, s, calls, hcalls, hwalk⟩ := walkBody_bounded hv p.body (v.enter p)
  refine ⟨(v.leave ⟨body⟩ s).1, (v.leave ⟨body⟩ s).2, calls, hcalls, fun depth hdepth => ?_⟩
  obtain ⟨hbody, hcounted⟩ := hwalk depth hdepth
  have hcalls : v.counted.walkBody depth p.body (v.counted.enter p) = some (body, s, calls) := by
    have hzero := hcounted 0
    rwa [Nat.zero_add] at hzero
  unfold traverse?
  simp only at hbody
  rw [hbody, hcalls]
  exact ⟨rfl, rfl⟩

end Visitor

end ImportSplit
