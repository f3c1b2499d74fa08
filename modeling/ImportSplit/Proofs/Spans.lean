/-
  ImportSplit.Proofs.Spans
  ────────────────────────────────
  **A REWRITE CHANGES THE TEXT ONLY WHERE ITS ACCESSES STAND.**

  The text of a node is a row of spans: text that stays, and accesses on
  handles, each of which becomes the name of its direct import.

      f( │ _.map │ , (fp).flow.x )          _ ↦ lodash, fp ↦ lodash/fp
      f( │ _.map │ ,  │ (fp).flow │ .x)
      f( │ lodash_map │ ,  │ lodash_fp_flow │ .x)

  An access on a handle holds no other access, so the spans never overlap, and
  the walk meets them from left to right.

    • `Covers` — a row of spans spells the text before and the text after,
      makes the direct imports, and has its accesses where the tree has them,
    • `Node.covers` — the spans of a node do so,
    • `walk_local` — the same, said of the walk of a node.
-/
import ImportSplit.Proofs.Stateless
import ImportSplit.Tree.Printer

namespace ImportSplit

/-! ## §1. Where the accesses of a node stand. -/

mutual
/-- The accesses inside a node whose text starts behind `start` characters,
each with the number of characters before it. -/
def Node.accessesFrom (start : Nat) : Node → List (Nat × Access)
  | .identifier _ => []
  | .member object operator property =>
      (start, ⟨object, operator, property⟩) :: object.accessesFrom start
  | .construct _ parts => Part.accessesFromList start parts
  | .token .. => []
/-- The accesses inside parts, from left to right. -/
def Part.accessesFromList (start : Nat) : List Part → List (Nat × Access)
  | [] => []
  | p :: rest =>
      p.accessesFrom start ++ Part.accessesFromList (start + p.spelling.length) rest
/-- The accesses inside one part. -/
def Part.accessesFrom (start : Nat) : Part → List (Nat × Access)
  | .text _ => []
  | .node n => n.accessesFrom start
end

theorem Part.map_snd_accessesFromList {ps : List Part}
    (hnode : ∀ n, .node n ∈ ps → ∀ start, (n.accessesFrom start).map Prod.snd = n.accesses) :
    ∀ start, (Part.accessesFromList start ps).map Prod.snd = Part.accessesOfList ps := by
  induction ps with
  | nil => intro start; rfl
  | cons p ps ih =>
      intro start
      have hp : (p.accessesFrom start).map Prod.snd = p.accesses := by
        cases p with
        | text text => rfl
        | node n => exact hnode n List.mem_cons_self start
      show (p.accessesFrom start
          ++ Part.accessesFromList (start + p.spelling.length) ps).map Prod.snd = _
      rw [List.map_append, hp, ih fun n hn => hnode n (List.mem_cons_of_mem _ hn)]
      rfl

/-- They are the accesses of the node. -/
theorem Node.map_snd_accessesFrom (n : Node) :
    ∀ start, (n.accessesFrom start).map Prod.snd = n.accesses := by
  induction n using Node.induction with
  | identifier name => intro start; rfl
  | token kind text => intro start; rfl
  | construct kind parts ih => exact Part.map_snd_accessesFromList ih
  | member object operator property ih =>
      intro start
      show _ :: (object.accessesFrom start).map Prod.snd = _
      rw [ih]
      rfl

/-- The access is on a handle. -/
def Access.isOn (scope : Scope) (a : Access) : Bool := (a.objectName?.bind scope).isSome

/-- The accesses on handles inside a node, each with its place. -/
def Node.handleAccesses (scope : Scope) (n : Node) (start : Nat) : List (Nat × Access) :=
  (n.accessesFrom start).filter fun placed => placed.2.isOn scope

/-! ## §2. Spans. -/

/-- A stretch of the text of a node. -/
inductive Span where
  /-- Text that stays as it is. -/
  | kept (text : String)
  /-- An access on a handle to the module. -/
  | cut (access : Access) (module : String)

namespace Span

/-- The text of a span before the rewrite. -/
def before : Span → String
  | kept text => text
  | cut access _ => access.node.spelling

/-- The text of a span after the rewrite. -/
def after : Span → String
  | kept text => text
  | cut access module => memberName module access.property

/-- The direct import that a span makes. -/
def direct? : Span → Option DirectImport
  | kept _ => none
  | cut access module => some (.ofAccess module access.property)

/-- The accesses among spans whose text starts behind `start` characters. -/
def places : (start : Nat) → List Span → List (Nat × Access)
  | _, [] => []
  | start, kept text :: rest => places (start + text.length) rest
  | start, cut access _ :: rest =>
      (start, access) :: places (start + access.node.spelling.length) rest

theorem places_append (xs ys : List Span) :
    ∀ start, places start (xs ++ ys)
      = places start xs ++ places (start + (String.join (xs.map before)).length) ys := by
  induction xs with
  | nil => intro start; simp [places]
  | cons x xs ih =>
      intro start
      cases x with
      | kept text =>
          show places (start + text.length) (xs ++ ys) = _
          rw [ih]
          simp [places, before, Nat.add_assoc]
      | cut access module =>
          show (start, access) :: places (start + access.node.spelling.length) (xs ++ ys) = _
          rw [ih]
          simp [places, before, Nat.add_assoc]

end Span

mutual
/-- The spans of a node. -/
def Node.spans (scope : Scope) : Node → List Span
  | .identifier name => [.kept name]
  | .member object operator property =>
      match object.name?.bind scope with
      | some module => [.cut ⟨object, operator, property⟩ module]
      | none => object.spans scope ++ [.kept (operator ++ property)]
  | .construct _ parts => Part.spansOfList scope parts
  | .token _ text => [.kept text]
/-- The spans of parts in a row. -/
def Part.spansOfList (scope : Scope) : List Part → List Span
  | [] => []
  | p :: rest => p.spans scope ++ Part.spansOfList scope rest
/-- The spans of one part. -/
def Part.spans (scope : Scope) : Part → List Span
  | .text text => [.kept text]
  | .node n => n.spans scope
end

/-! ## §3. What the spans of a node spell. -/

/-- The spans spell `old` before and `new` after the rewrite, make these direct
imports, and have their accesses at these places. -/
structure Covers (scope : Scope) (spans : List Span) (old new : String)
    (imports : List DirectImport) (placed : Nat → List (Nat × Access)) : Prop where
  before : String.join (spans.map Span.before) = old
  after : String.join (spans.map Span.after) = new
  imports : spans.filterMap Span.direct? = imports
  places : ∀ start, Span.places start spans = placed start
  resolved : ∀ a m, Span.cut a m ∈ spans → a.objectName?.bind scope = some m

namespace Covers

variable {scope : Scope} {xs ys : List Span} {old new old' new' : String}
  {imports imports' : List DirectImport} {placed placed' : Nat → List (Nat × Access)}

/-- Text that stays is one span. -/
theorem kept (scope : Scope) (text : String) :
    Covers scope [.kept text] text text [] fun _ => [] where
  before := by simp [Span.before]
  after := by simp [Span.after]
  imports := rfl
  places := fun _ => rfl
  resolved := by simp

/-- Spans in a row cover texts in a row. -/
theorem append (hx : Covers scope xs old new imports placed)
    (hy : Covers scope ys old' new' imports' placed') :
    Covers scope (xs ++ ys) (old ++ old') (new ++ new') (imports ++ imports')
      fun start => placed start ++ placed' (start + old.length) where
  before := by rw [List.map_append, String.join_append, hx.before, hy.before]
  after := by rw [List.map_append, String.join_append, hx.after, hy.after]
  imports := by rw [List.filterMap_append, hx.imports, hy.imports]
  places := by
    intro start
    rw [Span.places_append, hx.before, hx.places, hy.places]
  resolved := by
    intro a m h
    rcases List.mem_append.1 h with h | h
    · exact hx.resolved a m h
    · exact hy.resolved a m h

end Covers

theorem Part.covers {scope : Scope} {ps : List Part}
    (hnode : ∀ n, .node n ∈ ps → Covers scope (n.spans scope) n.spelling
      (n.direct scope).spelling (n.directImports scope) (n.handleAccesses scope)) :
    Covers scope (Part.spansOfList scope ps) (Part.spellingOfList ps)
      (Part.spellingOfList (Part.directList scope ps))
      ((Part.accessesOfList ps).filterMap (Access.direct? scope))
      fun start => (Part.accessesFromList start ps).filter fun a => a.2.isOn scope := by
  induction ps with
  | nil => exact ⟨rfl, rfl, rfl, fun _ => rfl, fun _ _ h => absurd h List.not_mem_nil⟩
  | cons p ps ih =>
      have hps := ih fun n hn => hnode n (List.mem_cons_of_mem _ hn)
      have hp : Covers scope (p.spans scope) p.spelling (p.direct scope).spelling
          (p.accesses.filterMap (Access.direct? scope))
          fun start => (p.accessesFrom start).filter fun a => a.2.isOn scope := by
        cases p with
        | text text => exact Covers.kept scope text
        | node n => exact hnode n List.mem_cons_self
      have happend := hp.append hps
      rw [← List.filterMap_append] at happend
      simp only [← List.filter_append] at happend
      exact happend

/-- **The spans of a node** spell it before and after the rewrite, make its
direct imports and stand where its accesses on handles do. -/
theorem Node.covers (scope : Scope) (n : Node) :
    Covers scope (n.spans scope) n.spelling (n.direct scope).spelling
      (n.directImports scope) (n.handleAccesses scope) := by
  induction n using Node.induction with
  | identifier name => exact Covers.kept scope name
  | token kind text => exact Covers.kept scope text
  | construct kind parts ih => exact Part.covers ih
  | member object operator property ih =>
      cases h : object.name?.bind scope with
      | some module =>
          -- an access on a handle is one span, for there is no access in its object
          obtain ⟨x, hx, -⟩ := Option.bind_eq_some_iff.1 h
          have hbare : ∀ start, object.accessesFrom start = [] := by
            intro start
            have hmap := object.map_snd_accessesFrom start
            rw [(Node.lone_of_name? hx).1] at hmap
            exact List.map_eq_nil_iff.1 hmap
          obtain ⟨hdirect, himports⟩ := Node.direct_member_of_some operator property h
          rw [hdirect, himports]
          have hspans : (Node.member object operator property).spans scope
              = [.cut ⟨object, operator, property⟩ module] := by
            simp only [Node.spans, h]
          rw [hspans]
          refine ⟨by simp [Span.before, Access.node], by simp [Span.after, Node.spelling], rfl,
            fun start => ?_, ?_⟩
          · have hon : Access.isOn scope ⟨object, operator, property⟩ = true := by
              simp [Access.isOn, Access.objectName?, h]
            simp [Span.places, Node.handleAccesses, Node.accessesFrom, hbare, hon]
          · intro a m ha
            cases List.mem_singleton.1 ha
            exact h
      | none =>
          obtain ⟨hdirect, himports⟩ := Node.direct_member_of_none operator property h
          have hspans : (Node.member object operator property).spans scope
              = object.spans scope ++ [.kept (operator ++ property)] := by
            simp only [Node.spans, h]
          have hplaced : (Node.member object operator property).handleAccesses scope
              = fun start => object.handleAccesses scope start ++ [] := by
            funext start
            have hoff : Access.isOn scope ⟨object, operator, property⟩ = false := by
              simp [Access.isOn, Access.objectName?, h]
            simp [Node.handleAccesses, Node.accessesFrom, hoff]
          have happend := ih.append (Covers.kept scope (operator ++ property))
          rw [hspans, hdirect, himports, hplaced]
          simpa [Node.spelling, String.append_assoc] using happend

/-! ## §4. Text, access, text, access, …, text. -/

/-- A rewritten access. -/
structure Cut where
  access : Access
  /-- The module that its handle stands for. -/
  module : String
  /-- The text between this access and the next one. -/
  next : String

namespace Cut

/-- The direct import that the access makes. -/
def imported (c : Cut) : DirectImport :=
  ⟨memberName c.module c.access.property, memberPath c.module c.access.property⟩

/-- The text `t₀ a₁ t₁ … aₖ tₖ`, where `spell` tells what stands for an access. -/
def weave (spell : Cut → String) (first : String) : List Cut → String
  | [] => first
  | c :: rest => first ++ spell c ++ weave spell c.next rest

/-- The accesses in the text `t₀ a₁ t₁ … aₖ tₖ`, each with the number of
characters before it. -/
def places (start : Nat) : List Cut → List (Nat × Access)
  | [] => []
  | c :: rest =>
      (start, c.access) :: places (start + c.access.node.spelling.length + c.next.length) rest

theorem weave_append (spell : Cut → String) (text first : String) (cs : List Cut) :
    weave spell (text ++ first) cs = text ++ weave spell first cs := by
  cases cs with
  | nil => rfl
  | cons c cs => simp only [weave, String.append_assoc]

end Cut

namespace Span

/-- The text before the first access. -/
def first : List Span → String
  | kept text :: rest => text ++ first rest
  | [] | cut .. :: _ => ""

/-- The accesses among the spans, each with the text behind it. -/
def cuts : List Span → List Cut
  | [] => []
  | kept _ :: rest => cuts rest
  | cut access module :: rest => ⟨access, module, first rest⟩ :: cuts rest

/-- Spans spell what is woven of their text and their accesses. -/
theorem join_map_eq_weave {f : Span → String} {spell : Cut → String}
    (hkept : ∀ text, f (kept text) = text)
    (hcut : ∀ access module next, f (cut access module) = spell ⟨access, module, next⟩)
    (xs : List Span) : String.join (xs.map f) = Cut.weave spell (first xs) (cuts xs) := by
  induction xs with
  | nil => rfl
  | cons x xs ih =>
      rw [List.map_cons, String.join_cons, ih]
      cases x with
      | kept text =>
          show _ = Cut.weave spell (text ++ first xs) (cuts xs)
          rw [hkept, Cut.weave_append]
      | cut access module =>
          show _ = "" ++ spell ⟨access, module, first xs⟩ ++ Cut.weave spell (first xs) (cuts xs)
          rw [hcut access module (first xs), String.empty_append]

theorem map_imported_cuts (xs : List Span) :
    (cuts xs).map Cut.imported = xs.filterMap direct? := by
  induction xs with
  | nil => rfl
  | cons x xs ih =>
      cases x with
      | kept text => exact ih
      | cut access module =>
          show _ :: (cuts xs).map Cut.imported = _ :: xs.filterMap direct?
          rw [ih]
          rfl

theorem places_cuts (xs : List Span) :
    ∀ start, Cut.places (start + (first xs).length) (cuts xs) = places start xs := by
  induction xs with
  | nil => intro start; rfl
  | cons x xs ih =>
      intro start
      cases x with
      | kept text =>
          show Cut.places (start + (text ++ first xs).length) (cuts xs)
            = places (start + text.length) xs
          rw [← ih, String.length_append, Nat.add_assoc]
      | cut access module =>
          show (start + 0, access) :: _ = (start, access) :: _
          rw [← ih]
          rfl

theorem mem_of_mem_cuts {xs : List Span} {c : Cut} (h : c ∈ cuts xs) :
    cut c.access c.module ∈ xs := by
  induction xs with
  | nil => exact absurd h List.not_mem_nil
  | cons x xs ih =>
      cases x with
      | kept text => exact List.mem_cons_of_mem _ (ih h)
      | cut access module =>
          rcases List.mem_cons.1 h with rfl | h
          · exact List.mem_cons_self
          · exact List.mem_cons_of_mem _ (ih h)

end Span

/-! ## §5. The walk of a node. -/

/-- **A walk changes the text of a node only where its accesses on handles
stand.**  Whatever the handles are, the text is `t₀ a₁ t₁ … aₖ tₖ` before the walk
and `t₀ g₁ t₁ … gₖ tₖ` after it.  The `aᵢ` are the accesses on handles inside the
node, all of them, each at its own place; `gᵢ` is the name of the direct import
of `aᵢ` from the module that its handle stands for, and these direct imports are
queued in the order of the text.  As many nested replacements as there are
accesses are enough, and `more` change nothing. -/
theorem Split.walk_local (w : WatchList) (n : Node) (s : Progress) (more : Nat) :
    ∃ n' s', (Split.visitor w).walk (n.accessCount + more) n s = some (n', s')
      ∧ ∃ (first : String) (cuts : List Cut),
        n.spelling = Cut.weave (fun c => c.access.node.spelling) first cuts
          ∧ n'.spelling = Cut.weave (fun c => c.imported.name) first cuts
          ∧ s'.queued = s.queued ++ cuts.map Cut.imported
          ∧ (∀ c ∈ cuts, c.access.objectName?.bind s.handles.module? = some c.module)
          ∧ Cut.places first.length cuts = n.handleAccesses s.handles.module? 0 := by
  have hcovers := n.covers s.handles.module?
  refine ⟨_, _, Split.walk_eq (Nat.le_add_right _ more) s,
    Span.first (n.spans s.handles.module?), Span.cuts (n.spans s.handles.module?),
    ?before, ?after, ?queued, ?resolved, ?places⟩
  case before =>
    rw [← hcovers.before]
    exact Span.join_map_eq_weave (fun _ => rfl) (fun _ _ _ => rfl) _
  case after =>
    rw [← hcovers.after]
    exact Span.join_map_eq_weave (fun _ => rfl) (fun _ _ _ => rfl) _
  case queued =>
    rw [(Progress.rewriteAll_spec n.accesses s).2, Span.map_imported_cuts, hcovers.imports]
    rfl
  case resolved =>
    intro c hc
    exact hcovers.resolved _ _ (Span.mem_of_mem_cuts hc)
  case places =>
    have hplaces := Span.places_cuts (n.spans s.handles.module?) 0
    rw [Nat.zero_add] at hplaces
    rw [hplaces, hcovers.places]

end ImportSplit
