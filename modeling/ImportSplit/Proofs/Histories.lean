/-
  ImportSplit.Proofs.Histories
  ────────────────────────────────
  **WHAT A SEQUENCE OF STEPS LEAVES BEHIND.**

  The progress of a split may be moved on from outside, by steps in any order:
  names are bound and looked up, declarations are taken apart, accesses are
  rewritten, direct imports are pushed, and the queue is flushed or everything
  is reset.  What is known afterwards is read off the steps, without a state:

      a handle     is the last one bound to its name since the last reset,
      the queue    is what was queued since the last flush or reset, where each
                   access is rewritten by the handles at its own step.

  One step is described once (`Step.run_spec`); what a whole history leaves is
  an induction on its last step.
-/
import Mathlib.Data.List.Dedup
import Mathlib.Data.List.DropRight
import ImportSplit.Proofs.Stateless

namespace ImportSplit

namespace History

/-! ## §1. Steps. -/

/-- A step that moves a progress on. -/
inductive Step where
  /-- Binds a handle. -/
  | register (h : Handle)
  /-- Looks a name up. -/
  | resolve (name : String)
  /-- Takes a watched import declaration apart. -/
  | classify (d : ImportDecl)
  /-- Rewrites an access. -/
  | rewrite (a : Access)
  /-- Puts a direct import last in the queue. -/
  | push (d : DirectImport)
  /-- Takes the queue. -/
  | flush
  /-- Starts anew. -/
  | reset

/-- What a step answers. -/
inductive Answer where
  | nothing
  | handle (h : Option Handle)
  | left (d : Option ImportDecl)
  | replaced (n : Option Node)
  | statements (ss : List Statement)

namespace Step

/-- The answer of a step and the progress after it. -/
def run (s : Progress) : Step → Answer × Progress
  | register h => (.nothing, s.bindHandle h)
  | resolve name => (.handle (s.handles.find? name), s)
  | classify d => (.left (Progress.classify d s).1, (Progress.classify d s).2)
  | rewrite a => (.replaced (Progress.rewrite a s).1, (Progress.rewrite a s).2)
  | push d => (.nothing, s.enqueue d)
  | flush => (.statements s.flush.1, s.flush.2)
  | reset => (.nothing, {})

/-- The step forgets all handles. -/
def isReset : Step → Bool
  | reset => true
  | _ => false

/-- The step empties the queue. -/
def emptiesQueue : Step → Bool
  | flush | reset => true
  | _ => false

/-- The handles that a step binds, in order. -/
def binds : Step → List Handle
  | register h => [h]
  | classify d => d.handles
  | _ => []

/-- The direct imports that a step queues where names stand for these modules. -/
def queues (scope : Scope) : Step → List DirectImport
  | classify d => d.members
  | rewrite a => (a.direct? scope).toList
  | push d => [d]
  | _ => []

/-- **What a step does.** -/
theorem run_spec (t : Step) (s : Progress) :
    (t.run s).2.handles = (if t.isReset then ∅ else t.binds.foldl Handles.bind s.handles)
      ∧ (t.run s).2.queued
        = if t.emptiesQueue then [] else s.queued ++ t.queues s.handles.module? := by
  cases t with
  | register h => exact ⟨rfl, (List.append_nil _).symm⟩
  | resolve name => exact ⟨rfl, (List.append_nil _).symm⟩
  | classify d => exact Progress.classify_spec d s
  | rewrite a => exact (Progress.rewrite_spec a s).2
  | push d => exact ⟨rfl, rfl⟩
  | flush => exact ⟨rfl, rfl⟩
  | reset => exact ⟨rfl, rfl⟩

/-- A rewrite that answers nothing changes nothing. -/
theorem run_rewrite_of_none {a : Access} {s : Progress}
    (h : ((rewrite a).run s).1 = .replaced none) : ((rewrite a).run s).2 = s := by
  have hnone : (Progress.rewrite a s).1 = none := by
    injection h
  show (Progress.rewrite a s).2 = s
  unfold Progress.rewrite at hnone ⊢
  split
  · rfl
  · next object hobject =>
      rw [hobject] at hnone
      split
      · rfl
      · next module hmodule =>
          simp only [hmodule] at hnone
          cases hnone

end Step

/-- The progress after these steps. -/
def after (steps : List Step) : Progress := steps.foldl (fun s t => (t.run s).2) {}

theorem after_concat (steps : List Step) (t : Step) :
    after (steps ++ [t]) = (t.run (after steps)).2 := by
  unfold after
  rw [List.foldl_append]
  rfl

/-! ## §2. Handles. -/

/-- The handles bound since the last reset, in order. -/
def bound (steps : List Step) : List Handle :=
  (steps.rtakeWhile fun t => !t.isReset).flatMap Step.binds

/-- The module that a name stands for after these steps: that of the last handle
bound to it since the last reset. -/
def scope (steps : List Step) : Scope := scopeOf (bound steps)

theorem bound_concat (steps : List Step) (t : Step) :
    bound (steps ++ [t]) = if t.isReset then [] else bound steps ++ t.binds := by
  unfold bound
  rw [List.rtakeWhile_concat]
  cases t.isReset with
  | true => rfl
  | false => simp

/-- The handles after a history are those bound since the last reset. -/
theorem handles_after (steps : List Step) :
    (after steps).handles = (bound steps).foldl Handles.bind ∅ := by
  induction steps using List.reverseRecOn with
  | nil => rfl
  | append_singleton steps t ih =>
      rw [after_concat, (t.run_spec _).1, bound_concat, ih]
      cases t.isReset with
      | true => rfl
      | false => exact List.foldl_append.symm

theorem module?_after (steps : List Step) : (after steps).handles.module? = scope steps := by
  funext x
  rw [handles_after, Handles.module?_foldl_bind]
  exact Option.or_none

end History

namespace Handles

/-- A handle is found by its own name. -/
theorem find?_eq_map_module? (hs : Handles) (x : String) :
    hs.find? x = (hs.module? x).map fun m => ⟨x, m⟩ := by
  unfold module?
  cases hfind : hs.find? x with
  | none => rfl
  | some h =>
      have hname : h.name = x := by
        simpa using List.find?_some hfind
      rw [← hname]
      rfl

/-- Binding handles keeps one entry for each name. -/
theorem nodup_foldl_bind (bs : List Handle) :
    ∀ hs : Handles, (hs.entries.map Handle.name).Nodup →
      ((bs.foldl bind hs).entries.map Handle.name).Nodup := by
  induction bs with
  | nil => intro hs h; exact h
  | cons b bs ih =>
      intro hs h
      apply ih
      show (b.name :: (hs.entries.filter (·.name ≠ b.name)).map Handle.name).Nodup
      rw [List.nodup_cons]
      constructor
      · simp
      · exact h.sublist (List.filter_sublist.map Handle.name)

/-- The names after binding are the old ones and the bound ones. -/
theorem mem_foldl_bind_iff (bs : List Handle) (x : String) :
    ∀ hs : Handles, x ∈ (bs.foldl bind hs).entries.map Handle.name
      ↔ x ∈ bs.map Handle.name ∨ x ∈ hs.entries.map Handle.name := by
  induction bs with
  | nil => intro hs; simp
  | cons b bs ih =>
      intro hs
      have hbind : x ∈ (hs.bind b).entries.map Handle.name
          ↔ x = b.name ∨ x ∈ hs.entries.map Handle.name := by
        show x ∈ b.name :: (hs.entries.filter (·.name ≠ b.name)).map Handle.name ↔ _
        rw [List.mem_cons]
        by_cases hx : x = b.name
        · simp [hx]
        · simp only [hx, false_or, List.mem_map, List.mem_filter, decide_eq_true_eq]
          constructor
          · rintro ⟨h, ⟨hmem, -⟩, hname⟩
            exact ⟨h, hmem, hname⟩
          · rintro ⟨h, hmem, rfl⟩
            exact ⟨h, ⟨hmem, hx⟩, rfl⟩
      rw [List.foldl_cons, ih, hbind, List.map_cons, List.mem_cons]
      tauto

/-- There are as many handles as names were bound. -/
theorem size_foldl_bind (bs : List Handle) :
    (bs.foldl bind ∅).size = (bs.map Handle.name).dedup.length := by
  have hnodup : ((bs.foldl bind ∅).entries.map Handle.name).Nodup :=
    nodup_foldl_bind bs ∅ List.nodup_nil
  have hperm : ((bs.foldl bind ∅).entries.map Handle.name).Perm (bs.map Handle.name).dedup := by
    rw [List.perm_ext_iff_of_nodup hnodup (List.nodup_dedup _)]
    intro x
    rw [mem_foldl_bind_iff, List.mem_dedup]
    exact or_iff_left List.not_mem_nil
  rw [← hperm.length_eq, List.length_map]
  rfl

end Handles

namespace History

/-! ## §3. The queue. -/

/-- The direct imports queued since the queue was last emptied, those of each
step by the handles before it. -/
def queued (steps : List Step) : List DirectImport :=
  (steps.zipIdx.rtakeWhile fun u => !u.1.emptiesQueue).flatMap
    fun u => u.1.queues (scope (steps.take u.2))

theorem queued_concat (steps : List Step) (t : Step) :
    queued (steps ++ [t])
      = if t.emptiesQueue then [] else queued steps ++ t.queues (scope steps) := by
  unfold queued
  rw [List.zipIdx_append, List.zipIdx_singleton, Nat.zero_add, List.rtakeWhile_concat]
  by_cases ht : t.emptiesQueue = true
  · rw [if_neg (by simp [ht]), if_pos ht]
    rfl
  · rw [if_pos (by simp [ht]), if_neg ht, List.flatMap_append]
    congr 1
    · -- the steps before an earlier step are the same in both histories
      apply List.flatMap_congr
      intro u hu
      have hindex : u.2 < steps.length := by
        have hmem := (List.rtakeWhile_suffix _ _).subset hu
        simpa using List.snd_lt_of_mem_zipIdx hmem
      rw [List.take_append_of_le_length (Nat.le_of_lt hindex)]
    · show t.queues (scope ((steps ++ [t]).take steps.length)) ++ [] = _
      rw [List.take_left, List.append_nil]

/-- The queue after a history. -/
theorem queued_after (steps : List Step) : (after steps).queued = queued steps := by
  induction steps using List.reverseRecOn with
  | nil => rfl
  | append_singleton steps t ih =>
      rw [after_concat, (t.run_spec _).2, queued_concat, ih, module?_after]

/-! ## §4. What a history leaves behind. -/

/-- **The progress after any steps**, and so at every point of a history.  A name
is found with the module of the last handle bound to it since the last reset, and
there are as many handles as names were bound since; the queue is what was queued
since it was last emptied, in order.  A rewrite that answers nothing and a look-up
change nothing, and a flush leaves the handles. -/
theorem after_spec (steps : List Step) :
    (∀ x, ((Step.resolve x).run (after steps)).1
        = .handle ((scope steps x).map fun module => ⟨x, module⟩))
      ∧ (after steps).handles.size = ((bound steps).map Handle.name).dedup.length
      ∧ (after steps).queued = queued steps
      ∧ (∀ a, ((Step.rewrite a).run (after steps)).1 = .replaced none →
        ((Step.rewrite a).run (after steps)).2 = after steps)
      ∧ (∀ x, ((Step.resolve x).run (after steps)).2 = after steps)
      ∧ (Step.flush.run (after steps)).2.handles = (after steps).handles := by
  refine ⟨fun x => ?_, ?_, queued_after steps, fun a => Step.run_rewrite_of_none, fun _ => rfl, rfl⟩
  · show Answer.handle ((after steps).handles.find? x) = _
    rw [Handles.find?_eq_map_module?, module?_after]
  · rw [handles_after, Handles.size_foldl_bind]

/-- A flush empties the queue and keeps the handle. -/
example : (after [.register ⟨"_", "lodash"⟩, .rewrite ⟨.identifier "_", ".", "map"⟩, .flush,
    .rewrite ⟨.identifier "_", ".", "get"⟩]).queued = [⟨"lodash_get", "lodash/get"⟩] := by
  decide +kernel

end History

end ImportSplit
