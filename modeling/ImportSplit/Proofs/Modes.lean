/-
  ImportSplit.Proofs.Modes
  ────────────────────────────────
  **PRINTING, WRITING AND CHECKING AGREE.**

  A request to rewrite files prints them, writes them back or checks them.  The
  three runs are compared by one tree, the one that is left when the files are
  written back:

      write    leaves it: a file that is rewritten holds its output there, and
                 every other location is as it was,
      check    prints the paths that read differently there,
      print    prints the text that a single file has there.

  No file depends on another one: what a path is rewritten to is read from the
  tree before the run, and a file that fails is one that nothing is written to.

    • `read?_written` — a rewritten file holds its output afterwards,
    • `item?_written` — what is not rewritten is as it was,
    • `differs_iff` — a file reads differently if it is rewritten to something
      else,
    • `mem_texts_runProgram` — a run writes nothing but what files are rewritten to,
    • `runProgram_agrees` — the three modes agree on all arguments.
-/
import ImportSplit.CommandLine
import ImportSplit.Proofs.FileTrees
import ImportSplit.Proofs.Requests

namespace ImportSplit.CommandLine

open Files

variable {w : WatchList} {t : FileTree} {paths : List String} {path : String} {r : Rewriting}

/-! ## §1. What is written. -/

/-- The files of these paths that are rewritten to something else. -/
def changes (w : WatchList) (t : FileTree) (paths : List String) : List Rewriting :=
  (rewritings (paths.map (t.rewriting w))).filter Rewriting.isChange

/-- The tree with these files written back. -/
def written (w : WatchList) (t : FileTree) (paths : List String) : FileTree :=
  t.writeAll (changes w t paths)

theorem isChange_iff : r.isChange = true ↔ r.output ≠ r.original := by
  unfold Rewriting.isChange
  rw [bne_iff_ne, ne_comm]

theorem mem_rewritings_iff :
    r ∈ rewritings (paths.map (t.rewriting w)) ↔ ∃ p ∈ paths, t.rewriting w p = .ok r := by
  unfold rewritings
  rw [List.mem_filterMap]
  constructor
  · rintro ⟨result, hresult, hr⟩
    obtain ⟨p, hp, rfl⟩ := List.mem_map.1 hresult
    refine ⟨p, hp, ?_⟩
    split at hr
    · next hrewriting =>
        cases hr
        exact hrewriting
    · cases hr
  · rintro ⟨p, hp, hr⟩
    exact ⟨.ok r, List.mem_map.2 ⟨p, hp, hr⟩, rfl⟩

theorem mem_faults_iff {fault : FileFault} :
    fault ∈ faults (paths.map (t.rewriting w)) ↔ ∃ p ∈ paths, t.rewriting w p = .error fault := by
  unfold faults
  rw [List.mem_filterMap]
  constructor
  · rintro ⟨result, hresult, hfault⟩
    obtain ⟨p, hp, rfl⟩ := List.mem_map.1 hresult
    refine ⟨p, hp, ?_⟩
    split at hfault
    · cases hfault
    · next hrewriting =>
        cases hfault
        exact hrewriting
  · rintro ⟨p, hp, hfault⟩
    exact ⟨.error fault, List.mem_map.2 ⟨p, hp, hfault⟩, rfl⟩

theorem mem_changes_iff :
    r ∈ changes w t paths ↔ (∃ p ∈ paths, t.rewriting w p = .ok r) ∧ r.isChange = true := by
  unfold changes
  rw [List.mem_filter, mem_rewritings_iff]

/-- A change is what its own path is rewritten to. -/
theorem rewriting_of_mem_changes (h : r ∈ changes w t paths) : t.rewriting w r.path = .ok r := by
  obtain ⟨⟨p, -, hr⟩, -⟩ := mem_changes_iff.1 h
  rw [FileTree.path_of_rewriting hr]
  exact hr

theorem isFile_of_mem_changes : ∀ r ∈ changes w t paths, t.isFile r.path = true := by
  intro r hr
  have hread := FileTree.read?_of_rewriting (rewriting_of_mem_changes hr)
  obtain ⟨names, hlocate, hfile⟩ := FileTree.read?_eq_some_iff.1 hread
  exact FileTree.isFile_iff.2 ⟨names, hlocate, FileTree.kind?_eq_some_false_iff.2 ⟨_, hfile⟩⟩

/-- A change at the location of a path is what this path is rewritten to. -/
theorem rewriting_of_mem_changes_of_locate? (hr : r ∈ changes w t paths)
    (hlocate : t.locate? r.path = t.locate? path) :
    t.rewriting w path = .ok { r with path } :=
  FileTree.rewriting_of_locate?_eq (rewriting_of_mem_changes hr) hlocate.symm

/-- A location that no change stands at is as it was. -/
theorem item?_written {names : List String}
    (h : ∀ p ∈ paths, ∀ r, t.rewriting w p = .ok r → r.isChange = true →
      t.locate? p ≠ some names) :
    (written w t paths).item? names = t.item? names := by
  apply FileTree.item?_writeAll_of_forall_ne isFile_of_mem_changes
  intro r hr
  obtain ⟨⟨p, hp, hrewriting⟩, hchange⟩ := mem_changes_iff.1 hr
  rw [FileTree.path_of_rewriting hrewriting]
  exact h p hp r hrewriting hchange

/-- A file that fails is as it was, whatever other files are written. -/
theorem item?_written_of_error {fault : FileFault} {names : List String}
    (hfault : t.rewriting w path = .error fault) (hlocate : t.locate? path = some names) :
    (written w t paths).item? names = t.item? names := by
  apply FileTree.item?_writeAll_of_forall_ne isFile_of_mem_changes
  intro r hr hsame
  have hok := rewriting_of_mem_changes_of_locate? hr (hsame.trans hlocate.symm)
  rw [hfault] at hok
  cases hok

theorem sameShape_written : FileTree.SameShape t (written w t paths) :=
  FileTree.sameShape_writeAll isFile_of_mem_changes

/-- **A file that is rewritten holds its output afterwards.** -/
theorem read?_written (hpath : path ∈ paths) (hr : t.rewriting w path = .ok r) :
    (written w t paths).read? path = some r.output := by
  obtain ⟨names, hlocate, hfile⟩ := FileTree.read?_eq_some_iff.1 (FileTree.read?_of_rewriting hr)
  apply FileTree.read?_eq_some_iff.2
  refine ⟨names, by rw [← sameShape_written.locate?, hlocate], ?_⟩
  by_cases hchange : r.isChange = true
  · have hmem : r ∈ changes w t paths := mem_changes_iff.2 ⟨⟨path, hpath, hr⟩, hchange⟩
    have hrpath : t.locate? r.path = some names := by
      rw [FileTree.path_of_rewriting hr, hlocate]
    apply FileTree.item?_writeAll isFile_of_mem_changes _ r hmem hrpath
    -- two changes at one location have one output
    intro a ha b hb hsame
    have hb' := rewriting_of_mem_changes_of_locate? ha hsame
    rw [rewriting_of_mem_changes hb] at hb'
    injection hb' with hb'
    rw [hb']
  · have hsame : r.output = r.original :=
      Classical.not_not.1 fun hne => hchange (isChange_iff.2 hne)
    rw [hsame, ← hfile]
    apply FileTree.item?_writeAll_of_forall_ne isFile_of_mem_changes
    intro r' hr' hlocate'
    have hr'' := rewriting_of_mem_changes_of_locate? hr' (hlocate'.trans hlocate.symm)
    rw [hr] at hr''
    injection hr'' with hr''
    rw [hr''] at hchange
    exact hchange (mem_changes_iff.1 hr').2

/-- A file reads differently afterwards if it is rewritten to something else. -/
theorem differs_iff (hpath : path ∈ paths) :
    (written w t paths).read? path ≠ t.read? path
      ↔ ∃ r, t.rewriting w path = .ok r ∧ r.isChange = true := by
  cases hrewriting : t.rewriting w path with
  | error fault =>
      have hsame : t.read? path = (written w t paths).read? path :=
        FileTree.read?_congr sameShape_written fun names hlocate =>
          (item?_written_of_error hrewriting hlocate).symm
      simp [hsame]
  | ok r =>
      rw [read?_written hpath hrewriting, FileTree.read?_of_rewriting hrewriting]
      simp [isChange_iff]

/-! ## §2. What is printed. -/

/-- Checking prints the paths that read differently afterwards, in order. -/
theorem join_printed_check {headed : Bool} {differs : String → Prop} [DecidablePred differs]
    (h : ∀ p ∈ paths, differs p ↔ ∃ r, t.rewriting w p = .ok r ∧ r.isChange = true) :
    String.join ((rewritings (paths.map (t.rewriting w))).map (printed .check headed))
      = String.join ((paths.filter fun p => differs p).map fun p => p ++ "\n") := by
  induction paths with
  | nil => rfl
  | cons p paths ih =>
      have hrest := ih fun q hq => h q (List.mem_cons_of_mem _ hq)
      have hp := h p List.mem_cons_self
      rw [List.map_cons]
      cases hrewriting : t.rewriting w p with
      | error fault =>
          have hnot : ¬ differs p := by
            rw [hp, hrewriting]
            simp
          rw [List.filter_cons_of_neg (by simpa using hnot)]
          exact hrest
      | ok r =>
          have hpath : r.path = p := FileTree.path_of_rewriting hrewriting
          show String.join (printed .check headed r
            :: (rewritings (paths.map (t.rewriting w))).map (printed .check headed)) = _
          rw [String.join_cons, hrest]
          by_cases hchange : r.isChange = true
          · have hdiffers : differs p := hp.2 ⟨r, hrewriting, hchange⟩
            have hprinted : printed .check headed r = p ++ "\n" := by
              unfold printed
              dsimp only
              rw [if_pos hchange, hpath]
              rfl
            rw [List.filter_cons_of_pos (by simpa using hdiffers), List.map_cons,
              String.join_cons, hprinted]
          · have hnot : ¬ differs p := by
              rw [hp, hrewriting]
              rintro ⟨r', hr', hchange'⟩
              cases hr'
              exact hchange hchange'
            have hprinted : printed .check headed r = "" := by
              unfold printed
              dsimp only
              rw [if_neg hchange]
            rw [List.filter_cons_of_neg (by simpa using hnot), hprinted, String.empty_append]

/-! ## §3. What a run depends on. -/

/-- The modules that a request watches: none if its settings cannot be read, or
if they watch nothing. -/
def Transform.watchList? (request : Transform) (t : FileTree) : Option WatchList :=
  match settingsFor request t with
  | .error _ => none
  | .ok settings => settings.watchList?

variable {request : Transform}

theorem watchList?_eq_none_iff :
    request.watchList? t = none ↔ (∃ fault, settingsFor request t = .error fault)
      ∨ ∃ settings, settingsFor request t = .ok settings ∧ settings.watchList? = none := by
  unfold Transform.watchList?
  cases settingsFor request t with
  | error fault => simp
  | ok settings => simp

theorem runTransform_of_none (h : request.watchList? t = none) :
    (runTransform request t).code = 1 ∧ (runTransform request t).output = ""
      ∧ (runTransform request t).tree = t := by
  unfold Transform.watchList? at h
  unfold runTransform
  cases hsettings : settingsFor request t with
  | error fault => exact ⟨rfl, rfl, rfl⟩
  | ok settings =>
      rw [hsettings] at h
      dsimp only at h ⊢
      rw [h]
      exact ⟨rfl, rfl, rfl⟩

theorem runTransform_of_some (h : request.watchList? t = some w) :
    runTransform request t = rewriteAll w request.mode request.paths t := by
  unfold Transform.watchList? at h
  unfold runTransform
  cases hsettings : settingsFor request t with
  | error fault =>
      rw [hsettings] at h
      cases h
  | ok settings =>
      rw [hsettings] at h
      dsimp only at h ⊢
      rw [h]

theorem runProgram_of_ofArguments {arguments : List String} (t : FileTree)
    (h : Request.ofArguments arguments = .transform request) :
    runProgram arguments t = runTransform request t := by
  unfold runProgram
  rw [h]
  rfl

/-- Writing back leaves the tree with the changes written, or as it is if nothing
is watched. -/
theorem tree_runTransform_writing (request : Transform) (t : FileTree) :
    (runTransform request.writing t).tree
      = (request.watchList? t).elim t fun w => written w t (t.collect request.paths) := by
  have hsame : request.writing.watchList? t = request.watchList? t := rfl
  cases hwatch : request.watchList? t with
  | none => exact (runTransform_of_none (hsame.trans hwatch)).2.2
  | some w =>
      rw [runTransform_of_some (hsame.trans hwatch)]
      rfl

/-! ## §4. Exit codes. -/

/-- A run over files fails if one of them does, or if it checks and one would
change. -/
theorem code_rewriteAll (w : WatchList) (mode : Mode) (roots : List String) (t : FileTree) :
    ((rewriteAll w mode roots t).code = 1
      ↔ (∃ p ∈ t.collect roots, ∃ fault, t.rewriting w p = .error fault)
        ∨ mode = .check ∧ ∃ p ∈ t.collect roots,
          (written w t (t.collect roots)).read? p ≠ t.read? p)
      ∧ ((rewriteAll w mode roots t).code = 0 ↔ (rewriteAll w mode roots t).code ≠ 1) := by
  have hfailed : (!(faults ((t.collect roots).map (t.rewriting w))).isEmpty) = true
      ↔ ∃ p ∈ t.collect roots, ∃ fault, t.rewriting w p = .error fault := by
    rw [Bool.not_eq_true', List.isEmpty_eq_false_iff_exists_mem]
    constructor
    · rintro ⟨fault, hfault⟩
      obtain ⟨p, hp, h⟩ := mem_faults_iff.1 hfault
      exact ⟨p, hp, fault, h⟩
    · rintro ⟨p, hp, fault, h⟩
      exact ⟨fault, mem_faults_iff.2 ⟨p, hp, h⟩⟩
  have hfound : (rewritings ((t.collect roots).map (t.rewriting w))).any Rewriting.isChange = true
      ↔ ∃ p ∈ t.collect roots, (written w t (t.collect roots)).read? p ≠ t.read? p := by
    rw [List.any_eq_true]
    constructor
    · rintro ⟨r, hr, hchange⟩
      obtain ⟨p, hp, h⟩ := mem_rewritings_iff.1 hr
      exact ⟨p, hp, (differs_iff hp).2 ⟨r, h, hchange⟩⟩
    · rintro ⟨p, hp, hdiffers⟩
      obtain ⟨r, h, hchange⟩ := (differs_iff hp).1 hdiffers
      exact ⟨r, mem_rewritings_iff.2 ⟨p, hp, h⟩, hchange⟩
  rw [← hfailed, ← hfound, ← beq_iff_eq (a := mode), ← Bool.and_eq_true, ← Bool.or_eq_true]
  unfold rewriteAll
  dsimp only
  split
  · next h => simp [h]
  · next h => simp [h]

/-! ## §5. The modes agree. -/

/-- **What a request does in its mode**, told by the tree `left` that is left if
it writes its files back. -/
structure Agrees (request : Transform) (t left : FileTree) (e : Ending) : Prop where
  /-- No file changes unless they are written back. -/
  kept : request.write = false → e.tree = t
  wrote : request.write = true → e.tree = left
  /-- Nothing is written where nothing is watched. -/
  unwatched : request.watchList? t = none → left = t
  /-- Every collected file that is rewritten ends up holding its output, wherever
  it stands among files that fail. -/
  holds : ∀ w, request.watchList? t = some w → ∀ p ∈ t.collect request.paths,
    ∀ r, t.rewriting w p = .ok r → left.read? p = some r.output
  /-- Where no collected file is rewritten to something else, everything is as it
  was. -/
  others : ∀ w, request.watchList? t = some w → ∀ names,
    (∀ p ∈ t.collect request.paths, ∀ r, t.rewriting w p = .ok r → r.isChange = true →
      t.locate? p ≠ some names) → left.item? names = t.item? names
  /-- So is a file that fails. -/
  failed : ∀ w, request.watchList? t = some w → ∀ p fault, t.rewriting w p = .error fault →
    ∀ names, t.locate? p = some names → left.item? names = t.item? names
  /-- Checking prints the paths that read differently in `left`, in order. -/
  checked : request.check = true →
    e.output = String.join
      (((t.collect request.paths).filter fun p => left.read? p ≠ t.read? p).map fun p => p ++ "\n")
  /-- Printing a single file prints the text that it has in `left`, and a line
  end if there is none. -/
  printed : request.write = false → request.check = false →
    ∀ w, request.watchList? t = some w → ∀ p r, t.collect request.paths = [p] →
      t.rewriting w p = .ok r → ∃ text, left.read? p = some text
        ∧ e.output = if text.toList.getLast? = some '\n' then text else text ++ "\n"
  /-- The run fails if the settings cannot be read or watch nothing, if a collected
  file fails, or if it checks and one would change. -/
  failure : e.code = 1 ↔
    (∃ fault, settingsFor request t = .error fault)
      ∨ (∃ settings, settingsFor request t = .ok settings ∧ settings.watchList? = none)
      ∨ (∃ w, request.watchList? t = some w
        ∧ ∃ p ∈ t.collect request.paths, ∃ fault, t.rewriting w p = .error fault)
      ∨ request.check = true ∧ ∃ p ∈ t.collect request.paths, left.read? p ≠ t.read? p
  success : e.code = 0 ↔ e.code ≠ 1

/-- A request that watches nothing. -/
theorem agrees_of_none (h : request.watchList? t = none) :
    Agrees request t t (runTransform request t) := by
  obtain ⟨hcode, houtput, htree⟩ := runTransform_of_none h
  have hnone : ∀ w, request.watchList? t ≠ some w := by
    intro w hw
    rw [h] at hw
    cases hw
  exact {
    kept := fun _ => htree
    wrote := fun _ => htree
    unwatched := fun _ => rfl
    holds := fun w hw => absurd hw (hnone w)
    others := fun w hw => absurd hw (hnone w)
    failed := fun w hw => absurd hw (hnone w)
    checked := by
      intro _
      have hsame : ((t.collect request.paths).filter fun p => t.read? p ≠ t.read? p) = [] :=
        List.filter_eq_nil_iff.2 (by simp)
      rw [houtput, hsame]
      rfl
    printed := fun _ _ w hw => absurd hw (hnone w)
    failure := by
      rw [← or_assoc, ← watchList?_eq_none_iff]
      exact iff_of_true hcode (.inl h)
    success := by
      rw [hcode]
      decide }

theorem mode_eq_check_iff : request.mode = .check ↔ request.check = true := by
  unfold Transform.mode
  cases request.check <;> cases request.write <;> simp

/-- Only a request that writes its files back leaves another tree. -/
theorem tree_rewriteAll_of_not_write (hwrite : request.write = false) (w : WatchList)
    (roots : List String) (t : FileTree) : (rewriteAll w request.mode roots t).tree = t := by
  have hmode : (request.mode == .write) = false := by
    unfold Transform.mode
    rw [hwrite]
    cases request.check <;> rfl
  unfold rewriteAll
  dsimp only
  rw [hmode]
  rfl

/-- A single file is printed without its path. -/
theorem output_rewriteAll_single {roots : List String} (hroots : t.collect roots = [path])
    (hr : t.rewriting w path = .ok r) :
    (rewriteAll w .print roots t).output = withLineEnd r.output := by
  show String.join ((rewritings ((t.collect roots).map (t.rewriting w))).map
    (printed .print ((t.collect roots).length > 1))) = withLineEnd r.output
  rw [hroots, List.map_singleton, hr]
  show String.join ["" ++ withLineEnd r.output] = withLineEnd r.output
  rw [String.join_cons, String.join_nil, String.empty_append, String.append_empty]

/-- A request that watches modules. -/
theorem agrees_of_some (hrequest : request.IsWritable) (h : request.watchList? t = some w) :
    Agrees request t (written w t (t.collect request.paths)) (runTransform request t) := by
  have hrun : runTransform request t = rewriteAll w request.mode request.paths t :=
    runTransform_of_some h
  obtain ⟨hfailure, hsuccess⟩ := code_rewriteAll w request.mode request.paths t
  have hw : ∀ w', request.watchList? t = some w' → w' = w := by
    intro w' hw'
    exact Option.some.inj (hw'.symm.trans h)
  exact {
    kept := by
      intro hwrite
      rw [hrun]
      exact tree_rewriteAll_of_not_write hwrite w request.paths t
    wrote := by
      intro hwrite
      rw [← hrequest.writing_eq hwrite, tree_runTransform_writing, h]
      rfl
    unwatched := by
      intro hnone
      rw [h] at hnone
      cases hnone
    holds := by
      intro w' hw' p hp r hr
      rw [hw w' hw'] at hr
      exact read?_written hp hr
    others := by
      intro w' hw' names hnames
      rw [hw w' hw'] at hnames
      exact item?_written hnames
    failed := by
      intro w' hw' p fault hfault names hlocate
      rw [hw w' hw'] at hfault
      exact item?_written_of_error hfault hlocate
    checked := by
      intro hcheck
      rw [hrun, mode_eq_check_iff.2 hcheck]
      exact join_printed_check fun p hp => differs_iff hp
    printed := by
      intro hwrite hcheck w' hw' p r hp hr
      rw [hw w' hw'] at hr
      have hmode : request.mode = .print := by
        unfold Transform.mode
        rw [hwrite, hcheck]
        rfl
      have hmem : p ∈ t.collect request.paths := by
        rw [hp]
        exact List.mem_singleton_self p
      refine ⟨r.output, read?_written hmem hr, ?_⟩
      rw [hrun, hmode]
      exact output_rewriteAll_single hp hr
    failure := by
      rw [hrun, hfailure, mode_eq_check_iff, ← or_assoc, ← watchList?_eq_none_iff, h]
      simp
    success := by
      rw [hrun]
      exact hsuccess }

/-- **A run puts no text into the tree but what a file of it is rewritten to**,
whatever its arguments are. -/
theorem mem_texts_runProgram {arguments : List String} {file : String × String}
    (hfile : file ∈ (runProgram arguments t).tree.root.texts "") :
    file ∈ t.root.texts "" ∨ ∃ w path r, t.rewriting w path = .ok r ∧ file.2 = r.output := by
  unfold runProgram at hfile
  cases hrequest : Request.ofArguments arguments with
  | transform request =>
      rw [hrequest] at hfile
      change file ∈ (runTransform request t).tree.root.texts "" at hfile
      cases hwatch : request.watchList? t with
      | none =>
          rw [(runTransform_of_none hwatch).2.2] at hfile
          exact .inl hfile
      | some w =>
          rw [runTransform_of_some hwatch] at hfile
          unfold rewriteAll at hfile
          dsimp only at hfile
          split at hfile
          · refine (FileTree.mem_texts_writeAll hfile).imp_right ?_
            rintro ⟨r, hr, htext⟩
            exact ⟨w, r.path, r, rewriting_of_mem_changes hr, htext⟩
          · exact .inl hfile
  | nothing | version | shortVersion | help | misused =>
      rw [hrequest] at hfile
      exact .inl hfile

/-- **The modes agree on all arguments**, compared with the same request that
writes its files back; there are arguments that make it. -/
theorem runProgram_agrees (arguments : List String) (t : FileTree) (request : Transform)
    (h : Request.ofArguments arguments = .transform request) :
    (∃ writing, Request.ofArguments writing = .transform request.writing)
      ∧ ∀ writing, Request.ofArguments writing = .transform request.writing →
        Agrees request t (runProgram writing t).tree (runProgram arguments t) := by
  have hrequest : request.IsWritable := isWritable_of_ofArguments h
  constructor
  · exact Transform.exists_ofArguments_iff.2 hrequest.writing
  · intro writing hwriting
    rw [runProgram_of_ofArguments t h, runProgram_of_ofArguments t hwriting,
      tree_runTransform_writing]
    cases hwatch : request.watchList? t with
    | none => exact agrees_of_none hwatch
    | some w => exact agrees_of_some hrequest hwatch

/-- A file that is rewritten, between one that is no module and two that cannot
be read. -/
def mixedTree : FileTree where
  root := .directory
    (.cons "a.js" (.file (.text "import \x7b from;"))
    (.cons "b.js" (.file (.text "import \x7bget\x7d from 'lodash';\n"))
    (.cons "c.css" (.file (.text "body"))
    (.cons "d.js" (.file (.binary [0xFF])) .nil))))

theorem runProgram_agrees_mixedTree :
    Request.ofArguments ["transform", "--check", ".", "c.css"]
        = .transform { paths := [".", "c.css"], check := true }
      ∧ Request.ofArguments ["transform", ".", "c.css", "--write"]
        = .transform { paths := [".", "c.css"], write := true }
      ∧ Agrees { paths := [".", "c.css"], check := true } mixedTree
        (runProgram ["transform", ".", "c.css", "--write"] mixedTree).tree
        (runProgram ["transform", "--check", ".", "c.css"] mixedTree) :=
  ⟨by rfl, by rfl, (runProgram_agrees _ mixedTree _ (by rfl)).2 _ (by rfl)⟩

end ImportSplit.CommandLine
