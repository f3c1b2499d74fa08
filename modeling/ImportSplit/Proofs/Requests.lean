/-
  ImportSplit.Proofs.Requests
  ────────────────────────────────
  **WHICH REQUESTS A COMMAND LINE CAN MAKE.**

  A request to rewrite files is writable if it names a path, does not ask for
  writing and checking at once, and neither a path nor the settings file is the
  empty text.  These are exactly the requests that some arguments ask for:

    • `isWritable_of_ofArguments` — arguments ask for nothing else,
    • `ofArguments_arguments` — and `Transform.arguments` ask for each of them.

  So a request may be asked for again with another mode; `writing` is the
  request that writes the files back.
-/
import ImportSplit.CommandLine.Arguments

namespace ImportSplit.CommandLine

/-! ## §1. Reading ends well. -/

/-- Reading goes on with something of this property, or ends without a request
to rewrite files. -/
def Reads {α : Type} (P : α → Prop) : Except Request α → Prop
  | .ok a => P a
  | .error r => ∀ t, r ≠ .transform t

theorem Reads.of_ok {α : Type} {P : α → Prop} {read : Except Request α} {a : α}
    (h : Reads P read) (hread : read = .ok a) : P a := by
  subst hread
  exact h

theorem Reads.of_error {α : Type} {P : α → Prop} {read : Except Request α} {r : Request}
    (h : Reads P read) (hread : read = .error r) (t : Transform) : r ≠ .transform t := by
  subst hread
  exact h t

namespace Transform

/-- Neither a path nor the settings file is the empty text. -/
structure IsNamed (t : Transform) : Prop where
  paths : ∀ path ∈ t.paths, path.isEmpty = false
  settings : ∀ path ∈ t.settings, path.isEmpty = false

theorem isNamed_empty : IsNamed {} where
  paths := by simp
  settings := by simp

variable {t : Transform}

theorem addWatch_reads (ht : t.IsNamed) (module : String) : Reads IsNamed (t.addWatch module) :=
  ⟨ht.paths, ht.settings⟩

theorem setSettings_reads (ht : t.IsNamed) (path : String) :
    Reads IsNamed (t.setSettings path) := by
  unfold setSettings
  split
  · intro t'
    simp
  · next hpath =>
      refine ⟨ht.paths, ?_⟩
      simp_all

theorem addPath_reads (ht : t.IsNamed) (path : String) : Reads IsNamed (t.addPath path) := by
  unfold addPath
  split
  · intro t'
    simp
  · next hpath =>
      refine ⟨?_, ht.settings⟩
      intro p hp
      rcases List.mem_append.1 hp with hold | hnew
      · exact ht.paths p hold
      · rw [List.mem_singleton.1 hnew]
        simpa using hpath

theorem turnOn_reads (ht : t.IsNamed) (name : String) : Reads IsNamed (t.turnOn name) := by
  have hmisused : Reads IsNamed (.error .misused) := by
    intro t'
    simp
  unfold turnOn
  split
  · split
    · exact hmisused
    · exact ⟨ht.paths, ht.settings⟩
  · split
    · split
      · exact hmisused
      · exact ⟨ht.paths, ht.settings⟩
    · split
      · split
        · exact hmisused
        · exact ⟨ht.paths, ht.settings⟩
      · split
        · intro t'
          simp
        · exact hmisused

/-- The words that follow are handed on with what was read. -/
theorem map_reads {step : Step} (h : Reads IsNamed step) (words : List String) :
    Reads (fun read => read.1.IsNamed) (step.map (·, words)) := by
  cases step with
  | ok t => exact h
  | error r => exact h

/-- The two options with a value, which stands in their own word or in the next
one. -/
theorem set_reads (ht : t.IsNamed) (isWatch : Bool) (value : Option String) (words : List String) :
    Reads (fun read => read.1.IsNamed) (
      let set := if isWatch then t.addWatch else t.setSettings
      match value with
      | some value => (set value).map (·, words)
      | none =>
          match valueIn words with
          | some (value, words) => (set value).map (·, words)
          | none => .error .misused) := by
  have hset : ∀ value, Reads IsNamed ((if isWatch then t.addWatch else t.setSettings) value) := by
    intro value
    cases isWatch with
    | true => exact addWatch_reads ht value
    | false => exact setSettings_reads ht value
  dsimp only
  split
  · exact map_reads (hset _) words
  · split
    · exact map_reads (hset _) _
    · intro t'
      simp

theorem readLetters_reads (letters : List Char) :
    ∀ (t : Transform) (words : List String), t.IsNamed →
      Reads (fun read => read.1.IsNamed) (t.readLetters letters words) := by
  induction letters with
  | nil => intro t words ht; exact ht
  | cons c letters ih =>
      intro t words ht
      unfold readLetters
      split
      · exact set_reads ht _ _ words
      · split
        · split
          · next hon => exact ih _ words ((turnOn_reads ht "verbose").of_ok hon)
          · next hon => exact (turnOn_reads ht "verbose").of_error hon
        · split
          · intro t'
            simp
          · intro t'
            simp

theorem readWord_reads (ht : t.IsNamed) (word : Word) (words : List String) :
    Reads (fun read => read.1.IsNamed) (t.readWord word words) := by
  cases word with
  | plain text => exact map_reads (addPath_reads ht text) words
  | short letters => exact readLetters_reads letters t words ht
  | endOfOptions => exact ht
  | long name value =>
      show Reads _ (if _ then _ else _)
      split
      · exact set_reads ht _ value words
      · split
        · intro t'
          simp
        · exact map_reads (turnOn_reads ht name) words

theorem readPaths_reads (paths : List String) :
    ∀ t : Transform, t.IsNamed → Reads IsNamed (t.readPaths paths) := by
  induction paths with
  | nil => intro t ht; exact ht
  | cons path paths ih =>
      intro t ht
      unfold readPaths
      split
      · next hadd => exact ih _ ((addPath_reads ht path).of_ok hadd)
      · next hadd => exact (addPath_reads ht path).of_error hadd

theorem readWords_reads (budget : List String) :
    ∀ (t : Transform) (words : List String), t.IsNamed →
      Reads IsNamed (readWords budget t words) := by
  induction budget with
  | nil => intro t words ht; exact ht
  | cons b budget ih =>
      intro t words ht
      cases words with
      | nil => exact ht
      | cons text words =>
          unfold readWords
          split
          · exact readPaths_reads words t ht
          · have hreads := readWord_reads ht (Word.ofText text) words
            split
            · next hword => exact ih _ _ (hreads.of_ok hword)
            · next hword => exact hreads.of_error hword

/-- The request names what it names, is complete and does not contradict
itself. -/
structure IsWritable (t : Transform) : Prop extends t.IsNamed where
  isComplete : t.isComplete = true

theorem isWritable_of_ofWords {words : List String} (h : ofWords words = .transform t) :
    t.IsWritable := by
  have hreads : Reads IsNamed (readWords words {} words) :=
    readWords_reads words {} words isNamed_empty
  unfold ofWords at h
  split at h
  · next hread => exact absurd h (hreads.of_error hread t)
  · next hread =>
      split at h
      · next hcomplete =>
          cases h
          exact ⟨hreads.of_ok hread, hcomplete⟩
      · cases h

end Transform

/-! ## §2. What arguments ask for. -/

theorem readVersion_ne (words : List String) :
    ∀ (verbose : Bool) (t : Transform), readVersion verbose words ≠ .transform t := by
  induction words with
  | nil => intro verbose t; exact Request.noConfusion
  | cons text words ih =>
      intro verbose t
      unfold readVersion
      dsimp only
      split
      · exact Request.noConfusion
      · split
        · exact ih true t
        · exact Request.noConfusion

theorem readLetters_reads (letters : List Char) :
    ∀ verbose, Reads (fun _ => True) (readLetters verbose letters) := by
  induction letters with
  | nil => intro verbose; trivial
  | cons c letters ih =>
      intro verbose
      unfold readLetters
      split
      · exact ih true
      · split
        · intro t
          simp
        · split <;> intro t <;> simp

theorem isWritable_of_readCommand {t : Transform} (arguments : List String) :
    ∀ verbose, readCommand verbose arguments = .transform t → t.IsWritable := by
  induction arguments with
  | nil => intro verbose h; cases h
  | cons text rest ih =>
      intro verbose h
      unfold readCommand at h
      split at h
      · split at h
        · exact Transform.isWritable_of_ofWords h
        · split at h
          · exact absurd h (readVersion_ne rest false t)
          · split at h <;> cases h
      · next letters _ =>
          split at h
          · exact ih _ h
          · next hread => exact absurd h ((readLetters_reads letters verbose).of_error hread t)
      · split at h
        · cases h
        · exact ih _ h
      · cases h
      · cases h
      · cases h
      · split at h <;> cases h

/-- Arguments ask only for writable requests. -/
theorem isWritable_of_ofArguments {arguments : List String} {t : Transform}
    (h : Request.ofArguments arguments = .transform t) : t.IsWritable :=
  isWritable_of_readCommand arguments false h

/-! ## §3. Arguments for a request. -/

namespace Word

/-- An option with its value in the same word. -/
def withValue (name value : String) : String := "--" ++ name ++ "=" ++ value

theorem ofText_withValue {name : String} (value : String) (hname : '=' ∉ name.toList) :
    ofText (withValue name value) = .long name (some value) := by
  have htext : (withValue name value).toList
      = '-' :: '-' :: (name.toList ++ '=' :: value.toList) := by
    simp [withValue]
  have hnot : ∀ c ∈ name.toList, decide (c ≠ '=') = true := by
    intro c hc
    rw [decide_eq_true_eq]
    rintro rfl
    exact hname hc
  unfold ofText
  rw [htext]
  split
  · next h => simp at h
  · next rest _ h =>
      obtain rfl : name.toList ++ '=' :: value.toList = rest := by
        simpa using h
      rw [List.takeWhile_append_of_pos hnot, List.dropWhile_append_of_pos hnot]
      simp
  · next h => simp at h
  · next hlong _ h => exact absurd (List.cons.inj h).2.symm (hlong _)
  · next hnodash => exact (hnodash _ rfl).elim

end Word

namespace Transform

variable {t : Transform}

/-- The words in front of the paths. -/
def options (t : Transform) : List String :=
  (if t.write then ["--write"] else []) ++ (if t.check then ["--check"] else [])
    ++ (if t.verbose then ["--verbose"] else []) ++ t.watch.map (Word.withValue "watch")
    ++ t.settings.toList.map (Word.withValue "config")

/-- Arguments that ask for a request. -/
def arguments (t : Transform) : List String := "transform" :: (t.options ++ "--" :: t.paths)

/-- Reading the words makes the second request of the first one, whatever words
follow. -/
def Takes (t : Transform) (words : List String) (t' : Transform) : Prop :=
  ∀ more, readWords (words ++ more) t (words ++ more) = readWords more t' more

theorem Takes.nil (t : Transform) : Takes t [] t := fun _ => rfl

theorem Takes.append {u v : Transform} {words more : List String} (h : Takes t words u)
    (h' : Takes u more v) : Takes t (words ++ more) v := by
  intro rest
  rw [List.append_assoc, h, h']

/-- A long option that takes no other word. -/
theorem takes_long {t' : Transform} {text name : String} {value : Option String}
    (hword : Word.ofText text = .long name value)
    (hread : ∀ words, t.readWord (.long name value) words = .ok (t', words)) :
    Takes t [text] t' := by
  intro more
  show readWords (text :: more) t (text :: more) = readWords more t' more
  rw [readWords, hword]
  dsimp only
  rw [hread]

/-- Modules to watch are added in order. -/
theorem takes_watch (modules : List String) :
    ∀ t : Transform, Takes t (modules.map (Word.withValue "watch"))
      { t with watch := t.watch ++ modules } := by
  induction modules with
  | nil =>
      intro t
      rw [List.append_nil]
      exact Takes.nil t
  | cons m modules ih =>
      intro t
      have hone : Takes t [Word.withValue "watch" m] { t with watch := t.watch ++ [m] } :=
        takes_long (Word.ofText_withValue m (by decide)) fun _ => rfl
      have hrest := hone.append (ih { t with watch := t.watch ++ [m] })
      rw [List.append_assoc] at hrest
      exact hrest

/-- The settings file is set. -/
theorem takes_settings (ht : t.settings = none) (path : Option String)
    (hpath : ∀ p ∈ path, p.isEmpty = false) :
    Takes t (path.toList.map (Word.withValue "config")) { t with settings := path } := by
  cases path with
  | none =>
      have hsame : { t with settings := none } = t := by
        rw [← ht]
      rw [hsame]
      exact Takes.nil t
  | some path =>
      apply takes_long (Word.ofText_withValue path (by decide))
      intro words
      show (t.setSettings path).map (·, words) = _
      unfold setSettings
      rw [ht, hpath path rfl]
      rfl

/-- All words in front of the paths are read. -/
theorem takes_options (t : Transform) (hsettings : ∀ p ∈ t.settings, p.isEmpty = false) :
    Takes {} t.options { t with paths := [] } := by
  have hwrite : Takes {} (if t.write then ["--write"] else []) { write := t.write } := by
    cases t.write with
    | false => exact Takes.nil _
    | true => exact takes_long (by rfl) fun _ => rfl
  have hcheck : Takes { write := t.write } (if t.check then ["--check"] else [])
      { write := t.write, check := t.check } := by
    cases t.check with
    | false => exact Takes.nil _
    | true => exact takes_long (by rfl) fun _ => rfl
  have hverbose : Takes { write := t.write, check := t.check }
      (if t.verbose then ["--verbose"] else [])
      { write := t.write, check := t.check, verbose := t.verbose } := by
    cases t.verbose with
    | false => exact Takes.nil _
    | true => exact takes_long (by rfl) fun _ => rfl
  have hwatch := takes_watch t.watch { write := t.write, check := t.check, verbose := t.verbose }
  exact (((hwrite.append hcheck).append hverbose).append hwatch).append
    (takes_settings rfl t.settings hsettings)

/-- Behind `--` every word is a path. -/
theorem readPaths_eq (paths : List String) :
    ∀ t : Transform, (∀ p ∈ paths, p.isEmpty = false) →
      t.readPaths paths = .ok { t with paths := t.paths ++ paths } := by
  induction paths with
  | nil =>
      intro t h
      rw [List.append_nil]
      rfl
  | cons p paths ih =>
      intro t h
      have hadd : t.addPath p = .ok { t with paths := t.paths ++ [p] } := by
        unfold addPath
        rw [h p List.mem_cons_self]
        rfl
      rw [readPaths, hadd]
      dsimp only
      rw [ih _ fun q hq => h q (List.mem_cons_of_mem _ hq), List.append_assoc]
      rfl

/-- **Every writable request is asked for by its arguments.** -/
theorem ofArguments_arguments (ht : t.IsWritable) :
    Request.ofArguments t.arguments = .transform t := by
  have hread : readWords (t.options ++ "--" :: t.paths) {} (t.options ++ "--" :: t.paths)
      = .ok t := by
    rw [takes_options t ht.settings]
    show readPaths { t with paths := [] } t.paths = .ok t
    rw [readPaths_eq t.paths _ ht.paths]
    rfl
  show ofWords (t.options ++ "--" :: t.paths) = .transform t
  unfold ofWords
  rw [hread]
  dsimp only
  rw [if_pos ht.isComplete]

/-- **The requests that arguments make** are the writable ones. -/
theorem exists_ofArguments_iff :
    (∃ arguments, Request.ofArguments arguments = .transform t) ↔ t.IsWritable :=
  ⟨fun ⟨_, h⟩ => isWritable_of_ofArguments h, fun h => ⟨t.arguments, ofArguments_arguments h⟩⟩

/-- The same request, to write the files back. -/
def writing (t : Transform) : Transform := { t with write := true, check := false }

theorem IsWritable.writing (ht : t.IsWritable) : t.writing.IsWritable where
  paths := ht.paths
  settings := ht.settings
  isComplete := by
    have hcomplete := ht.isComplete
    unfold Transform.isComplete at hcomplete ⊢
    rw [Bool.and_eq_true] at hcomplete
    exact Bool.and_eq_true_iff.2 ⟨hcomplete.1, rfl⟩

/-- A request that writes the files back is its own. -/
theorem IsWritable.writing_eq (ht : t.IsWritable) (hwrite : t.write = true) : t.writing = t := by
  have hcheck : t.check = false := by
    have hcomplete := ht.isComplete
    unfold Transform.isComplete at hcomplete
    rw [hwrite] at hcomplete
    simpa using (Bool.and_eq_true_iff.1 hcomplete).2
  unfold Transform.writing
  rw [← hwrite, ← hcheck]

end Transform

end ImportSplit.CommandLine
