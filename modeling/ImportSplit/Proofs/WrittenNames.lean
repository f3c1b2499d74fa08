/-
  ImportSplit.Proofs.WrittenNames
  ────────────────────────────────
  **THE NAMES THAT A SPLIT WRITES.**

  Of the names in the imports that a split writes, most are words because they
  were words in the module:

      { get as g }        binds `g`, which was read as a word
      { type T as U }     binds `U`; `T` may have been written as a string
      _.map               is bound as `lodash_map`, which is put together

  The last one is a word if the name of the module starts one; the module
  `@scope/pkg` gives `@scope_pkg_map`, which is none.
-/
import ImportSplit.Proofs.Points
import ImportSplit.Proofs.ReadTypes

namespace ImportSplit

/-! ## §1. Names that are put together. -/

namespace Grammar

/-- A word goes on with another word. -/
theorem IsWord.run_inside {t : List Char} (h : IsWord t) : word.run .inside t = some .inside := by
  cases t with
  | nil => cases h
  | cons c t =>
      have hstart : word.run .start (c :: t) = some .inside := h
      unfold Scanner.run at hstart ⊢
      cases hmove : word.move .start c with
      | none =>
          rw [hmove] at hstart
          cases hstart
      | some state =>
          rw [hmove] at hstart
          -- behind its first character the two are read alike
          have hsame : word.move .inside c = some state := by
            simp only [word] at hmove ⊢
            split at hmove
            · next hslash =>
                cases hmove
                obtain rfl : c = '\\' := eq_of_beq hslash
                rfl
            · split at hmove
              · next hchar =>
                  cases hmove
                  rw [if_pos (Bool.and_eq_true _ _ ▸ hchar).1]
              · cases hmove
          rw [hsame]
          exact hstart

theorem IsWord.append {t u : List Char} (ht : IsWord t) (hu : IsWord u) : IsWord (t ++ u) := by
  unfold IsWord at ht ⊢
  rw [Scanner.run_append, ht]
  exact hu.run_inside

end Grammar

/-- The name of a module starts the names of its members. -/
def StartsNames (module : String) : Prop := Grammar.IsWord (memberName module "").toList

instance (module : String) : Decidable (StartsNames module) :=
  inferInstanceAs (Decidable (Grammar.IsWord _))

/-- Where the name of a module starts a word, its members have words as names. -/
theorem StartsNames.isWord_memberName {module member : String} (h : StartsNames module)
    (hmember : Grammar.IsWord member.toList) :
    Grammar.IsWord (memberName module member).toList := by
  have hname : (memberName module member).toList = (memberName module "").toList ++ member.toList := by
    simp [memberName]
  rw [hname]
  exact h.append hmember

/-! ## §2. Names that were read. -/

/-- **What is accessed in a node that was read is a word.** -/
theorem Node.WellRead.isWord_property {n : Node} :
    n.WellRead → ∀ a ∈ n.accesses, Grammar.IsWord a.property.toList := by
  induction n using Node.induction with
  | identifier name => exact fun _ _ h => absurd h List.not_mem_nil
  | token kind text => exact fun _ _ h => absurd h List.not_mem_nil
  | member object operator property ih =>
      rintro ⟨hobject, hproperty, -⟩ a ha
      rcases List.mem_cons.1 ha with rfl | ha
      · exact hproperty
      · exact ih hobject a ha
  | construct kind parts ih =>
      rintro ⟨-, -, hparts⟩ a ha
      have ha : a ∈ Part.accessesOfList parts := ha
      rw [Part.accessesOfList_eq_flatMap] at ha
      obtain ⟨p, hp, ha⟩ := List.mem_flatMap.1 ha
      cases p with
      | text text => cases ha
      | node n => exact ih n hp (Part.allWellRead_iff.1 hparts _ hp) a ha

/-- A type with both its names was read under words, if its exported name is one. -/
theorem Node.WellRead.isWordType {n : Node} {d : ImportDecl} (hn : n.WellRead)
    (h : ImportDecl.ofNode? n = some d) {x : Specifier} (hx : x ∈ d.types) :
    Grammar.IsWordType x
      ∨ ∃ exported bound, x = .typeOnly (some exported) (some bound)
        ∧ ¬ Grammar.IsWord exported.toList := by
  obtain ⟨hx, hfull⟩ := List.mem_filter.1 hx
  obtain ⟨exported, bound, rfl⟩ : ∃ exported bound, x = .typeOnly (some exported) (some bound) := by
    cases x with
    | typeOnly exported bound =>
        obtain ⟨hexported, hbound⟩ := Bool.and_eq_true _ _ ▸ hfull
        obtain ⟨e, rfl⟩ := Option.isSome_iff_exists.1 hexported
        obtain ⟨b, rfl⟩ := Option.isSome_iff_exists.1 hbound
        exact ⟨e, b, rfl⟩
    | byDefault | whole | named => cases hfull
  by_cases hword : Grammar.IsWord exported.toList
  · exact .inl (.intro hword (hn.isWord_of_bound? h hx (.inr rfl) rfl))
  · exact .inr ⟨exported, bound, rfl, hword⟩

/-! ## §3. Names of a module. -/

namespace Program

variable {w : WatchList} {d : Dialect} {source : String} {p : Program}

/-- **An inserted import binds a word**, unless it is of an access on a handle of a
module whose name starts none. -/
theorem isWord_of_mem_inserted (h : ofSource d source = .ok p) {m : DirectImport}
    (hm : m ∈ p.inserted w) :
    Grammar.IsWord m.name.toList
      ∨ ∃ i ∈ p.imports, w.watches i.source = true ∧ i.handles ≠ [] ∧ ¬ StartsNames i.source
        ∧ ∃ member, m = .ofAccess i.source member := by
  obtain ⟨ns, hbody, -, hwell⟩ := segments_of_ofSource? (ofSource_eq_ok_iff.1 h)
  rw [mem_inserted_iff, directImports, mem_inScope_iff] at hm
  obtain ⟨before, s, rest, hsplit, hm⟩ := hm
  have hs : s ∈ p.body := by simp [hsplit]
  rw [hbody] at hs
  obtain ⟨n, hn, rfl⟩ := List.mem_map.1 hs
  cases hdecl : ImportDecl.ofNode? n with
  | some decl =>
      rw [Statement.ofNode_of_some hdecl] at hm
      have hm : m ∈ if w.watches decl.source then decl.members else [] := hm
      by_cases hw : w.watches decl.source = true
      · rw [if_pos hw] at hm
        obtain ⟨x, hx, hxm⟩ := List.mem_filterMap.1 hm
        exact .inl ((hwell n hn).isWord_of_member hdecl hx hxm)
      · rw [if_neg hw] at hm
        cases hm
  | none =>
      rw [Statement.ofNode_of_none hdecl] at hm
      obtain ⟨a, ha, hdirect⟩ := List.mem_filterMap.1 hm
      obtain ⟨module, hmodule, rfl⟩ := Option.map_eq_some_iff.1 hdirect
      obtain ⟨x, -, hscope⟩ := Option.bind_eq_some_iff.1 hmodule
      obtain ⟨i, hi, hw, rfl, handle, hhandle, -⟩ := exists_handle_of_scopeAt hscope
      by_cases hstarts : StartsNames i.source
      · exact .inl (hstarts.isWord_memberName ((hwell n hn).isWord_property a ha))
      · have hmem : .importing i ∈ p.body := by
          rw [hsplit]
          exact List.mem_append_left _ hi
        exact .inr ⟨i, List.mem_filterMap.2 ⟨_, hmem, rfl⟩, hw, List.ne_nil_of_mem hhandle, hstarts,
          a.property, rfl⟩

/-- **Types are left behind under words**, unless one was asked for by a string that
is no word. -/
theorem isWordType_of_mem_types (h : ofSource d source = .ok p) {i : ImportDecl}
    (hi : i ∈ p.imports) {x : Specifier} (hx : x ∈ i.types) :
    Grammar.IsWordType x
      ∨ ∃ exported bound, x = .typeOnly (some exported) (some bound)
        ∧ ¬ Grammar.IsWord exported.toList := by
  obtain ⟨ns, hbody, -, hwell⟩ := segments_of_ofSource? (ofSource_eq_ok_iff.1 h)
  obtain ⟨s, hs, hsi⟩ := List.mem_filterMap.1 hi
  rw [hbody] at hs
  obtain ⟨n, hn, rfl⟩ := List.mem_map.1 hs
  cases hdecl : ImportDecl.ofNode? n with
  | none =>
      rw [Statement.ofNode_of_none hdecl] at hsi
      cases hsi
  | some decl =>
      rw [Statement.ofNode_of_some hdecl] at hsi
      cases hsi
      exact (hwell n hn).isWordType hdecl hx

end Program

end ImportSplit
