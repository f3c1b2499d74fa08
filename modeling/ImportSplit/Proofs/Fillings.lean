/-
  ImportSplit.Proofs.Fillings
  ────────────────────────────────
  **BLANKS AND BLOCK COMMENTS AS THEY ARE WRITTEN.**

  Between two tokens any blanks and comments may be written.  A filling is such
  a text, piece by piece; a comment ends with the first `*/` in it, so its body
  holds none.  A gap takes a filling whole, up to the next token
  (`Filling.readGap`):

      readGap (filling ++ token …)  =  the comments of the filling, token …
-/
import ImportSplit.Proofs.Gaps

namespace ImportSplit

namespace Grammar

/-! ## §1. Comments. -/

/-- A block comment is closed by the first `*/` behind its opening. -/
theorem comment_run_body {body : List Char} (h : ¬ ['*', '/'] <:+: body) :
    comment.run .block (body ++ ['*', '/']) = some .closed
      ∧ (body.head? ≠ some '/' → comment.run .star (body ++ ['*', '/']) = some .closed) := by
  induction body with
  | nil => exact ⟨rfl, fun _ => rfl⟩
  | cons c body ih =>
      have hbody : ¬ ['*', '/'] <:+: body := fun hin => h (hin.trans (List.suffix_cons c body).isInfix)
      obtain ⟨hblock, hstar⟩ := ih hbody
      -- behind a star no slash follows
      have hafter : c = '*' → comment.run .star (body ++ ['*', '/']) = some .closed := by
        rintro rfl
        refine hstar fun hslash => h ?_
        cases body with
        | nil => cases hslash
        | cons k body =>
            obtain rfl := Option.some.inj hslash
            exact ⟨[], body, rfl⟩
      by_cases hc : c = '*'
      · subst hc
        exact ⟨hafter rfl, fun _ => hafter rfl⟩
      · constructor
        · have hmove : comment.move .block c = some .block := by
            show some (if (c == '*') = true then CommentState.star else .block) = some .block
            rw [if_neg (by simpa using hc)]
          rw [List.cons_append, Scanner.run_cons hmove]
          exact hblock
        · intro hne
          have hslash : c ≠ '/' := fun heq => hne (by rw [heq]; rfl)
          have hmove : comment.move .star c = some .block := by
            show some (if (c == '/') = true then CommentState.closed
              else if (c == '*') = true then .star else .block) = some .block
            rw [if_neg (by simpa using hslash), if_neg (by simpa using hc)]
          rw [List.cons_append, Scanner.run_cons hmove]
          exact hblock

theorem comment_longest? {body : List Char} (h : ¬ ['*', '/'] <:+: body) (rest : List Char) :
    comment.longest? (('/' :: '*' :: (body ++ ['*', '/'])) ++ rest)
      = some ('/' :: '*' :: (body ++ ['*', '/'])).length := by
  have hrun : comment.run comment.start ('/' :: '*' :: (body ++ ['*', '/'])) = some .closed :=
    (comment_run_body h).1
  exact Scanner.longest?_append hrun rfl fun _ _ => rfl

end Grammar

/-! ## §2. Fillings. -/

/-- A blank, or a block comment. -/
inductive Filler where
  | blank (c : Char) (h : Text.isGap c = true)
  | comment (body : List Char) (h : ¬ ['*', '/'] <:+: body)

namespace Filler

/-- The filler as it is written. -/
def text : Filler → List Char
  | blank c _ => [c]
  | comment body _ => '/' :: '*' :: (body ++ ['*', '/'])

/-- The comment as a node. -/
def node? : Filler → Option Node
  | blank .. => none
  | f => some (.token "comment" (String.ofList f.text))

end Filler

/-- What is written between two tokens. -/
abbrev Filling := List Filler

namespace Filling

/-- The filling as it is written. -/
def text (g : Filling) : List Char := g.flatMap Filler.text

/-- Its comments. -/
def comments (g : Filling) : List Node := g.filterMap Filler.node?

variable {g : Filling} {t : List Char}

theorem skips (g : Filling) (m : Bool) (t : List Char) :
    Grammar.Skips m (g.text ++ t) g.comments t := by
  induction g with
  | nil => exact .refl
  | cons f g ih =>
      cases f with
      | blank c hc => exact .blank hc ih
      | comment body hbody =>
          have hsplit : text (.comment body hbody :: g) ++ t
              = '/' :: '*' :: (body ++ ['*', '/']) ++ (text g ++ t) := List.append_assoc _ _ _
          have hlongest := Grammar.comment_longest? hbody (text g ++ t)
          have hcomment : Grammar.commentHere? m ('/' :: '*' :: (body ++ ['*', '/']) ++ (text g ++ t))
              = some ("comment", ('/' :: '*' :: (body ++ ['*', '/'])).length) := by
            unfold Grammar.commentHere?
            rw [hlongest]
          have hrest : Grammar.Skips m (('/' :: '*' :: (body ++ ['*', '/']) ++ (text g ++ t)).drop
              ('/' :: '*' :: (body ++ ['*', '/'])).length) (comments g) t := by
            rw [List.drop_left]
            exact ih
          have hskips := Grammar.Skips.remark hcomment hrest
          rw [List.take_left] at hskips
          rw [hsplit]
          exact hskips

/-- A filling starts with a blank or a slash. -/
theorem head?_text (hne : g ≠ []) (t : List Char) :
    ∃ c, (g.text ++ t).head? = some c ∧ (Text.isGap c = true ∨ c = '/') := by
  cases g with
  | nil => exact absurd rfl hne
  | cons f g =>
      cases f with
      | blank c hc => exact ⟨c, rfl, .inl hc⟩
      | comment body hbody => exact ⟨'/', rfl, .inr rfl⟩

/-- **A gap takes a filling whole.** -/
theorem readGap (g : Filling) (ht : Grammar.AtToken .js t) :
    ∃ row, Grammar.readGap false (g.text ++ t) [] (g.text ++ t) = (row, t)
      ∧ Part.nodes row.reverse = g.comments
      ∧ Part.spellingOfList row.reverse = String.ofList g.text := by
  obtain ⟨hrest, hnodes⟩ := (g.skips false t).readGap_eq ht.1 (ht.of_js .ts).2
  refine ⟨(Grammar.readGap false (g.text ++ t) [] (g.text ++ t)).1, Prod.ext rfl hrest, hnodes, ?_⟩
  have htext := Grammar.rowText_readGap false (g.text ++ t) (g.text ++ t)
  rw [hrest] at htext
  have hrow : g.text = Grammar.rowText (Grammar.readGap false (g.text ++ t) [] (g.text ++ t)).1 :=
    List.append_cancel_right htext
  rw [← String.toList_inj, String.toList_ofList]
  exact hrow.symm

end Filling

end ImportSplit
