/-
  ImportSplit.Grammar.Lexeme
  ────────────────────────────────
  **LEXEMES.**

  A lexeme says what may stand at a place as one token; `size?` is the length
  of the token there.  A word is taken whole, so the keyword `in` is not found
  at the start of `inner`; a sign may be forbidden to go on, so `=` is not
  found at the start of `=>`.
-/
import ImportSplit.Grammar.Scanner

namespace ImportSplit.Grammar

/-- What may stand at a place as one token. -/
inductive Lexeme where
  /-- This word. -/
  | keyword (word : List Char)
  /-- Any word but these. -/
  | name (besides : List (List Char))
  /-- These characters, unless one of the continuations follows. -/
  | sign (chars : List Char) (butNot : List (List Char))
  | privateName
  | number
  | string
  | regex
  | templateText
  | escape
  | hashbang
  | markupName
  | markupText
  | markupString
  | reference
  deriving Repr, DecidableEq

/-- The length of the token of this form at the start of the text. -/
def Lexeme.size? (s : List Char) : Lexeme → Option Nat
  | keyword w =>
      if w.isPrefixOf s then
        match word.longest? s with
        | some n => if n == w.length then some n else none
        | none => none
      else none
  | name besides =>
      match word.longest? s with
      | some n => if besides.contains (s.take n) then none else some n
      | none => none
  | sign cs butNot =>
      if cs.isPrefixOf s && butNot.all (fun t => !t.isPrefixOf (s.drop cs.length)) then
        some cs.length
      else none
  | privateName => Grammar.privateName.longest? s
  | number => Grammar.number.longest? s
  | string => ((quoted '"').longest? s).orElse fun _ => (quoted '\'').longest? s
  | regex => Grammar.regex.longest? s
  | templateText => templateText? s
  | escape => escaped.longest? s
  | hashbang => hashbang? s
  | markupName => markupName? s
  | markupText => markupText? s
  | markupString => markupString? s
  | reference => reference? s

end ImportSplit.Grammar
