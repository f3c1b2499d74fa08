/-
  ImportSplit.Grammar.Semicolon
  ────────────────────────────────
  **WHERE A STATEMENT ENDS WITHOUT A SEMICOLON.**

  Behind the last token of a statement the text that follows decides whether
  the statement ends there (`endsHere`): at the end of the input, before a
  closing brace, and at a line end unless the next line goes on with the
  statement.  The dialects differ in small ways, and both ask whether an
  operator could follow (`operators`):

      without types — a comment behind a statement that takes no operator
                      ends it; a decimal such as `.5` starts a statement
      with types    — `(` and `[` on the next line go on with a statement
                      only where an operator could follow

  Where the statement does not end, a comment may follow; it becomes part of
  the statement, and the question is asked again behind it (`absorbed?`).
-/
import ImportSplit.Grammar.Scanner
import ImportSplit.Dialect

namespace ImportSplit.Grammar.Semicolon

open Text

/-! ## §1. Skipping blanks and comments. -/

/-- Behind the opening of a block comment: what follows its end, and whether
it spans lines. -/
def skipBlock : (spans : Bool) → List Char → Bool × List Char
  | spans, [] => (spans, [])
  | spans, '*' :: '/' :: rest => (spans, rest)
  | spans, c :: rest => skipBlock (spans || isLineEnd c) rest

/-- What was skipped. -/
inductive Skipped where
  /-- A slash that opens no comment. -/
  | slash
  /-- A block comment, none of which spanned lines so far. -/
  | inLine (rest : List Char)
  /-- All blanks and comments, or block comments one of which spans lines. -/
  | upTo (rest : List Char)

/-- Skips blanks and comments; unless `all` is set, no further than to the end
of a block comment.  Each round takes one character of the budget at least. -/
def skip (all : Bool) : (budget : List Char) → (spans : Bool) → List Char → Skipped
  | [], _, s => .upTo s
  | _ :: budget, spans, s =>
      match s.dropWhile isPlainBlank with
      | '/' :: '/' :: rest => skip all budget spans (rest.dropWhile fun c => !isLineEnd c)
      | '/' :: '*' :: rest =>
          let (spans, rest) := skipBlock spans rest
          if !all && rest.head? ≠ some '/' then
            if spans then .upTo rest else .inLine rest
          else skip all budget spans rest
      | '/' :: _ => .slash
      | rest => .upTo rest

/-! ## §2. The next line. -/

/-- The word `in` or `instanceof` stands here, which goes on with an
expression.  Only a letter behind it makes it another word. -/
def startsWithIn (s : List Char) : Bool :=
  goesOn "in".toList s || goesOn "instanceof".toList s
where
  goesOn (w s : List Char) : Bool :=
    w.isPrefixOf s && !((s.drop w.length).head?.elim false Char.isAlpha)

/-- The line that starts with this text begins another statement. -/
def beginsStatement (d : Dialect) (operators : Bool) : List Char → Bool
  | [] => true
  | c :: rest =>
      if c == '\x60' || c == ',' || c == ':' || c == ';' || c == '*' || c == '%' || c == '>'
          || c == '<' || c == '=' || c == '?' || c == '^' || c == '|' || c == '&' || c == '/' then
        false
      else if c == '(' || c == '[' then d.hasTypes && !operators
      else if c == '.' then !d.hasTypes && rest.head?.elim false isDigit
      else if c == '+' || c == '-' then rest.head? == some c
      else if c == '!' then rest.head? != some '='
      else if c == 'i' then !startsWithIn (c :: rest)
      else true

/-- Behind a line end: what follows begins another statement. -/
def nextLine (d : Dialect) (operators : Bool) (s : List Char) : Bool :=
  match skip true s false s with
  | .slash => false
  | .inLine rest | .upTo rest => beginsStatement d operators rest

/-! ## §3. The rest of the line. -/

/-- A closing brace ends a statement; with types, a colon behind it shows that
it closes a pattern. -/
def atBrace (d : Dialect) (operators : Bool) (rest : List Char) : Bool :=
  if d.hasTypes && (rest.dropWhile isPlainBlank).head? == some ':' then operators else true

/-- The statement ends before this text. -/
def endsHere (d : Dialect) (operators : Bool) (s : List Char) : Bool :=
  along s false s
where
  /-- Looks along the line.  Directly behind a comment the end of the input does
  not count: the comment is to be taken in first. -/
  along : (budget : List Char) → (behindComment : Bool) → List Char → Bool
    | _, behindComment, [] => !behindComment
    | [], _, _ => false
    | _ :: budget, _, c :: rest =>
        if c == '/' then
          if d.hasTypes then false
          else match skip false (c :: rest) false (c :: rest) with
            | .slash => false
            | .inLine rest => along budget true rest
            | .upTo rest =>
                if !operators && !(rest.head? == some ',' || rest.head? == some '=') then true
                else along budget true rest
        else if c == '\x7d' then atBrace d operators rest
        else if c == '\n' || (!d.hasTypes && isLineEnd c) then nextLine d operators rest
        else if isPlainBlank c then along budget false rest
        else false

/-- How many characters of blanks and comments belong to the statement that
ends here without a semicolon; `none` if it does not end. -/
def absorbed? (d : Dialect) (operators : Bool) (s : List Char) : Option Nat :=
  go s s
where
  /-- Takes comment after comment. -/
  go : (budget : List Char) → List Char → Option Nat
    | budget, s =>
        if endsHere d operators s then some 0
        else match budget with
          | [] => none
          | _ :: budget =>
              let blanks := (s.takeWhile isGap).length
              match comment.longest? (s.drop blanks) with
              | some n => (go budget (s.drop (blanks + n))).map (blanks + n + ·)
              | none => none

end ImportSplit.Grammar.Semicolon
