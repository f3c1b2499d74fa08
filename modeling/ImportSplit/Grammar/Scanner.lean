/-
  ImportSplit.Grammar.Scanner
  ────────────────────────────────
  **SCANNERS: THE LONGEST MATCH AT A PLACE.**

  A scanner moves from state to state with each character and stops where it
  has no move.  `longest?` is how many characters it can take from the start
  of a text so that it ends in an accepting state.  Since a match is a number
  of characters, cutting it off loses nothing:

      s.take n ++ s.drop n = s

  The scanners here are those of the tokens of a module: words, numbers,
  strings, regular expressions, comments, and the pieces of templates and
  markup.
-/
import ImportSplit.Text.Blank
import ImportSplit.Text.Quoted

namespace ImportSplit.Grammar

/-- States, moves, and the states in which a match may end. -/
structure Scanner (σ : Type) where
  start : σ
  move : σ → Char → Option σ
  accepts : σ → Bool

namespace Scanner

/-- The longest match from a state on: `read` characters were taken before,
and `best` is the length of the longest match among them. -/
def longestFrom {σ : Type} (m : Scanner σ) :
    σ → (read : Nat) → (best : Option Nat) → List Char → Option Nat
  | s, read, best, [] => if m.accepts s then some read else best
  | s, read, best, c :: rest =>
      let best := if m.accepts s then some read else best
      match m.move s c with
      | some s' => longestFrom m s' (read + 1) best rest
      | none => best

/-- The length of the longest match at the start of a text. -/
def longest? {σ : Type} (m : Scanner σ) (s : List Char) : Option Nat :=
  m.longestFrom m.start 0 none s

end Scanner

/-! ## §1. Words. -/

/-- A hexadecimal digit. -/
def isHex (c : Char) : Bool := (Text.hexValue? c).isSome

/-- A decimal digit. -/
def isDigit (c : Char) : Bool := '0' ≤ c && c ≤ '9'

/-- A character of a word, escapes aside: in ASCII letters, digits, `$`, `_`
and the delete character, beyond ASCII everything but gaps. -/
def isWordChar (c : Char) : Bool :=
  if c.toNat < 128 then
    c.isAlphanum || c == '_' || c == '$' || c.toNat == 127
  else !Text.isGap c

/-- Where the scanning of a word stands; `\u0061` and `\u{61}` are escapes. -/
inductive WordState where
  | start
  | inside
  | backslash
  | letter
  | digits (left : Nat)
  | brace
  | braced
  deriving DecidableEq

/-- A word: an identifier or a keyword. -/
def word : Scanner WordState where
  start := .start
  accepts s := s == .inside
  move
    | .start, c =>
        if c == '\\' then some .backslash
        else if isWordChar c && !isDigit c then some .inside else none
    | .inside, c =>
        if isWordChar c then some .inside else if c == '\\' then some .backslash else none
    | .backslash, c => if c == 'u' then some .letter else none
    | .letter, c =>
        if c == '\x7b' then some .brace else if isHex c then some (.digits 3) else none
    | .digits left, c =>
        if isHex c then some (if left ≤ 1 then .inside else .digits (left - 1)) else none
    | .brace, c => if isHex c then some .braced else none
    | .braced, c =>
        if isHex c then some .braced else if c == '\x7d' then some .inside else none

/-- A private name: `#` and a word. -/
def privateName : Scanner (Option WordState) where
  start := none
  accepts s := s == some .inside
  move
    | none, c => if c == '#' then some (some .start) else none
    | some s, c => (word.move s c).map some

/-! ## §2. Numbers. -/

/-- Where the scanning of a number stands.  In a run of digits an underscore
may stand between two digits (`gap`). -/
inductive NumberState where
  | start
  | zero
  | whole
  | wholeGap
  | digits
  | digitsGap
  | prefixed (base : Nat)
  | based (base : Nat)
  | basedGap (base : Nat)
  | firstPoint
  | point
  | fraction
  | fractionGap
  | exponent
  | exponentSign
  | exponentDigits
  | exponentGap
  | big
  deriving DecidableEq

/-- A digit to the base two, eight or sixteen. -/
def isDigitOf (base : Nat) (c : Char) : Bool :=
  match Text.hexValue? c with
  | some d => d < base
  | none => false

/-- A numeric literal. -/
def number : Scanner NumberState where
  start := .start
  accepts
    | .zero | .whole | .digits | .based _ | .point | .fraction | .exponentDigits | .big => true
    | _ => false
  move
    | .start, c =>
        if c == '0' then some .zero
        else if isDigit c then some .whole
        else if c == '.' then some .firstPoint else none
    | .zero, c =>
        if c == 'x' || c == 'X' then some (.prefixed 16)
        else if c == 'b' || c == 'B' then some (.prefixed 2)
        else if c == 'o' || c == 'O' then some (.prefixed 8)
        else if c == '.' then some .point
        else if c == 'e' || c == 'E' then some .exponent
        else if c == 'n' then some .big
        else if isDigit c then some .digits
        else if c == '_' then some .digitsGap else none
    | .whole, c =>
        if isDigit c then some .whole
        else if c == '_' then some .wholeGap
        else if c == '.' then some .point
        else if c == 'e' || c == 'E' then some .exponent
        else if c == 'n' then some .big else none
    | .wholeGap, c => if isDigit c then some .whole else none
    | .digits, c =>
        if isDigit c then some .digits
        else if c == '_' then some .digitsGap
        else if c == 'n' then some .big else none
    | .digitsGap, c => if isDigit c then some .digits else none
    | .prefixed b, c => if isDigitOf b c then some (.based b) else none
    | .based b, c =>
        if isDigitOf b c then some (.based b)
        else if c == '_' then some (.basedGap b)
        else if c == 'n' then some .big else none
    | .basedGap b, c => if isDigitOf b c then some (.based b) else none
    | .firstPoint, c => if isDigit c then some .fraction else none
    | .point, c =>
        if isDigit c then some .fraction
        else if c == 'e' || c == 'E' then some .exponent else none
    | .fraction, c =>
        if isDigit c then some .fraction
        else if c == '_' then some .fractionGap
        else if c == 'e' || c == 'E' then some .exponent else none
    | .fractionGap, c => if isDigit c then some .fraction else none
    | .exponent, c =>
        if c == '+' || c == '-' then some .exponentSign
        else if isDigit c then some .exponentDigits else none
    | .exponentSign, c => if isDigit c then some .exponentDigits else none
    | .exponentDigits, c =>
        if isDigit c then some .exponentDigits
        else if c == '_' then some .exponentGap else none
    | .exponentGap, c => if isDigit c then some .exponentDigits else none
    | .big, _ => none

/-! ## §3. Strings, templates and regular expressions. -/

/-- Where the scanning of a string stands. -/
inductive StringState where
  | start
  | inside
  | backslash
  | carriage
  | unicode
  | digits (left : Nat)
  | brace
  | braced
  | closed
  deriving DecidableEq

/-- The moves behind a backslash; `back` is the state between characters. -/
def escapeMove (back : StringState) : StringState → Char → Option StringState
  | .backslash, c =>
      if c == 'x' then some (.digits 2)
      else if c == 'u' then some .unicode
      else if c == '\r' then some .carriage else some back
  | .unicode, c =>
      if c == '\x7b' then some .brace else if isHex c then some (.digits 3) else none
  | .digits left, c =>
      if isHex c then some (if left ≤ 1 then back else .digits (left - 1)) else none
  | .brace, c => if isHex c then some .braced else none
  | .braced, c =>
      if isHex c then some .braced else if c == '\x7d' then some back else none
  | _, _ => none

/-- The moves between the characters of a string. -/
def stringMove (quote c : Char) : Option StringState :=
  if c == quote then some .closed
  else if c == '\\' then some .backslash
  else if c == '\n' || c == '\r' then none else some .inside

/-- A string between quotes; only an escaped line end may stand in it. -/
def quoted (quote : Char) : Scanner StringState where
  start := .start
  accepts s := s == .closed
  move
    | .start, c => if c == quote then some .inside else none
    | .inside, c => stringMove quote c
    | .carriage, c =>
        if Text.isLineEnd c then some .inside else stringMove quote c
    | .closed, _ => none
    | s, c => escapeMove .inside s c

/-- One escape, as it stands in a template. -/
def escaped : Scanner StringState where
  start := .start
  accepts s := s == .closed || s == .carriage
  move
    | .start, c => if c == '\\' then some .backslash else none
    | .carriage, c => if Text.isLineEnd c then some .closed else none
    | s, c => escapeMove .closed s c

/-- The length of the text at the start of a template piece: up to the closing
backquote, a substitution or an escape.  There is none at the end of the
input, where the template is not closed. -/
def templateText? : List Char → Option Nat :=
  go 0
where
  go : Nat → List Char → Option Nat
    | _, [] => none
    | n, '\x60' :: _ => if n = 0 then none else some n
    | n, '\\' :: _ => if n = 0 then none else some n
    | n, '$' :: '\x7b' :: _ => if n = 0 then none else some n
    | n, _ :: rest => go (n + 1) rest

/-- Where the scanning of a regular expression stands. -/
inductive RegexState where
  | start
  | opened
  | inside
  | backslash
  | set
  | setBackslash
  | flags
  deriving DecidableEq

/-- A regular expression with its flags. -/
def regex : Scanner RegexState where
  start := .start
  accepts s := s == .flags
  move
    | .start, c => if c == '/' then some .opened else none
    | .opened, c =>
        if c == '/' || c == '\n' then none
        else if c == '\\' then some .backslash
        else if c == '[' then some .set else some .inside
    | .inside, c =>
        if c == '/' then some .flags
        else if c == '\n' then none
        else if c == '\\' then some .backslash
        else if c == '[' then some .set else some .inside
    | .backslash, c => if c == '\n' then none else some .inside
    | .set, c =>
        if c == ']' then some .inside
        else if c == '\n' then none
        else if c == '\\' then some .setBackslash else some .set
    | .setBackslash, c => if c == '\n' then none else some .set
    | .flags, c => if 'a' ≤ c && c ≤ 'z' then some .flags else none

/-! ## §4. Comments. -/

/-- Where the scanning of a comment stands. -/
inductive CommentState where
  | start
  | slash
  | line
  | block
  | star
  | closed
  deriving DecidableEq

/-- A comment, to the end of the line or between `/*` and `*/`. -/
def comment : Scanner CommentState where
  start := .start
  accepts s := s == .line || s == .closed
  move
    | .start, c => if c == '/' then some .slash else none
    | .slash, c => if c == '/' then some .line else if c == '*' then some .block else none
    | .line, c => if Text.isLineEnd c || c == '\r' then none else some .line
    | .block, c => some (if c == '*' then .star else .block)
    | .star, c => some (if c == '/' then .closed else if c == '*' then .star else .block)
    | .closed, _ => none

/-- The length of a comment that is opened by `<!--` or closed by `-->` and
ends with the line. -/
def markupComment? (s : List Char) : Option Nat :=
  if ['<', '!', '-', '-'].isPrefixOf s || ['-', '-', '>'].isPrefixOf s then
    some (s.takeWhile fun c => !Text.isLineEnd c).length
  else none

/-- The length of a line `#!…`. -/
def hashbang? (s : List Char) : Option Nat :=
  if ['#', '!'].isPrefixOf s then some (s.takeWhile (· ≠ '\n')).length else none

/-! ## §5. Markup. -/

/-- A name with a dash, as only markup has it. -/
def dashedName? (s : List Char) : Option Nat :=
  let isFirst := fun c : Char => c.isAlpha || c == '_' || c == '$'
  let isMore := fun c : Char => c.isAlphanum || c == '_' || c == '$' || c == '-'
  match s with
  | [] => none
  | c :: rest =>
      let more := rest.takeWhile isMore
      if isFirst c && more.contains '-' then some (more.length + 1) else none

/-- The name of an element or of an attribute. -/
def markupName? (s : List Char) : Option Nat :=
  (dashedName? s).orElse fun _ => word.longest? s

/-- The text between elements.  White space that spans a line end is no text
of its own. -/
def markupText? (s : List Char) : Option Nat :=
  let text := s.takeWhile fun c =>
    !(c == '<' || c == '>' || c == '\x7b' || c == '\x7d' || c == '&')
  if isSeen false text then some text.length else none
where
  /-- The text is more than a line end with blanks around it; the flag says
  that the blanks follow a line end. -/
  isSeen : Bool → List Char → Bool
    | _, [] => false
    | behindLine, c :: rest =>
        if c == '\n' then isSeen true rest
        else if behindLine && Text.isPlainBlank c then isSeen true rest
        else true

/-- An attribute value between quotes, in which nothing is escaped. -/
def markupString? : List Char → Option Nat
  | [] => none
  | q :: rest =>
      if q == '"' || q == '\'' then
        let inside := rest.takeWhile (· ≠ q)
        if inside.length < rest.length then some (inside.length + 2) else none
      else none

/-- A character reference: `&name;`, `&#digits;` or `&#xdigits;`. -/
def reference? : List Char → Option Nat
  | '&' :: '#' :: x :: rest =>
      if x == 'x' || x == 'X' then closed 3 6 (rest.takeWhile isHex) rest
      else closed 2 5 ((x :: rest).takeWhile isDigit) (x :: rest)
  | '&' :: rest => closed 1 30 (rest.takeWhile Char.isAlpha) rest
  | _ => none
where
  /-- The body has between one and `most` characters, and a semicolon follows. -/
  closed (before most : Nat) (body rest : List Char) : Option Nat :=
    if body.length == 0 || body.length > most then none
    else match rest.drop body.length with
      | ';' :: _ => some (before + body.length + 1)
      | _ => none

end ImportSplit.Grammar
