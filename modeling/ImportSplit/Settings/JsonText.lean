/-
  ImportSplit.Settings.JsonText
  ────────────────────────────────
  **PIECES OF JSON TEXT.**

  Readers for the pieces that settings are made of: strings (§2), numbers
  (§3), and any value that is skipped (§4).  Reading fails in one of three
  ways, and the first failure met decides:

      malformed   — the text is not JSON here
      mismatched  — the text is JSON, but of the wrong shape
      truncated   — the text ends too early

  A string that is kept is decoded, and its escapes must name characters; of
  a skipped string only the form of the escapes is looked at.
-/
import ImportSplit.Text.Quoted

namespace ImportSplit.JsonText

/-! ## §1. Failures and blanks. -/

/-- Why a text cannot be read. -/
inductive Fault where
  | malformed
  | mismatched
  | truncated
  deriving Repr, DecidableEq, Inhabited

/-- The blank characters of JSON. -/
def isBlank (c : Char) : Bool :=
  c == ' ' || c == '\n' || c == '\t' || c == '\r'

/-- The text behind the blanks at its start. -/
def skipBlanks (s : List Char) : List Char := s.dropWhile isBlank

/-- How many bytes the text takes. -/
def byteCount (s : List Char) : Nat := (String.ofList s).utf8ByteSize

/-! ## §2. Strings. -/

/-- The character of a two-character escape. -/
def simpleEscape? (c : Char) : Option Char :=
  if c = '"' then some '"'
  else if c = '\\' then some '\\'
  else if c = '/' then some '/'
  else if c = 'b' then some '\x08'
  else if c = 'f' then some '\x0c'
  else if c = 'n' then some '\n'
  else if c = 'r' then some '\r'
  else if c = 't' then some '\t'
  else none

/-- Where the reading of a string stands. -/
inductive Spot where
  /-- Between characters. -/
  | plain
  /-- Behind a backslash. -/
  | escaped
  /-- Inside the four digits of a code unit: the digits read, their value, and
  the high surrogate that came before. -/
  | code (read value : Nat) (high : Option Nat)
  /-- Behind a high surrogate: the backslash of the low one is due. -/
  | lowBackslash (high : Nat)
  /-- Behind that backslash: its `u` is due. -/
  | lowLetter (high : Nat)

/-- What a code unit means behind the given high surrogate: a character, or a
high surrogate that waits for its low one. -/
def unit (value : Nat) : Option Nat → Except Fault (Char ⊕ Nat)
  | none =>
      if 0xDC00 ≤ value ∧ value ≤ 0xDFFF then .error .malformed
      else if 0xD800 ≤ value ∧ value ≤ 0xDBFF then .ok (.inr value)
      else .ok (.inl (Char.ofNat value))
  | some high =>
      if 0xDC00 ≤ value ∧ value ≤ 0xDFFF then
        .ok (.inl (Char.ofNat (0x10000 + (high - 0xD800) * 0x400 + (value - 0xDC00))))
      else .error .malformed

/-- Puts a character before the text that was read. -/
def consRead (c : Char) :
    Except Fault (List Char × List Char) → Except Fault (List Char × List Char)
  | .ok (text, rest) => .ok (c :: text, rest)
  | .error f => .error f

/-- A bad digit in a code: fewer than four bytes up to the end of the whole
text count as an early end. -/
def badDigit (read : Nat) (s : List Char) : Fault :=
  if read + byteCount s < 4 then .truncated else .malformed

/-- Reads a string behind its opening quote: the text and what follows the
closing quote. -/
def readStringFrom : Spot → List Char → Except Fault (List Char × List Char)
  | _, [] => .error .truncated
  | .plain, c :: rest =>
      if c = '"' then .ok ([], rest)
      else if c = '\\' then readStringFrom .escaped rest
      else if c.toNat < 0x20 then .error .malformed
      else consRead c (readStringFrom .plain rest)
  | .escaped, c :: rest =>
      if c = 'u' then readStringFrom (.code 0 0 none) rest
      else match simpleEscape? c with
        | some d => consRead d (readStringFrom .plain rest)
        | none => .error .malformed
  | .code read value high, c :: rest =>
      match Text.hexValue? c with
      | none => .error (badDigit read (c :: rest))
      | some d =>
          if read < 3 then readStringFrom (.code (read + 1) (16 * value + d) high) rest
          else match unit (16 * value + d) high with
            | .ok (.inl x) => consRead x (readStringFrom .plain rest)
            | .ok (.inr h) => readStringFrom (.lowBackslash h) rest
            | .error f => .error f
  | .lowBackslash h, c :: rest =>
      if c = '\\' then readStringFrom (.lowLetter h) rest else .error .malformed
  | .lowLetter h, c :: rest =>
      if c = 'u' then readStringFrom (.code 0 0 (some h)) rest else .error .malformed

/-- Reads a string behind its opening quote. -/
def readString (s : List Char) : Except Fault (List Char × List Char) :=
  readStringFrom .plain s

/-- How one character is written inside a string. -/
def escape (c : Char) : List Char :=
  if c = '"' then ['\\', '"']
  else if c = '\\' then ['\\', '\\']
  else if c = '\x08' then ['\\', 'b']
  else if c = '\x0c' then ['\\', 'f']
  else if c = '\n' then ['\\', 'n']
  else if c = '\r' then ['\\', 'r']
  else if c = '\t' then ['\\', 't']
  else if c.toNat < 0x20 then
    ['\\', 'u', '0', '0', Text.hexDigit (c.toNat / 16), Text.hexDigit (c.toNat % 16)]
  else [c]

/-- The text as a string between quotes. -/
def writeString (s : List Char) : List Char :=
  '"' :: s.flatMap escape ++ ['"']

/-! ## §3. Numbers where none is wanted.

A number in the place of something else is read in full before it counts as
mismatched: it may be malformed, end early, or be too large. -/

/-- The digits at the start of the text. -/
def digitsOf (s : List Char) : List Char := s.takeWhile Char.isDigit

/-- The value of a run of decimal digits. -/
def decimalValue (ds : List Char) : Nat :=
  ds.foldl (fun n d => 10 * n + (d.toNat - 48)) 0

/-- The least whole number that rounds to no finite double:
two to the power 1024, less half a unit in the last place. -/
def doubleLimit : Nat := Nat.pow 2 1024 - Nat.pow 2 970

/-- `significand` times ten to the power `up - down` is too large for a double. -/
def isTooLarge (significand up down : Nat) : Bool :=
  let size := (Nat.toDigits 10 significand).length
  if significand == 0 then false
  else if size + up > down + 310 then true
  else if size + up < down + 309 then false
  else significand * Nat.pow 10 (up - down) ≥ doubleLimit * Nat.pow 10 (down - up)

/-- The fault of a number whose whole digits and fraction digits are these,
with `s` behind them. -/
def exponentFault (whole fraction : List Char) (s : List Char) : Fault :=
  let significand := decimalValue (whole ++ fraction)
  match s with
  | c :: rest =>
      if c = 'e' ∨ c = 'E' then
        let (negative, rest) := match rest with
          | '-' :: r => (true, r)
          | '+' :: r => (false, r)
          | r => (false, r)
        match rest with
        | [] => .truncated
        | d :: _ =>
            if d.isDigit then
              let e := decimalValue (digitsOf rest)
              let (up, down) := if negative then (0, e) else (e, 0)
              if isTooLarge significand up (down + fraction.length) then .malformed
              else .mismatched
            else .malformed
      else if isTooLarge significand 0 fraction.length then .malformed else .mismatched
  | [] => if isTooLarge significand 0 fraction.length then .malformed else .mismatched

/-- The fault of a number behind its sign. -/
def numberFault (s : List Char) : Fault :=
  let whole := digitsOf s
  match whole with
  | [] => if s.isEmpty then .truncated else .malformed
  | d :: more =>
      if d = '0' ∧ !more.isEmpty then .malformed
      else match s.drop whole.length with
        | '.' :: rest =>
            let fraction := digitsOf rest
            if fraction.isEmpty then (if rest.isEmpty then .truncated else .malformed)
            else exponentFault whole fraction (rest.drop fraction.length)
        | rest => exponentFault whole [] rest

/-- The fault of a word such as `null` in the place of something else. -/
def wordFault : (word s : List Char) → Fault
  | [], _ => .mismatched
  | _ :: _, [] => .truncated
  | w :: ws, c :: rest => if w = c then wordFault ws rest else .malformed

/-- The fault of a value that is there instead of the one that is wanted. -/
def mismatch : List Char → Fault
  | [] => .truncated
  | c :: rest =>
      if c = 'n' then wordFault "ull".toList rest
      else if c = 't' then wordFault "rue".toList rest
      else if c = 'f' then wordFault "alse".toList rest
      else if c = '-' then numberFault rest
      else if c.isDigit then numberFault (c :: rest)
      else if c = '"' then
        match readString rest with
        | .ok _ => .mismatched
        | .error f => f
      else if c = '[' ∨ c = '\x7b' then .mismatched
      else .malformed

/-! ## §4. Skipping a value. -/

/-- What encloses a skipped value. -/
inductive Frame where
  | array
  | object
  deriving Repr, DecidableEq, Inhabited

/-- Where the skipping of a value stands. -/
inductive Skip where
  /-- A value is due. -/
  | value
  /-- Behind an opening bracket: a first member, or the end. -/
  | first
  /-- A key is due. -/
  | key
  /-- Behind a key: the colon is due. -/
  | colon
  /-- Behind a member: a comma, or the end. -/
  | after
  /-- Inside a string, which may be a key. -/
  | inString (isKey : Bool)
  | inEscape (isKey : Bool)
  | inCode (isKey : Bool) (read : Nat)
  /-- Inside a word, with the letters that are due. -/
  | inWord (due : List Char)
  /-- Behind a minus sign. -/
  | sign
  /-- Behind a leading zero. -/
  | zero
  /-- Inside the whole digits. -/
  | whole
  /-- Behind the point. -/
  | point
  /-- Inside the fraction digits. -/
  | fraction
  /-- Behind the letter of the exponent. -/
  | exponent
  /-- Behind the sign of the exponent. -/
  | exponentSign
  /-- Inside the digits of the exponent. -/
  | exponentDigits

/-- The number is complete in this state. -/
def Skip.endsNumber : Skip → Bool
  | zero | whole | fraction | exponentDigits => true
  | _ => false

/-- Where a string leads when it is closed. -/
def Skip.closeString (isKey : Bool) : Skip := if isKey then .colon else .after

/-- What opens with the first character of a value: the next state, and
whether a frame opens with it. -/
def Skip.ofFirst? (c : Char) : Option (Skip × Option Frame) :=
  if c = 'n' then some (.inWord "ull".toList, none)
  else if c = 't' then some (.inWord "rue".toList, none)
  else if c = 'f' then some (.inWord "alse".toList, none)
  else if c = '-' then some (.sign, none)
  else if c = '0' then some (.zero, none)
  else if c.isDigit then some (.whole, none)
  else if c = '"' then some (.inString false, none)
  else if c = '[' then some (.first, some .array)
  else if c = '\x7b' then some (.first, some .object)
  else none

/-- The next state inside a number, if the character belongs to it. -/
def Skip.ofNumber? (c : Char) : Skip → Option Skip
  | sign => if c = '0' then some zero else if c.isDigit then some whole else none
  | zero => if c = '.' then some point else if c = 'e' ∨ c = 'E' then some exponent else none
  | whole =>
      if c.isDigit then some whole
      else if c = '.' then some point else if c = 'e' ∨ c = 'E' then some exponent else none
  | point => if c.isDigit then some fraction else none
  | fraction =>
      if c.isDigit then some fraction
      else if c = 'e' ∨ c = 'E' then some exponent else none
  | exponent =>
      if c = '+' ∨ c = '-' then some exponentSign
      else if c.isDigit then some exponentDigits else none
  | exponentSign => if c.isDigit then some exponentDigits else none
  | exponentDigits => if c.isDigit then some exponentDigits else none
  | _ => none

/-- The bracket that closes a frame. -/
def Frame.closer : Frame → Char
  | array => ']'
  | object => '\x7d'

/-- What a character does behind a member. -/
inductive Step where
  /-- It leads to a state, inside these frames. -/
  | go (state : Skip) (frames : List Frame)
  /-- It closes the outermost frame: the value is complete. -/
  | complete
  /-- It stands behind a value that was complete already. -/
  | behindValue
  | fault

/-- Closes the innermost frame; the frames around it remain. -/
def Step.close : (outer : List Frame) → Step
  | [] => .complete
  | outer => .go .after outer

/-- What a character does behind a member of the innermost frame. -/
def Step.afterMember (c : Char) : List Frame → Step
  | [] => .behindValue
  | f :: outer =>
      if isBlank c then .go .after (f :: outer)
      else if c = ',' then .go (if f = .object then .key else .value) (f :: outer)
      else if c = f.closer then .close outer
      else .fault

/-- What the first character of a value does. -/
def Step.firstOf (c : Char) (frames : List Frame) : Step :=
  match Skip.ofFirst? c with
  | some (s, some f) => .go s (f :: frames)
  | some (s, none) => .go s frames
  | none => .fault

/-- What a character does in each state. -/
def Skip.step (c : Char) (rest : List Char) (frames : List Frame) : Skip → Except Fault Step
  | value => .ok (if isBlank c then .go value frames else .firstOf c frames)
  | first =>
      .ok (if isBlank c then .go first frames
        else match frames with
          | [] => .fault
          | f :: outer =>
              if c = f.closer then .close outer
              else if f = .object then
                if c = '"' then .go (.inString true) frames else .fault
              else .firstOf c frames)
  | key =>
      .ok (if isBlank c then .go key frames
        else if c = '"' then .go (.inString true) frames else .fault)
  | colon =>
      .ok (if isBlank c then .go colon frames
        else if c = ':' then .go value frames else .fault)
  | inString isKey =>
      .ok (if c = '"' then
          if !isKey && frames.isEmpty then .complete else .go (Skip.closeString isKey) frames
        else if c = '\\' then .go (.inEscape isKey) frames
        else if c.toNat < 0x20 then .fault
        else .go (.inString isKey) frames)
  | inEscape isKey =>
      .ok (if c = 'u' then .go (.inCode isKey 0) frames
        else if (simpleEscape? c).isSome then .go (.inString isKey) frames else .fault)
  | inCode isKey read =>
      if (Text.hexValue? c).isSome then
        .ok (if read < 3 then .go (.inCode isKey (read + 1)) frames
          else .go (.inString isKey) frames)
      else .error (badDigit read (c :: rest))
  | inWord (w :: due) => .ok (if w = c then .go (.inWord due) frames else .fault)
  | inWord [] | after => .ok (.afterMember c frames)
  | state =>
      match Skip.ofNumber? c state with
      | some s => .ok (.go s frames)
      | none =>
          .ok (if state.endsNumber && !(isZero state && c.isDigit) then .afterMember c frames
            else .fault)
where
  /-- The state behind a leading zero, where no digit may follow. -/
  isZero : Skip → Bool
    | zero => true
    | _ => false

/-- The end of the text in each state: fine behind a complete value. -/
def Skip.finish (frames : List Frame) : Skip → Except Fault (List Char)
  | sign | point | exponent | exponentSign => .error .malformed
  | after | inWord [] | zero | whole | fraction | exponentDigits =>
      if frames.isEmpty then .ok [] else .error .truncated
  | _ => .error .truncated

/-- Skips to the end of the value: what follows it.  `frames` are the open
brackets, the innermost first. -/
def skipFrom : Skip → (frames : List Frame) → List Char → Except Fault (List Char)
  | state, frames, [] => state.finish frames
  | state, frames, c :: rest =>
      match state.step c rest frames with
      | .ok (.go s fs) => skipFrom s fs rest
      | .ok .complete => .ok rest
      | .ok .behindValue => .ok (c :: rest)
      | .ok .fault => .error .malformed
      | .error f => .error f

/-- Skips a value: what follows it. -/
def skipValue (s : List Char) : Except Fault (List Char) := skipFrom .value [] s

end ImportSplit.JsonText
