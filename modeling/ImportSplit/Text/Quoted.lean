/-
  ImportSplit.Text.Quoted
  ────────────────────────────────
  **DOUBLE-QUOTED STRING LITERALS.**

  `quote` writes any text as a literal between double quotes: a quote, a
  backslash and a line feed take a backslash, every other control character
  is written by its code in braces, and all else stands for itself.
  `unescape` reads the inside of such a literal back.

      quote "a\"b" = "\"a\\\"b\""

  Control characters are those of the category Cc: the codes below 20 and
  those from 7f to 9f (hexadecimal).
-/

namespace ImportSplit.Text

/-- The control characters: codes 0 to 1f and 7f to 9f. -/
def isControl (c : Char) : Bool :=
  c.toNat < 0x20 || (0x7f ≤ c.toNat && c.toNat < 0xa0)

/-- The hexadecimal digit of a number below sixteen, in lower case. -/
def hexDigit (n : Nat) : Char :=
  if n < 10 then Char.ofNat (48 + n) else Char.ofNat (87 + n)

/-- The value of a hexadecimal digit, in either case. -/
def hexValue? (c : Char) : Option Nat :=
  if '0' ≤ c ∧ c ≤ '9' then some (c.toNat - 48)
  else if 'a' ≤ c ∧ c ≤ 'f' then some (c.toNat - 87)
  else if 'A' ≤ c ∧ c ≤ 'F' then some (c.toNat - 55)
  else none

/-- A control code in hexadecimal: two digits at most, and no leading zero. -/
def controlHex (n : Nat) : List Char :=
  if n < 16 then [hexDigit n] else [hexDigit (n / 16), hexDigit (n % 16)]

/-! ## §1. Writing. -/

/-- How one character stands inside a literal. -/
def escape (c : Char) : List Char :=
  if c = '"' then ['\\', '"']
  else if c = '\\' then ['\\', '\\']
  else if c = '\n' then ['\\', 'n']
  else if isControl c then ['\\', 'u', '\x7b'] ++ controlHex c.toNat ++ ['\x7d']
  else [c]

/-- The text as a literal between double quotes. -/
def quote (s : String) : String :=
  String.ofList ('"' :: s.toList.flatMap escape ++ ['"'])

/-! ## §2. Reading. -/

/-- What an escape of the given first character stands for, when it is one of
the two-character escapes that `quote` writes. -/
def simpleEscape? (c : Char) : Option Char :=
  if c = '"' then some '"'
  else if c = '\\' then some '\\'
  else if c = 'n' then some '\n'
  else none

/-- Where the reading of a literal's inside stands. -/
inductive Reading where
  /-- Between characters. -/
  | plain
  /-- Behind a backslash. -/
  | escaped
  /-- Behind a backslash and `u`. -/
  | coded
  /-- Behind the brace that opens a code: its first digit is due. -/
  | brace
  /-- Inside the braces of a code, with its value so far. -/
  | digits (value : Nat)

/-- Reads the inside of a literal; `none` where it is no such text, or where a
code is that of no character. -/
def unescapeFrom : Reading → List Char → Option (List Char)
  | .plain, [] => some []
  | _, [] => none
  | .plain, c :: rest =>
      if c = '\\' then unescapeFrom .escaped rest
      else if c = '"' ∨ c = '\n' ∨ c = '\r' then none
      else (unescapeFrom .plain rest).map (c :: ·)
  | .escaped, c :: rest =>
      if c = 'u' then unescapeFrom .coded rest
      else match simpleEscape? c with
        | some d => (unescapeFrom .plain rest).map (d :: ·)
        | none => none
  | .coded, c :: rest => if c = '\x7b' then unescapeFrom .brace rest else none
  | .brace, c :: rest =>
      match hexValue? c with
      | some d => unescapeFrom (.digits d) rest
      | none => none
  | .digits n, c :: rest =>
      if c = '\x7d' then
        if n.isValidChar then (unescapeFrom .plain rest).map (Char.ofNat n :: ·) else none
      else match hexValue? c with
        | some d => unescapeFrom (.digits (16 * n + d)) rest
        | none => none

/-- The text that the inside of a double-quoted literal stands for. -/
def unescape (inside : List Char) : Option (List Char) :=
  unescapeFrom .plain inside

end ImportSplit.Text
