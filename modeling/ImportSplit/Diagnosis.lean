/-
  ImportSplit.Diagnosis
  ────────────────────────────────
  **WHERE A TEXT STOPS BEING A MODULE.**

  The place that is told for a text that is no module is that of its cheapest
  repair.  A repair works on the first statement that cannot be read, at the
  first piece of it that fits nowhere:

      drop a run of pieces, so that the piece behind them fits:
        500, and 100 for each node, 1 for each byte, 30 for each line end
      add one piece before the one that does not fit:  610

  What is dropped may start earlier than the piece that does not fit, but not
  inside of what was already put together (§3).  A repair that leaves another
  fault behind pays for that one too.
-/
import ImportSplit.Grammar.Reach
import ImportSplit.Source

namespace ImportSplit

/-! ## §1. Places. -/

/-- A place in a text: lines count from one, and columns count bytes from one. -/
structure Position where
  line : Nat
  column : Nat
  deriving Repr, DecidableEq, Inhabited

/-- How many bytes characters take. -/
def byteLength (s : List Char) : Nat := (String.ofList s).utf8ByteSize

/-- The place behind a piece of text. -/
def Position.after (s : List Char) : Position :=
  ⟨s.count '\n' + 1, byteLength (s.reverse.takeWhile (· ≠ '\n')) + 1⟩

/-- A text is no module. -/
structure SyntaxFault where
  position : Position
  deriving Repr, DecidableEq, Inhabited

/-- What is said of the fault. -/
def SyntaxFault.message (f : SyntaxFault) : String :=
  s!"Syntax error at line {f.position.line}, column {f.position.column}"

namespace Grammar

/-! ## §2. Pieces. -/

/-- A piece of a text, from one place to another. -/
structure Piece where
  start : Nat
  stop : Nat
  text : List Char
  deriving Repr, DecidableEq, Inhabited

/-- The longest of the signs at the start of a text, or one character. -/
def signSize (s : List Char) : Nat :=
  (("?." :: Rule.signs).filter fun t => t.toList.isPrefixOf s).foldl
    (fun n t => max n t.length) 1

/-- How long the first piece of a text is, whatever it is good for. -/
def pieceSize (s : List Char) : Nat :=
  (((number.longest? s).orElse fun _ => word.longest? s).orElse fun _ =>
    Lexeme.string.size? s).getD (signSize s)

/-- What is left behind blanks and comments. -/
def behindGap (s : List Char) : List Char := (readGap true s [] s).2

/-- The pieces of a text that starts at the given place. -/
def pieces : (budget : List Char) → (place : Nat) → List Char → List Piece
  | [], _, _ => []
  | _ :: budget, place, s =>
      let s' := behindGap s
      if s'.isEmpty then []
      else
        let start := place + (s.length - s'.length)
        let size := pieceSize s'
        ⟨start, start + size, s'.take size⟩ :: pieces budget (start + size) (s'.drop size)

/-! ## §3. What was put together. -/

/-- What an entry of the row of things that were read can be part of. -/
inductive EntryKind where
  | operand
  | opening (bracket : Char)
  | point
  | statements
  | other
  deriving Repr, DecidableEq, Inhabited

/-- Pieces that were put together, and how many nodes they make. -/
structure Entry where
  start : Nat
  nodes : Nat
  kind : EntryKind
  deriving Repr, DecidableEq, Inhabited

/-- Closes a bracket: all since its opening is one operand, and so is what it
is called on. -/
def closeBracket (c : Char) (start : Nat) (row : List Entry) : List Entry :=
  let isOpening := fun e : Entry => match e.kind with
    | .opening _ => true
    | _ => false
  match row.dropWhile (fun e => !isOpening e) with
  | [] => ⟨start, 1, .other⟩ :: row
  | o :: below =>
      match below with
      | f :: rest =>
          if f.kind = .operand && c != '\x7d' then ⟨f.start, 1, .operand⟩ :: rest
          else ⟨o.start, 1, .operand⟩ :: below
      | [] => [⟨o.start, 1, .operand⟩]

/-- Ends a statement: inside braces it joins those before it. -/
def endStatement (start : Nat) (row : List Entry) : List Entry :=
  let inside := row.takeWhile fun e => match e.kind with
    | .opening _ => false
    | _ => true
  let below := row.drop inside.length
  match below with
  | ⟨_, _, .opening '\x7b'⟩ :: _ =>
      let before := (inside.filter (·.kind = .statements)).map Entry.nodes
      ⟨(inside.getLast?.map Entry.start).getD start, before.foldl (· + ·) 1, .statements⟩ :: below
  | _ => ⟨start, 1, .other⟩ :: row

/-- The words after which an operand starts. -/
def leadingWords : List String :=
  ["if", "for", "while", "switch", "catch", "with", "return", "throw", "case", "function", "new",
    "typeof", "void", "delete", "await", "yield", "in", "of", "instanceof", "else", "do", "let",
    "const", "var", "class", "extends", "export", "default", "async"]

/-- Puts one more piece into the row, whose latest entry comes first. -/
def addPiece (row : List Entry) (p : Piece) : List Entry :=
  match p.text with
  | [c] =>
      if c == '(' || c == '[' || c == '\x7b' then ⟨p.start, 1, .opening c⟩ :: row
      else if c == ')' || c == ']' || c == '\x7d' then closeBracket c p.start row
      else if c == ';' then endStatement p.start row
      else if c == '.' then ⟨p.start, 1, .point⟩ :: row
      else addWord
  | ['?', '.'] => ⟨p.start, 1, .point⟩ :: row
  | _ => addWord
where
  /-- A word joins the operand that a point stands behind. -/
  addWord : List Entry :=
    if (word.longest? p.text).isSome then
      match row with
      | ⟨_, _, .point⟩ :: ⟨start, _, .operand⟩ :: below => ⟨start, 1, .operand⟩ :: below
      | _ =>
          let kind :=
            if leadingWords.contains (String.ofList p.text) then EntryKind.other else .operand
          ⟨p.start, 1, kind⟩ :: row
    else
      let isLiteral := (pieceSize p.text == p.text.length) && p.text.length > 1
        && (Lexeme.string.size? p.text).isSome || (number.longest? p.text).isSome
      ⟨p.start, 1, if isLiteral then .operand else .other⟩ :: row

/-! ## §4. Trying a repaired text. -/

/-- What comes of a repaired text. -/
inductive Trial where
  /-- The piece behind the repair does not fit either. -/
  | refused
  /-- It fits, but something else does not. -/
  | partly
  /-- Its statement can be read. -/
  | whole
  deriving Repr, DecidableEq, Inhabited

/-- Reads one statement. -/
def readStatement (c : Context) (s : List Char) : Outcome :=
  read rule (depthFor s) .statement c [] s

/-- How far one statement can be read. -/
def reachStatement (c : Context) (s : List Char) : Nat :=
  reach rule (depthFor s) .statement c [] s

/-- Reads statements until no more than `goal` characters are left. -/
def tryReading (c : Context) (goal : Nat) : (budget : List Char) → List Char → Trial
  | [], _ => .refused
  | _ :: budget, s =>
      match readStatement c s with
      | .done _ rest =>
          if rest.length ≤ goal then .whole
          else if rest.length < s.length then tryReading c goal budget rest else .refused
      | _ => if reachStatement c s ≤ goal then .partly else .refused

/-- The text from the first statement on that cannot be read. -/
def fromFault (c : Context) : (budget : List Char) → List Char → List Char
  | [], s => s
  | _ :: budget, s =>
      match readStatement c s with
      | .done _ rest => if rest.length < s.length then fromFault c budget rest else s
      | _ => behindGap s

/-- Tries a text that was cut and joined before `rest`, of which `goal`
characters are left behind its first piece. -/
def tryJoined (c : Context) (before rest : List Char) (goal : Nat) : Trial × List Char :=
  let joined := before ++ ' ' :: rest
  let c := { c with seam := some (rest.length + 1) }
  (tryReading c goal joined joined, joined)

/-! ## §5. Repairs. -/

/-- Where a repair is made, and its price. -/
structure Repair where
  place : Nat
  price : Nat
  deriving Repr, DecidableEq, Inhabited

/-- The cheaper repair; of equal ones the first. -/
def Repair.cheaper (a b : Repair) : Repair := if b.price < a.price then b else a

/-- The price of dropping these characters, which make up the given number of
nodes. -/
def dropPrice (nodes : Nat) (s : List Char) : Nat :=
  500 + 100 * nodes + byteLength s + 30 * s.count '\n'

/-- Pieces that may be missing, each of which completes something. -/
def missingPieces : List String := ["x", ")", "]", "\x7d", ";"]

section
variable (price : List Char → Nat) (c : Context) (isFirst : Bool) (s : List Char)

/-- The price of what is left to repair after a trial. -/
def restPrice (t : Trial) (joined : List Char) : Option Nat :=
  match t with
  | .refused => none
  | .partly => some (price joined)
  | .whole => some 0

/-- The text before an entry. -/
def textBefore (all : List Piece) (start : Nat) : List Char :=
  s.take (((all.filter (·.stop ≤ start)).getLast?.map Piece.stop).getD 0)

/-- The piece that may be missing before the one that does not fit, with the
price of adding it. -/
def missing? (all : List Piece) (p : Piece) : Option (String × Nat) :=
  let before := textBefore s all p.start
  if before.isEmpty then none
  else missingPieces.findSome? fun m =>
    let (t, joined) :=
      tryJoined c (before ++ m.toList) (s.drop p.start) (s.length - p.stop)
    (restPrice price t joined).map fun rest => (m, 610 + rest)

/-- An expression ends here. -/
def endsExpression (before : List Char) : Bool :=
  (tryJoined c before ['+', ' ', 'x'] 2).1 ≠ .refused

/-- What dropping from an entry on would restore is what adding the missing
piece leads to as well, so that the two are not told apart. -/
def isCovered (all : List Piece) (missing : Option (String × Nat)) (start : Nat) : Bool :=
  match missing with
  | none => false
  | some (m, _) =>
      if start = 0 then m == ";" && !isFirst
      else m != ";" && endsExpression c (textBefore s all start)

/-- Drops from the latest entry on, and up to the piece `r`, for which that
piece fits. -/
def dropUpTo? (all : List Piece) (missing : Option (String × Nat)) (p r : Piece)
    (skipped : Nat) : (row : List Entry) → (nodes : Nat) → Option Repair
  | [], _ => none
  | e :: below, nodes =>
      let nodes := nodes + e.nodes
      let again := dropUpTo? all missing p r skipped below nodes
      if r.start = p.start ∧ (e.start = p.start ∨ isCovered c isFirst s all missing e.start) then
        again
      else
        let (t, joined) :=
          tryJoined c (textBefore s all e.start) (s.drop r.start) (s.length - r.stop)
        match restPrice price t joined with
        | none => again
        | some rest =>
            let dropped := textBefore s all r.start
            some ⟨e.start, dropPrice (nodes + skipped) (dropped.drop e.start) + rest⟩

/-- Drops everything. -/
def dropAll (all : List Piece) : Repair :=
  ⟨0, dropPrice all.length (s.take ((all.getLast?.map Piece.stop).getD 0))⟩

/-- The cheapest repair at a piece that does not fit, with the row of what was
put together before it. -/
def repairAt (all : List Piece) (p : Piece) (row : List Entry) : Repair :=
  let missing := missing? price c s all p
  let later := (all.filter fun r => p.start ≤ r.start).take 12
  let row := ⟨p.start, 0, .other⟩ :: row
  let drops := later.zipIdx.filterMap fun (r, skipped) =>
    dropUpTo? price c isFirst s all missing p r skipped row 0
  let additions := missing.toList.map fun (_, price) =>
    ⟨((all.filter (·.stop ≤ p.start)).getLast?.map Piece.stop).getD 0, price⟩
  match drops ++ additions with
  | [] => dropAll s all
  | r :: rest => (rest.foldl Repair.cheaper r).cheaper (dropAll s all)

/-- A literal is opened here that is not closed on its line. -/
def opensLiteral (t : List Char) : Bool :=
  match t with
  | c :: _ =>
      (c == '"' || c == '\'' || c == '/' || c == '\x60')
        && (Lexeme.string.size? t).isNone && (Lexeme.regex.size? t).isNone
  | [] => false

/-- The cheapest repair of a text whose first statement cannot be read.  A
literal that is opened and not closed takes the rest of its line. -/
def repairStatement : Repair :=
  let all := pieces s 0 s
  let far := s.length - reachStatement c s
  let opened :=
    if opensLiteral (s.drop far) then
      far + ((s.drop far).takeWhile (· ≠ '\n')).length
    else far
  match all.find? fun p => opened < p.stop with
  | none => dropAll s all
  | some p =>
      repairAt price c isFirst s all p ((all.filter (·.stop ≤ p.start)).foldl addPiece [])

end

/-- The cheapest repair; `depth` bounds how many faults are paid for. -/
def repair (c : Context) : (depth : Nat) → (isFirst : Bool) → List Char → Repair
  | 0, _, _ => ⟨0, 600⟩
  | depth + 1, isFirst, s =>
      repairStatement (fun t => (repair c depth false (fromFault c t t)).price) c isFirst s

/-- Where a text that is no module has its fault. -/
def faultPlace (d : Dialect) (s : List Char) : Nat :=
  match readModule d s with
  | .done row rest =>
      let isFirst := (Part.nodes row).all fun n => n.kind == "comment" || n.kind == "html_comment"
      s.length - rest.length + (repair { dialect := d } 3 isFirst rest).place
  | _ => 0

end Grammar

/-! ## §6. Modules with their faults. -/

/-- The module that a text is, or where it fails to be one. -/
def Program.ofSource (d : Dialect) (source : String) : Except SyntaxFault Program :=
  match Program.ofSource? d source with
  | some p => .ok p
  | none => .error ⟨.after (source.toList.take (Grammar.faultPlace d source.toList))⟩

end ImportSplit
