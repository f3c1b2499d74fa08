/-
  ImportSplit.Grammar.Rule
  ────────────────────────────────
  **RULES OF A GRAMMAR.**

  A rule describes how a piece of a module is written and which nodes it
  makes.  Rules are data: tokens, sequences, ordered choices, repetitions,
  and calls of named rules, so that what holds of the reading of every rule
  is shown once, by induction on rules.

      leaf kind lexeme   — one token
      scope r, wrap k r  — what `r` reads becomes parts of one node of kind k

  `scope` starts a fresh row of parts, and `wrap` folds all parts of the row
  into one node.  So `scope (operand ++ many (wrap k suffix))` makes a chain
  of nodes that leans left, as in `a.b.c`.
-/
import ImportSplit.Grammar.Lexeme
import ImportSplit.Grammar.Semicolon
import ImportSplit.Tree

namespace ImportSplit.Grammar

/-- What a rule has to know of its surroundings. -/
structure Context where
  dialect : Dialect
  /-- A statement may end behind an operand. -/
  mayEnd : Bool := true
  /-- The word `in` is an operator. -/
  hasIn : Bool := true
  /-- An arrow function may state the type that it returns. -/
  hasReturnTypes : Bool := true
  /-- With this many characters left no statement ends of itself: there a text
  was cut and joined again. -/
  seam : Option Nat := none

namespace Context

/-- Inside brackets, where no statement can end. -/
def bracketed (c : Context) : Context :=
  { c with mayEnd := false, hasIn := true, hasReturnTypes := true }

/-- In a statement of its own. -/
def fresh (c : Context) : Context :=
  { c with mayEnd := true, hasIn := true, hasReturnTypes := true }

/-- In a place that a colon ends. -/
def beforeColon (c : Context) : Context :=
  { c with mayEnd := false, hasReturnTypes := false }

/-- In the head of a loop, where `in` is no operator. -/
def withoutIn (c : Context) : Context :=
  { c with mayEnd := false, hasIn := false }

/-- How many characters of blanks and comments belong to the statement that
ends here of itself. -/
def absorbed? (c : Context) (operators : Bool) (s : List Char) : Option Nat :=
  if c.seam.elim false (· == s.length) then none
  else Semicolon.absorbed? c.dialect operators s

/-- Inside an expression that goes on over line ends. -/
def unending (c : Context) : Context := { c with mayEnd := false }

end Context

/-- A rule of a grammar whose named rules are `ν`. -/
inductive Rule (ν : Type) where
  /-- Takes nothing. -/
  | nothing
  /-- Takes one token, right here. -/
  | leaf (kind : String) (lexeme : Lexeme)
  /-- Takes blanks and comments; those that start or end with a markup comment
  sign only where they are asked for. -/
  | gap (withMarkup : Bool)
  /-- The statement ends here without a semicolon; takes the comments that
  belong to it. -/
  | ends (operators : Bool)
  /-- No statement ends here. -/
  | stays (operators : Bool)
  | seq (first second : Rule ν)
  /-- The second rule is tried where the first one refuses. -/
  | either (first second : Rule ν)
  /-- As often as it can be. -/
  | many (r : Rule ν)
  /-- Behind the gap, a fresh row of parts. -/
  | scope (r : Rule ν)
  /-- Folds the row of parts into one node. -/
  | wrap (kind : String) (r : Rule ν)
  | call (name : ν)
  /-- Takes nothing; the rule could be read here. -/
  | ahead (r : Rule ν)
  /-- Takes nothing; the rule could not be read here. -/
  | notAhead (r : Rule ν)
  /-- Takes nothing; the last part is a node with the property. -/
  | holds (p : Node → Bool)
  /-- Takes nothing; the surroundings have the property. -/
  | given (p : Context → Bool)
  /-- In changed surroundings. -/
  | within (f : Context → Context) (r : Rule ν)

namespace Rule

variable {ν : Type}

instance : Append (Rule ν) := ⟨seq⟩
instance : OrElse (Rule ν) := ⟨fun a b => either a (b ())⟩

/-- The rule, or nothing. -/
def opt (r : Rule ν) : Rule ν := either r nothing

/-- The first of the rules that can be read. -/
def oneOf : List (Rule ν) → Rule ν
  | [] => given fun _ => false
  | [r] => r
  | r :: rest => either r (oneOf rest)

/-- The rules one after the other. -/
def row : List (Rule ν) → Rule ν
  | [] => nothing
  | [r] => r
  | r :: rest => seq r (row rest)

/-- A node of its own, behind the gap. -/
def node (kind : String) (r : Rule ν) : Rule ν := scope (wrap kind r)

/-- One token, behind the gap. -/
def token (kind : String) (lexeme : Lexeme) : Rule ν := seq (gap false) (leaf kind lexeme)

/-- The signs of a module, of which the longest at a place counts. -/
def signs : List String :=
  ["<=", ">=", "==", "!=", "===", "!==", "**", "++", "--", "<<", ">>", ">>>", "&&", "||", "??",
    "+=", "-=", "*=", "/=", "%=", "**=", "<<=", ">>=", ">>>=", "&=", "|=", "^=", "&&=", "||=",
    "??=", "=>", "..."]

/-- How the sign may not go on. -/
def continuations (s : String) : List (List Char) :=
  signs.filterMap fun t =>
    if s.toList.isPrefixOf t.toList && s.length < t.length then some (t.toList.drop s.length)
    else none

/-- A sign, if no longer one stands there. -/
def sign (s : String) : Rule ν := token s (.sign s.toList (continuations s))

/-- These characters, whatever follows. -/
def mark (s : String) : Rule ν := token s (.sign s.toList [])

/-- These characters, right here. -/
def glued (s : String) : Rule ν := leaf s (.sign s.toList [])

/-- A keyword. -/
def keyword (s : String) : Rule ν := token s (.keyword s.toList)

/-- Any word but these. -/
def wordBut (kind : String) (besides : List String) : Rule ν :=
  token kind (.name (besides.map String.toList))

/-- Any word, as a name. -/
def anyName : Rule ν := wordBut "identifier" []

/-- Only in a dialect with types. -/
def typed (r : Rule ν) : Rule ν := seq (given fun c => c.dialect.hasTypes) r

/-- Only in a dialect without types. -/
def untyped (r : Rule ν) : Rule ν := seq (given fun c => !c.dialect.hasTypes) r

/-- The rule or nothing, and nothing in a dialect without types. -/
def optTyped (r : Rule ν) : Rule ν := opt (typed r)

/-- Items with a comma between each two. -/
def separated (item : Rule ν) : Rule ν := seq item (many (seq (sign ",") item))

/-- Items with commas between and perhaps behind them. -/
def listed (item : Rule ν) : Rule ν := seq (separated item) (opt (sign ","))

/-- Items with commas between them, any of which may be missing. -/
def sparse (item : Rule ν) : Rule ν := seq (opt item) (many (seq (sign ",") (opt item)))

/-- The end of a statement: a semicolon, written or not. -/
def semicolon (operators : Bool) : Rule ν := either (ends operators) (sign ";")

/-- Inside the two brackets. -/
def enclosed (opening closing : String) (r : Rule ν) : Rule ν :=
  row [mark opening, within Context.bracketed r, mark closing]

/-- Inside braces. -/
def braced (r : Rule ν) : Rule ν := enclosed "\x7b" "\x7d" r

end Rule

end ImportSplit.Grammar
