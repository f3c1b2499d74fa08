/-
  ImportSplit.Grammar.Symbol
  ────────────────────────────────
  **THE NAMED RULES OF A MODULE.**

  A rule that may occur inside itself is called by name.  The rules without a
  name, such as the list of declarators or the head of a loop, stand directly
  in the rules that use them.
-/
import ImportSplit.Grammar.Rule

namespace ImportSplit.Grammar

/-- The names of the rules that may occur inside themselves. -/
inductive Symbol where
  /-- A statement, behind its gap. -/
  | statement
  /-- Statements in braces. -/
  | block
  /-- The declarators of a declaration, to the end of the statement. -/
  | declarators
  /-- One expression. -/
  | expression
  /-- Expressions with commas between them. -/
  | expressions
  /-- What stands between two operators. -/
  | operand
  /-- What may be called, or accessed by a member. -/
  | chain
  | arguments
  | object
  | template
  | element
  /-- What a parameter or a variable binds. -/
  | pattern
  | parameters
  | classBody
  | type
  /-- A type that needs no brackets between `|` and `&`. -/
  | typeOperand
  | typeArguments
  | typeParameters
  | objectType
  deriving Repr, DecidableEq

/-- A rule of a module. -/
abbrev ModuleRule := Rule Symbol

end ImportSplit.Grammar
