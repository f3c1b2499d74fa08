/-
  ImportSplit.Grammar.Whole
  ────────────────────────────────
  **THE GRAMMAR OF A MODULE.**

  `rule` gives every named rule its meaning, and `wholeModule` is a module:
  perhaps a line `#!…`, and statements.
-/
import ImportSplit.Grammar.Statements

namespace ImportSplit.Grammar

/-- What the named rules mean. -/
def rule : Symbol → ModuleRule
  | .statement => statement
  | .block => block
  | .declarators => declarators
  | .expression => expression
  | .expressions => expressions
  | .operand => operand
  | .chain => chain
  | .arguments => arguments
  | .object => object
  | .template => template
  | .element => element
  | .pattern => pattern
  | .parameters => parameters
  | .classBody => classBody
  | .type => type
  | .typeOperand => typeOperand
  | .typeArguments => typeArguments
  | .typeParameters => typeParameters
  | .objectType => objectType

/-- A module. -/
def wholeModule : ModuleRule :=
  .seq (.gap true) (.seq (.opt (.leaf "hash_bang_line" .hashbang)) statements)

end ImportSplit.Grammar
