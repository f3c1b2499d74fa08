/-
  ImportSplit.Grammar.Expressions
  ────────────────────────────────
  **EXPRESSIONS.**

      expression  — operands with operators between them, and `c ? a : b`
      operand     — a chain with the operators before it, or an assignment
      chain       — a base with members, calls and templates behind it

  A chain leans left: each suffix folds what was read before it.  Operators
  between operands are not told apart by rank, for no rank changes which
  accesses there are.  Nothing goes on where the statement ends of itself: behind
  a line end and a blank that is not of ASCII no point is looked for.
-/
import ImportSplit.Grammar.Build
import ImportSplit.Grammar.Functions

namespace ImportSplit.Grammar

open Rule

/-! ## §1. Objects, arrays and templates. -/

/-- `...e`. -/
def spread : ModuleRule := node "spread_element" (row [sign "...", call .expression])

/-- One entry of an object. -/
def objectEntry : ModuleRule :=
  oneOf [spread, method,
    node "pair" (row [memberKey, sign ":", call .expression]),
    node "object_assignment_pattern"
      (row [wordBut "shorthand_property_identifier_pattern" [], initializer]),
    wordBut "shorthand_property_identifier" []]

/-- An object. -/
def object : ModuleRule := node "object" (braced (sparse objectEntry))

/-- Arguments of a call, or entries of an array. -/
def items : ModuleRule := sparse (either spread (call .expression))

/-- An array. -/
def array : ModuleRule := node "array" (enclosed "[" "]" items)

/-- The arguments of a call. -/
def arguments : ModuleRule := node "arguments" (enclosed "(" ")" items)

/-- A template between backquotes. -/
def template : ModuleRule :=
  node "template_string"
    (row [glued "\x60",
      many (oneOf [leaf "string_fragment" .templateText, leaf "escape_sequence" .escape,
        node "template_substitution"
          (row [glued "$\x7b", within Context.bracketed (call .expressions), mark "\x7d"])]),
      glued "\x60"])

/-- `( … )`. -/
def parenthesized : ModuleRule :=
  node "parenthesized_expression"
    (enclosed "(" ")" (row [call .expressions, annotated]))

/-! ## §2. Chains. -/

/-- A keyword that is an expression by itself. -/
def constantWord : ModuleRule :=
  oneOf (["this", "super", "true", "false", "null", "undefined"].map keyword)

/-- `new.target` and `import.meta`. -/
def metaProperty : ModuleRule :=
  node "meta_property"
    (either (row [keyword "new", sign ".", keyword "target"])
      (row [keyword "import", sign ".", keyword "meta"]))

/-- The bases of a chain that are no arrow functions. -/
def plainBase : ModuleRule :=
  oneOf [functionExpression, identifier, constantWord, token "number" .number,
    token "string" .string, call .template, token "regex" .regex, call .object, array,
    parenthesized, classExpression, metaProperty,
    row [keyword "import", ahead (either (mark "(") (mark "."))],
    seq (given fun c => c.dialect.hasMarkup) (call .element)]

/-- `?.`, unless a digit follows. -/
def optionalSign : ModuleRule :=
  seq (notAhead (row [mark "?", ahead (leaf "number" .number)])) (token "optional_chain"
    (.sign ['?', '.'] []))

/-- `.name` and `?.name`. -/
def memberSuffix : ModuleRule :=
  wrap "member_expression" (row [either (sign ".") optionalSign, property])

/-- `[e]` and `?.[e]`. -/
def subscriptSuffix : ModuleRule :=
  wrap "subscript_expression"
    (row [opt optionalSign, enclosed "[" "]" (call .expressions)])

/-- A template behind its tag. -/
def templateSuffix : ModuleRule := wrap "call_expression" (call .template)

/-- `e!`. -/
def nonNullSuffix : ModuleRule :=
  typed (wrap "non_null_expression" (row [stays true, sign "!"]))

/-- Type arguments of an expression. -/
def expressionTypeArguments : ModuleRule :=
  typed (node "type_arguments"
    (row [sign "<", within Context.bracketed (listed (call .type)), sign ">"]))

/-- `(…)`, `<T>(…)` and `?.(…)`. -/
def callSuffix : ModuleRule :=
  wrap "call_expression"
    (row [opt optionalSign, opt expressionTypeArguments, call .arguments])

/-- `<T>` with nothing behind it that could be compared. -/
def instantiationSuffix : ModuleRule :=
  wrap "instantiation_expression"
    (row [expressionTypeArguments, notAhead (call .operand)])

/-- What `new` is applied to: a chain without calls, then perhaps arguments. -/
def constructed : ModuleRule :=
  row [scope (row [oneOf [metaProperty, plainBase],
      many (oneOf [memberSuffix, subscriptSuffix, templateSuffix, nonNullSuffix])]),
    opt expressionTypeArguments, opt (call .arguments)]

/-- `new C(…)`, where `C` may be another `new` expression. -/
def newExpression : ModuleRule :=
  node "new_expression"
    (row [notAhead metaProperty, keyword "new",
      many (seq (notAhead metaProperty) (keyword "new")), constructed])

/-- What a chain starts with. -/
def chainBase : ModuleRule := oneOf [arrowFunction, newExpression, plainBase]

/-- What a chain goes on with, where the statement does not end before it. -/
def chainSuffix : ModuleRule :=
  row [stays true, oneOf [memberSuffix, callSuffix, subscriptSuffix, templateSuffix,
    nonNullSuffix, instantiationSuffix]]

/-- A chain. -/
def chain : ModuleRule := scope (row [chainBase, many chainSuffix])

/-! ## §3. Operands. -/

/-- The signs of assignments that use the old value. -/
def updateSigns : List String :=
  ["+=", "-=", "*=", "/=", "%=", "^=", "&=", "|=", ">>=", ">>>=", "<<=", "**=", "&&=", "||=",
    "??="]

/-- `= e` behind what can be assigned to. -/
def assignmentSuffix : ModuleRule :=
  either
    (wrap "assignment_expression" (row [holds Node.isAssignable, initializer]))
    (wrap "augmented_assignment_expression"
      (row [holds Node.isUpdatable, oneOf (updateSigns.map sign), call .expression]))

/-- `x++` on the line of `x`. -/
def updateSuffix : ModuleRule :=
  wrap "update_expression" (row [stays true, either (sign "++") (sign "--")])

/-- An operator before its operand. -/
def unary : ModuleRule :=
  node "unary_expression"
    (row [oneOf [sign "!", sign "~", sign "-", sign "+", keyword "typeof", keyword "void",
      keyword "delete"], call .operand])

/-- `yield e`, `yield* e`. -/
def yielded : ModuleRule :=
  node "yield_expression"
    (row [keyword "yield",
      either (row [sign "*", call .expression]) (opt (row [stays true, call .expression]))])

/-- `<T>e`, where no elements stand in expressions. -/
def typeAssertion : ModuleRule :=
  seq (given fun c => c.dialect.hasTypes && !c.dialect.hasMarkup)
    (node "type_assertion" (row [call .typeArguments, call .operand]))

/-- `namespace N { … }`, which is an expression. -/
def moduleName : ModuleRule :=
  either (token "string" .string)
    (scope (row [anyName,
      many (wrap "nested_identifier" (row [sign ".", wordBut "property_identifier" []]))]))

/-- `namespace N { … }`. -/
def internalModule : ModuleRule :=
  node "internal_module"
    (row [keyword "namespace", stays true, moduleName, call .block])

/-- An operand. -/
def operand : ModuleRule :=
  oneOf
    [unary,
      node "update_expression" (row [either (sign "++") (sign "--"), call .operand]),
      node "await_expression" (row [keyword "await", call .operand]),
      yielded,
      scope (row [call .chain, opt updateSuffix, opt (row [stays true, assignmentSuffix])]),
      typeAssertion,
      row [token "private_property_identifier" .privateName, ahead (keyword "in")]]

/-! ## §4. Operators. -/

/-- The signs between two operands. -/
def binarySigns : List String :=
  ["&&", "||", ">>", ">>>", "<<", "&", "^", "|", "+", "-", "*", "/", "%", "**", "<", "<=", "==",
    "===", "!=", "!==", ">=", ">", "??"]

/-- An operator between two operands. -/
def binaryOperator : ModuleRule :=
  either (oneOf (binarySigns.map sign))
    (either (keyword "instanceof") (row [given Context.hasIn, keyword "in"]))

/-- What may follow an operand. -/
def operatorSuffix : ModuleRule :=
  oneOf
    [wrap "binary_expression" (row [binaryOperator, call .operand]),
      typed (wrap "as_expression"
        (row [stays true, keyword "as", either (keyword "const") (call .type)])),
      typed (wrap "satisfies_expression" (row [stays true, keyword "satisfies", call .type]))]

/-- The question mark of a condition.  `?.` is one only before a digit, and
with types a colon, comma or bracket behind it shows an optional parameter. -/
def questionMark : ModuleRule :=
  row [token "?" (.sign ['?'] [['?']]),
    either (notAhead (glued ".")) (ahead (leaf "number" .number)),
    either (untyped nothing) (notAhead (oneOf [mark ":", mark ")", mark ","]))]

/-- `? a : b`.  Before the colon an arrow function with a stated result is
tried first, and given up if the colon is missing then. -/
def ternarySuffix : ModuleRule :=
  wrap "ternary_expression"
    (row [questionMark,
      either (typed (row [within Context.unending (call .expression), ahead (sign ":")]))
        (within Context.beforeColon (call .expression)),
      sign ":", call .expression])

/-- One expression. -/
def expression : ModuleRule :=
  seq (gap true) (scope (row [call .operand, many (row [stays true, operatorSuffix]),
    opt (row [stays true, ternarySuffix])]))

/-- `, a, b`. -/
def sequenceSuffix : ModuleRule :=
  wrap "sequence_expression" (row [sign ",", separated (call .expression)])

/-- Expressions with commas between them. -/
def expressions : ModuleRule :=
  scope (row [call .expression, opt (row [stays true, sequenceSuffix])])

end ImportSplit.Grammar
