/-
  ImportSplit.Grammar.Names
  ────────────────────────────────
  **NAMES, PATTERNS AND PARAMETERS.**

  Which words are names depends on the place: where an expression may start,
  the words that start one are taken; behind a point, every word is a name.
  A modifier such as `static` is one only where a name follows on its line,
  for otherwise it is a name itself.
-/
import ImportSplit.Grammar.Symbol

namespace ImportSplit.Grammar

open Rule

/-! ## §1. Names. -/

/-- The words that mean something of their own where an expression starts. -/
def expressionWords : List String :=
  ["this", "super", "true", "false", "null", "undefined", "function", "class", "new", "typeof",
    "void", "delete", "await", "yield", "import"]

/-- A name where an expression may start. -/
def identifier : ModuleRule := wordBut "identifier" expressionWords

/-- A name behind a point: every word is one. -/
def property : ModuleRule :=
  either (wordBut "property_identifier" []) (token "private_property_identifier" .privateName)

/-- The name of a member of an object or a class. -/
def memberKey : ModuleRule :=
  oneOf [property, token "string" .string, token "number" .number,
    node "computed_property_name" (enclosed "[" "]" (call .expression))]

/-- The name of a member starts behind the gap. -/
def startsKey : ModuleRule :=
  ahead (oneOf [property, token "string" .string, token "number" .number, mark "["])

/-- A word that modifies the member whose name follows. -/
def modifier (word : String) : ModuleRule := row [keyword word, stays false, startsKey]

/-- A word that modifies a member, which may be a generator. -/
def generatorModifier (word : String) : ModuleRule :=
  row [keyword word, stays false, either (ahead (mark "*")) startsKey]

/-- A comma or the closing brace follows. -/
def endsEntry : ModuleRule := ahead (either (mark ",") (mark "\x7d"))

/-! ## §2. Types beside names. -/

/-- `: T`. -/
def typeAnnotation : ModuleRule := node "type_annotation" (row [sign ":", call .type])

/-- `: T`, where types may be annotated. -/
def annotated : ModuleRule := optTyped typeAnnotation

/-- Type parameters, where a dialect has them. -/
def generic : ModuleRule := optTyped (call .typeParameters)

/-- `x is T`. -/
def typePredicate : ModuleRule :=
  node "type_predicate"
    (row [either (keyword "this") (wordBut "identifier" []), stays false, keyword "is",
      call .type])

/-- `asserts x` or `asserts x is T`. -/
def assertsType : ModuleRule :=
  node "asserts"
    (row [keyword "asserts", stays false,
      oneOf [typePredicate, keyword "this", row [notAhead (keyword "is"), anyName]]])

/-- What a function returns: a type, or what it tells of its argument. -/
def returnType : ModuleRule :=
  node "type_annotation" (row [sign ":", oneOf [assertsType, typePredicate, call .type]])

/-! ## §3. Patterns. -/

/-- `= e`. -/
def initializer : ModuleRule := row [sign "=", call .expression]

/-- A pattern, perhaps with a default. -/
def patternWithDefault : ModuleRule :=
  scope (call .pattern ++ opt (wrap "assignment_pattern" initializer))

/-- `...p`. -/
def restPattern : ModuleRule := node "rest_pattern" (row [sign "...", call .pattern])

/-- One entry of an object pattern. -/
def patternEntry : ModuleRule :=
  oneOf [restPattern,
    node "pair_pattern" (row [memberKey, sign ":", patternWithDefault]),
    node "object_assignment_pattern"
      (row [wordBut "shorthand_property_identifier_pattern" [], initializer]),
    wordBut "shorthand_property_identifier_pattern" []]

/-- A pattern that takes a value apart. -/
def destructuring : ModuleRule :=
  either (node "object_pattern" (braced (sparse patternEntry)))
    (node "array_pattern" (enclosed "[" "]" (sparse patternWithDefault)))

/-- A name, a rest, or a pattern that takes a value apart. -/
def pattern : ModuleRule := oneOf [destructuring, restPattern, identifier]

/-! ## §4. Parameters. -/

/-- A name follows that a parameter may bind. -/
def startsParameter : ModuleRule :=
  ahead (oneOf [wordBut "identifier" [], mark "\x7b", mark "[", mark "..."])

/-- A word that modifies a parameter. -/
def parameterModifier : ModuleRule :=
  seq (oneOf (["public", "private", "protected", "override", "readonly"].map keyword))
    startsParameter

/-- The path of a decorator, which may be called. -/
def decoratorPath : ModuleRule :=
  scope (row [identifier, many (wrap "member_expression" (row [sign ".",
      wordBut "property_identifier" []])),
    opt (wrap "call_expression" (row [optTyped (call .typeArguments), call .arguments]))])

/-- `@path`, `@path(…)`, and with types also `@(…)`. -/
def decorator : ModuleRule :=
  node "decorator" (row [sign "@",
    either decoratorPath
      (typed (node "parenthesized_expression" (enclosed "(" ")" (call .expressions))))])

/-- One parameter. -/
def parameter : ModuleRule :=
  either
    (typed (node "required_parameter"
      (row [many decorator, many parameterModifier, either (keyword "this") (call .pattern),
        opt (sign "?"), opt typeAnnotation, opt initializer])))
    (untyped patternWithDefault)

/-- The parameters of a function. -/
def parameters : ModuleRule :=
  node "formal_parameters" (enclosed "(" ")" (opt (listed parameter)))

/-- Parameters, with what they are generic in and what is returned. -/
def signature : ModuleRule := row [generic, call .parameters, optTyped returnType]

end ImportSplit.Grammar
