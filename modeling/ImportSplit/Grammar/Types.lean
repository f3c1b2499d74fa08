/-
  ImportSplit.Grammar.Types
  ────────────────────────────────
  **TYPES.**

      type         — operands with `|` and `&` between them, and conditions
      typeOperand  — a function type, an operator, or a base with `[…]` behind
      objectType   — members in braces

  The name of a type is no access, whatever points it has.  After `typeof`
  stands an expression, in which the innermost `a.b` is an access.
-/
import ImportSplit.Grammar.Expressions

namespace ImportSplit.Grammar

open Rule

/-! ## §1. Parameters and arguments. -/

/-- `T`, `T extends U`, `T = V`. -/
def typeParameter : ModuleRule :=
  node "type_parameter"
    (row [opt (row [keyword "const", ahead (wordBut "identifier" [])]),
      wordBut "type_identifier" [],
      opt (row [either (keyword "extends") (sign ":"), call .type]),
      opt (row [sign "=", call .type])])

/-- `<T, U>` where functions and types are declared. -/
def typeParameters : ModuleRule :=
  node "type_parameters" (enclosed "<" ">" (listed typeParameter))

/-- `<T, U>` behind the name of a type. -/
def typeArguments : ModuleRule :=
  node "type_arguments" (enclosed "<" ">" (listed (call .type)))

/-! ## §2. Names and queries. -/

/-- Words that start a type and are no names there. -/
def typeWords : List String :=
  ["typeof", "keyof", "readonly", "infer", "new", "this", "true", "false", "null", "undefined",
    "import", "void", "const"]

/-- `a.b.C`, perhaps with arguments. -/
def typeName : ModuleRule :=
  scope (row [wordBut "type_identifier" typeWords,
    many (wrap "nested_type_identifier" (row [sign ".", wordBut "type_identifier" []])),
    opt (wrap "generic_type" (call .typeArguments))])

/-- A path of which the first step is an access. -/
def queriedPath : ModuleRule :=
  row [opt (wrap "member_expression" (row [either (sign ".") optionalSign, property])),
    many (wrap "queried_member" (row [either (sign ".") optionalSign, property]))]

/-- `typeof a.b`, `typeof a["b"]`, `typeof f(…)`, `typeof a<T>`. -/
def typeQuery : ModuleRule :=
  node "type_query"
    (row [keyword "typeof",
      scope (row [oneOf [keyword "this", keyword "import", wordBut "identifier" []],
        many (oneOf
          [wrap "subscript_expression"
            (row [stays false, opt optionalSign, enclosed "[" "]"
              (oneOf [token "string" .string, token "number" .number,
                wordBut "predefined_type" []])]),
            wrap "call_expression" (row [stays false, call .arguments])]),
        queriedPath,
        many (oneOf
          [wrap "subscript_expression"
            (row [stays false, opt optionalSign, enclosed "[" "]"
              (oneOf [token "string" .string, token "number" .number,
                wordBut "predefined_type" []])]),
            wrap "call_expression" (row [stays false, call .arguments])]),
        opt (wrap "instantiation_expression" (call .typeArguments))])])

/-- `import("…")`, perhaps with a path. -/
def importedType : ModuleRule :=
  scope (row [wrap "call_expression" (row [keyword "import", call .arguments]), queriedPath,
    opt (wrap "generic_type" (call .typeArguments))])

/-! ## §3. Operands. -/

/-- A literal as a type. -/
def literalType : ModuleRule :=
  oneOf
    [token "number" .number, token "string" .string,
      node "unary_expression" (row [either (sign "-") (sign "+"), token "number" .number]),
      oneOf (["true", "false", "null", "undefined", "void", "this", "const"].map keyword),
      row [keyword "unique", keyword "symbol"]]

/-- A template as a type. -/
def templateType : ModuleRule :=
  node "template_literal_type"
    (row [glued "\x60",
      many (oneOf [leaf "string_fragment" .templateText, leaf "escape_sequence" .escape,
        node "template_type"
          (row [glued "$\x7b", within Context.bracketed (call .type), mark "\x7d"])]),
      glued "\x60"])

/-- One member of a tuple. -/
def tupleMember : ModuleRule :=
  oneOf
    [node "required_parameter"
      (row [opt (sign "..."), wordBut "identifier" [], opt (sign "?"), typeAnnotation]),
      node "rest_type" (row [sign "...", call .type]),
      scope (row [call .type, opt (wrap "optional_type" (sign "?"))])]

/-- `[T, U]`. -/
def tupleType : ModuleRule := node "tuple_type" (enclosed "[" "]" (opt (listed tupleMember)))

/-- `(T)`. -/
def parenthesizedType : ModuleRule := node "parenthesized_type" (enclosed "(" ")" (call .type))

/-- `[]` and `[K]` behind a type. -/
def indexSuffix : ModuleRule :=
  either (wrap "array_type" (row [stays false, mark "[", mark "]"]))
    (wrap "lookup_type" (row [stays false, enclosed "[" "]" (call .type)]))

/-- A type that neither starts with an operator nor is one of a function. -/
def primaryType : ModuleRule :=
  scope (row
    [oneOf [literalType, typeQuery, importedType, typeName, call .objectType, tupleType,
      parenthesizedType, templateType, sign "*"],
      many indexSuffix])

/-- `(x: T) => U` and `new (x: T) => U`. -/
def functionType : ModuleRule :=
  either
    (node "function_type"
      (row [opt (call .typeParameters), call .parameters, sign "=>",
        oneOf [assertsType, typePredicate, call .type]]))
    (node "constructor_type"
      (row [opt (keyword "abstract"), keyword "new", opt (call .typeParameters),
        call .parameters, sign "=>", call .type]))

/-- An operand of `|` and `&`. -/
def typeOperand : ModuleRule :=
  oneOf
    [functionType,
      node "index_type_query" (row [keyword "keyof", call .typeOperand]),
      node "readonly_type" (row [keyword "readonly", call .typeOperand]),
      node "infer_type"
        (row [keyword "infer", wordBut "type_identifier" [],
          opt (row [keyword "extends", call .type])]),
      primaryType]

/-! ## §4. Types. -/

/-- `|` and `&`. -/
def unionSign : ModuleRule := either (sign "|") (sign "&")

/-- `extends T ? U : V`. -/
def conditionSuffix : ModuleRule :=
  wrap "conditional_type"
    (row [stays false, keyword "extends", call .type, sign "?", within Context.unending
      (call .type), sign ":", call .type])

/-- One type. -/
def type : ModuleRule :=
  scope (row [opt unionSign, call .typeOperand,
    many (wrap "union_type" (row [unionSign, call .typeOperand])), opt conditionSuffix])

/-! ## §5. Object types. -/

/-- `(x: T): U` and `new (x: T): U`. -/
def callableSignature : ModuleRule :=
  either (node "call_signature" signature)
    (node "construct_signature"
      (row [opt (keyword "abstract"), keyword "new", opt (call .typeParameters),
        call .parameters, opt typeAnnotation]))

/-- A property with its type. -/
def propertySignature : ModuleRule :=
  node "property_signature" (row [fieldModifiers, memberKey, opt (sign "?"), opt typeAnnotation])

/-- One member of an object type. -/
def typeMember : ModuleRule :=
  oneOf [callableSignature, indexSignature, node "method_signature" methodHead,
    propertySignature]

/-- What separates the members of an object type. -/
def memberEnd : ModuleRule := either (sign ",") (semicolon false)

/-- Members in braces. -/
def objectType : ModuleRule :=
  node "object_type"
    (row [either (mark "\x7b|") (mark "\x7b"),
      within Context.fresh (row [opt (either (sign ",") (sign ";")),
        opt (row [typeMember, many (seq memberEnd typeMember), opt memberEnd])]),
      either (mark "|\x7d") (mark "\x7d")])

end ImportSplit.Grammar
