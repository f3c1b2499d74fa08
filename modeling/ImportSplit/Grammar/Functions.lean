/-
  ImportSplit.Grammar.Functions
  ────────────────────────────────
  **FUNCTIONS, METHODS AND CLASSES.**

  A function with a name, where a statement may stand, is a declaration, and a
  function anywhere else is an expression; both are written alike.  In a class
  a method is tried before a field, and behind a field the class wants a
  semicolon, written or not.
-/
import ImportSplit.Grammar.Names

namespace ImportSplit.Grammar

open Rule

/-! ## §1. Functions. -/

/-- The words before the name of a function. -/
def functionHead : ModuleRule :=
  row [opt (row [keyword "async", stays true, ahead (keyword "function")]), keyword "function"]

/-- A function as an expression. -/
def functionExpression : ModuleRule :=
  node "function_expression"
    (row [functionHead, opt (sign "*"), opt anyName, signature, call .block])

/-- A function as a declaration; `operators` tells whether it could also be
read as the start of an expression. -/
def functionDeclaration (operators : Bool) : ModuleRule :=
  oneOf
    [node "function_declaration"
      (row [functionHead, anyName, signature, call .block, opt (ends operators)]),
    node "generator_function_declaration"
      (row [functionHead, sign "*", anyName, signature, call .block, opt (ends operators)]),
    typed (node "function_signature" (row [functionHead, anyName, signature, semicolon false]))]

/-- The parameters of an arrow function. -/
def arrowHead : ModuleRule :=
  either (row [identifier, ahead (sign "=>")])
    (row [generic, call .parameters,
      optTyped (row [given Context.hasReturnTypes, returnType])])

/-- `x => …`, `(x) => …`. -/
def arrowFunction : ModuleRule :=
  node "arrow_function"
    (row [either (row [keyword "async", stays true, arrowHead, sign "=>"])
        (row [arrowHead, sign "=>"]),
      either (call .block) (call .expression)])

/-! ## §2. Methods. -/

/-- The words before the name of a method. -/
def methodModifiers : ModuleRule :=
  row
    [many (typed (oneOf (["declare", "public", "private", "protected", "abstract", "override",
        "readonly", "accessor"].map modifier))),
      opt (generatorModifier "static"),
      many (typed (oneOf (["abstract", "override", "readonly"].map modifier))),
      opt (generatorModifier "async"),
      opt (oneOf [modifier "get", modifier "set", sign "*"])]

/-- The name and the parameters of a method. -/
def methodHead : ModuleRule :=
  row [methodModifiers, memberKey, optTyped (sign "?"), signature]

/-- A method with its body. -/
def method : ModuleRule :=
  node "method_definition" (row [many decorator, methodHead, call .block])

/-! ## §3. Classes. -/

/-- The words before the name of a field. -/
def fieldModifiers : ModuleRule :=
  either
    (typed (many (oneOf (["declare", "public", "private", "protected", "static", "override",
      "readonly", "abstract", "accessor"].map modifier))))
    (untyped (opt (modifier "static")))

/-- The name of a field and its type. -/
def fieldHead : ModuleRule :=
  row [many decorator, fieldModifiers, memberKey,
    optTyped (either (sign "?") (sign "!")), annotated]

/-- What ends a field. -/
def fieldEnd (operators : Bool) : ModuleRule :=
  either (semicolon operators) (typed (sign ","))

/-- A field, with or without a value. -/
def field : ModuleRule :=
  either (seq (node "field_definition" (row [fieldHead, initializer])) (fieldEnd true))
    (seq (node "field_definition" fieldHead) (fieldEnd false))

/-- `[K in T as U]` between its brackets. -/
def mappedKey : ModuleRule :=
  node "mapped_type_clause"
    (row [wordBut "type_identifier" [], keyword "in", call .type,
      opt (row [keyword "as", call .type])])

/-- `[key: T]: U` and `[K in T]: U`, with their modifiers. -/
def indexSignature : ModuleRule :=
  node "index_signature"
    (row [many (modifier "static"),
      opt (row [opt (either (sign "+") (sign "-")), keyword "readonly", ahead (mark "[")]),
      enclosed "[" "]" (either mappedKey (row [anyName, sign ":", call .type])),
      opt (row [opt (either (sign "+") (sign "-")), sign "?"]), typeAnnotation])

/-- One member of a class. -/
def classMember : ModuleRule :=
  oneOf
    [seq method (either (typed (opt (semicolon false))) (untyped (opt (sign ";")))),
      node "class_static_block" (row [keyword "static", call .block]),
      typed (seq indexSignature (fieldEnd false)),
      typed (seq (node "method_signature" (row [many decorator, methodHead])) (fieldEnd false)),
      field, sign ";"]

/-- The members of a class. -/
def classBody : ModuleRule :=
  node "class_body" (row [mark "\x7b", within Context.fresh (many classMember), mark "\x7d"])

/-- Types with commas between them. -/
def typeList : ModuleRule := separated (call .type)

/-- What a class is built on. -/
def heritage : ModuleRule :=
  either
    (untyped (node "class_heritage"
      (row [keyword "extends", within Context.unending (call .expression)])))
    (typed (within Context.unending (node "class_heritage"
      (either
        (row [keyword "extends",
          separated (row [call .chain, opt (call .typeArguments)]),
          opt (row [keyword "implements", typeList])])
        (row [keyword "implements", typeList])))))

/-- The name of a class and all behind it. -/
def classRest : ModuleRule :=
  row [generic, opt heritage, call .classBody]

/-- The name of a class. -/
def className : ModuleRule :=
  wordBut "type_identifier" ["extends", "implements"]

/-- A class as an expression. -/
def classExpression : ModuleRule :=
  node "class" (row [many decorator, keyword "class", opt className, classRest])

/-- A class as a declaration. -/
def classDeclaration (operators : Bool) : ModuleRule :=
  either
    (node "class_declaration"
      (row [many decorator, keyword "class", className, classRest, opt (ends operators)]))
    (typed (node "abstract_class_declaration"
      (row [many decorator, keyword "abstract", keyword "class", className, classRest])))

end ImportSplit.Grammar
