/-
  ImportSplit.Grammar.Declarations
  ────────────────────────────────
  **DECLARATIONS, IMPORTS AND EXPORTS.**

  An import declaration is a node `import_statement` whose parts are the
  keyword, an `import_clause` and the source.  The word `type` behind `import`
  is the name that is imported by default if the declaration can be read no
  other way: `import type from "m"`.
-/
import ImportSplit.Grammar.Types

namespace ImportSplit.Grammar

open Rule

/-! ## §1. Variables. -/

/-- What a declarator binds. -/
def bound : ModuleRule :=
  row [either destructuring identifier, optTyped (sign "!"), annotated]

/-- Goes on with `,`, or ends the statement; an operator could follow only
behind a value. -/
def declaratorEnd (operators : Bool) : ModuleRule :=
  either (semicolon operators) (row [sign ",", call .declarators])

/-- Declarators to the end of the statement. -/
def declarators : ModuleRule :=
  either
    (seq (node "variable_declarator" (row [bound, initializer])) (declaratorEnd true))
    (seq (node "variable_declarator" bound) (declaratorEnd false))

/-- `let` or `const`. -/
def lexicalKeyword : ModuleRule := either (row [keyword "let", stays true]) (keyword "const")

/-- `let a = b;`, `const a = b;` and `var a = b;`. -/
def variableDeclaration : ModuleRule :=
  either (node "lexical_declaration" (row [lexicalKeyword, call .declarators]))
    (node "variable_declaration" (row [keyword "var", call .declarators]))

/-! ## §2. Types. -/

/-- The name of a declared type. -/
def declaredType : ModuleRule := wordBut "type_identifier" []

/-- `type A = T`. -/
def typeAlias : ModuleRule :=
  node "type_alias_declaration"
    (row [keyword "type", stays true, declaredType, opt (call .typeParameters), sign "=",
      call .type, semicolon false])

/-- `interface A extends B { … }`. -/
def interfaceDeclaration : ModuleRule :=
  node "interface_declaration"
    (row [keyword "interface", declaredType, opt (call .typeParameters),
      opt (row [keyword "extends", separated typeName]), call .objectType])

/-- `enum A { … }`. -/
def enumDeclaration : ModuleRule :=
  node "enum_declaration"
    (row [opt (keyword "const"), keyword "enum", anyName,
      node "enum_body" (braced (opt (listed (row [memberKey, opt initializer]))))])

/-- `module M { … }`. -/
def moduleDeclaration : ModuleRule :=
  node "module" (row [keyword "module", stays true, moduleName, opt (call .block)])

/-- `import a = b.c`. -/
def importAlias : ModuleRule :=
  node "import_alias"
    (row [keyword "import", anyName, sign "=", moduleName, semicolon false])

/-! ## §3. All declarations. -/

/-- A declaration that needs no `declare` before it. -/
def plainDeclaration (operators : Bool) : ModuleRule :=
  oneOf
    [functionDeclaration operators, classDeclaration operators, typed enumDeclaration,
      variableDeclaration,
      typed (oneOf [typeAlias, interfaceDeclaration, moduleDeclaration, internalModule,
        importAlias])]

/-- `declare …`. -/
def ambientDeclaration : ModuleRule :=
  node "ambient_declaration"
    (row [keyword "declare", stays true,
      oneOf [plainDeclaration false, row [keyword "global", call .block],
        row [keyword "module", sign ".", wordBut "property_identifier" [], sign ":", call .type,
          semicolon false]]])

/-- A declaration. -/
def declaration (operators : Bool) : ModuleRule :=
  either (plainDeclaration operators) (typed ambientDeclaration)

/-! ## §4. Imports. -/

/-- `from "m"`. -/
def fromClause : ModuleRule := row [keyword "from", token "string" .string]

/-- `with { … }` behind the source, on its line; with types also
`assert { … }`. -/
def importAttributes : ModuleRule :=
  opt (node "import_attribute"
    (row [stays false, either (keyword "with") (typed (keyword "assert")), call .object]))

/-- The name of a specifier with an alias. -/
def aliased (kind : String) : ModuleRule :=
  row [either (token "string" .string) (wordBut kind []), keyword "as", wordBut kind []]

/-- `type` or `typeof` before a specifier; `type as a` is no such. -/
def typeModifier : ModuleRule :=
  typed (row [either (keyword "type") (keyword "typeof"), notAhead (keyword "as")])

/-- `a`, `a as b`, `"a" as b`, and with types `type a`. -/
def importSpecifier : ModuleRule :=
  node "import_specifier"
    (oneOf [row [aliased "identifier", endsEntry],
      row [typeModifier, either (row [aliased "identifier", endsEntry]) anyName, endsEntry],
      anyName])

/-- `* as a`. -/
def namespaceImport : ModuleRule :=
  node "namespace_import" (row [mark "*", keyword "as", anyName])

/-- `{ a, b as c }`. -/
def namedImports : ModuleRule :=
  node "named_imports" (braced (opt (listed importSpecifier)))

/-- What is imported. -/
def importClause : ModuleRule :=
  node "import_clause"
    (oneOf [namespaceImport, namedImports,
      row [anyName, opt (row [sign ",", either namespaceImport namedImports])]])

/-- What follows `import`, or `import type`. -/
def importRest : ModuleRule :=
  oneOf
    [row [importClause, fromClause],
      typed (node "import_require_clause"
        (row [anyName, sign "=", keyword "require",
          enclosed "(" ")" (token "string" .string)])),
      token "string" .string]

/-- An import statement. -/
def importStatement : ModuleRule :=
  node "import_statement"
    (row [keyword "import",
      either (typed (row [either (keyword "type") (keyword "typeof"), importRest])) importRest,
      importAttributes, semicolon false])

/-! ## §5. Exports. -/

/-- The name of an exported thing. -/
def exportedName : ModuleRule := either (token "string" .string) anyName

/-- `a`, `a as b`, and with types `type a`. -/
def exportSpecifier : ModuleRule :=
  let name := row [exportedName, opt (row [keyword "as", exportedName]), endsEntry]
  node "export_specifier" (either name (row [typeModifier, name]))

/-- `{ a, b as c }`. -/
def exportClause : ModuleRule :=
  node "export_clause" (braced (opt (listed exportSpecifier)))

/-- What follows `export`. -/
def exportRest : ModuleRule :=
  oneOf
    [row [sign "*", opt (node "namespace_export" (row [keyword "as", exportedName])), fromClause,
        importAttributes, semicolon false],
      row [exportClause, opt (seq fromClause importAttributes), semicolon false],
      typed (row [keyword "type", exportClause, opt fromClause, semicolon false]),
      typed (row [keyword "as", keyword "namespace", anyName, semicolon false]),
      typed (row [sign "=", call .expression, semicolon true]),
      row [keyword "default",
        either (declaration true) (row [call .expression, semicolon true])],
      declaration false]

/-- An export statement. -/
def exportStatement : ModuleRule :=
  node "export_statement" (row [many decorator, keyword "export", stays true, exportRest])

end ImportSplit.Grammar
