/-
  ImportSplit.Grammar.Statements
  ────────────────────────────────
  **STATEMENTS.**

  A statement is known by its first word, with two exceptions: behind a name
  and a colon stands a labeled statement, and everything that is none of these
  is an expression.  A statement ends with a semicolon, written or not.
-/
import ImportSplit.Grammar.Declarations
import ImportSplit.Grammar.Markup

namespace ImportSplit.Grammar

open Rule

/-! ## §1. Words and labels. -/

/-- The words that start statements and are no names there. -/
def statementWords : List String :=
  ["var", "const", "if", "else", "switch", "for", "while", "do", "try", "with", "break",
    "continue", "debugger", "return", "throw"]

/-- The words that start declarations of types. -/
def typeStatementWords : List String := ["enum", "interface", "abstract"]

/-- A statement starts here that is no expression. -/
def startsOtherwise : ModuleRule :=
  oneOf
    [oneOf (statementWords.map keyword), typed (oneOf (typeStatementWords.map keyword)),
      row [functionHead, opt (sign "*"), anyName], row [keyword "class", className]]

/-- A label. -/
def label : ModuleRule :=
  wordBut "statement_identifier" (expressionWords ++ statementWords)

/-! ## §2. Blocks. -/

/-- Statements and the gaps around them. -/
def statements : ModuleRule := row [many (call .statement), gap true]

/-- Statements in braces. -/
def block : ModuleRule :=
  node "statement_block" (row [mark "\x7b", within Context.fresh statements, mark "\x7d"])

/-- The condition of a statement, in parentheses. -/
def condition : ModuleRule := parenthesized

/-! ## §3. Loops. -/

/-- What a loop over values binds. -/
def loopTarget : ModuleRule :=
  oneOf
    [row [keyword "var", bound, opt (within Context.withoutIn initializer)],
      row [either (keyword "let") (keyword "const"), bound],
      row [destructuring, ahead (either (keyword "of") (keyword "in"))],
      row [within Context.withoutIn (call .chain), holds Node.isAssignable]]

/-- `for (a of b) …` and `for (a in b) …`. -/
def forIn : ModuleRule :=
  node "for_in_statement"
    (row [keyword "for", opt (keyword "await"),
      enclosed "(" ")"
        (row [loopTarget, either (keyword "of") (keyword "in"), call .expressions]),
      call .statement])

/-- `for (a; b; c) …`. -/
def forStatement : ModuleRule :=
  node "for_statement"
    (row [keyword "for", mark "(",
      oneOf [within Context.fresh variableDeclaration,
        within Context.bracketed (row [call .expressions, sign ";"]), sign ";"],
      within Context.bracketed (row [opt (call .expressions), sign ";", opt (call .expressions)]),
      mark ")", call .statement])

/-- `while (a) …`. -/
def whileStatement : ModuleRule :=
  node "while_statement" (row [keyword "while", condition, call .statement])

/-- `do … while (a)`. -/
def doStatement : ModuleRule :=
  node "do_statement"
    (row [keyword "do", call .statement, keyword "while", condition, opt (semicolon false)])

/-! ## §4. Branches. -/

/-- `if (a) … else …`. -/
def ifStatement : ModuleRule :=
  node "if_statement"
    (row [keyword "if", condition, call .statement,
      opt (node "else_clause" (row [keyword "else", call .statement]))])

/-- The statements of one case. -/
def caseStatements : ModuleRule :=
  many (seq (notAhead (either (keyword "case") (keyword "default"))) (call .statement))

/-- `switch (a) { case b: … default: … }`. -/
def switchStatement : ModuleRule :=
  node "switch_statement"
    (row [keyword "switch", condition,
      node "switch_body" (row [mark "\x7b",
        within Context.fresh (many (either
          (node "switch_case"
            (row [keyword "case", within Context.beforeColon (call .expressions), sign ":",
              caseStatements]))
          (node "switch_default" (row [keyword "default", sign ":", caseStatements])))),
        mark "\x7d"])])

/-- `try { … } catch (a) { … } finally { … }`. -/
def tryStatement : ModuleRule :=
  node "try_statement"
    (row [keyword "try", call .block,
      opt (node "catch_clause"
        (row [keyword "catch",
          opt (enclosed "(" ")" (row [either destructuring identifier, annotated])),
          call .block])),
      opt (node "finally_clause" (row [keyword "finally", call .block]))])

/-- `with (a) …`. -/
def withStatement : ModuleRule :=
  node "with_statement" (row [keyword "with", condition, call .statement])

/-! ## §5. Jumps. -/

/-- A jump to a label, or without one. -/
def jump (kind word : String) : ModuleRule :=
  node kind
    (row [keyword word,
      either (semicolon false) (row [wordBut "statement_identifier" [], semicolon false])])

/-- `return a`. -/
def returnStatement : ModuleRule :=
  node "return_statement"
    (row [keyword "return",
      either (semicolon false) (row [call .expressions, semicolon true])])

/-- `throw a`. -/
def throwStatement : ModuleRule :=
  node "throw_statement" (row [keyword "throw", call .expressions, semicolon true])

/-! ## §6. All statements. -/

/-- An expression as a statement. -/
def expressionStatement : ModuleRule :=
  node "expression_statement"
    (row [notAhead startsOtherwise, call .expressions, semicolon true])

/-- The ways in which a statement can be read, tried in this order. -/
def statementRules : List ModuleRule :=
  [seq (call .block) (opt (ends false)),
    token "empty_statement" (.sign [';'] []),
    exportStatement, importStatement, ifStatement, switchStatement, forIn, forStatement,
    whileStatement, doStatement, tryStatement, withStatement,
    jump "break_statement" "break", jump "continue_statement" "continue",
    node "debugger_statement" (row [keyword "debugger", semicolon false]),
    returnStatement, throwStatement,
    node "labeled_statement" (row [label, sign ":", call .statement]),
    node "expression_statement" (row [typed internalModule, semicolon true]),
    declaration true, expressionStatement]

/-- One statement. -/
def statement : ModuleRule :=
  seq (gap true) (within Context.fresh (oneOf statementRules))

end ImportSplit.Grammar
