/-
  ImportSplit.Source
  ────────────────────────────────
  **FROM THE TEXT OF A MODULE TO ITS TREE.**

  The grammar reads a text into a row of nodes with gaps between them.  Every
  node becomes a statement (`Statement.ofNode`), and the gaps are dropped.  A
  text is a module if the grammar reads all of it and no object holds a
  default value, which only a pattern may hold.
-/
import ImportSplit.Grammar.Reading
import ImportSplit.Grammar.Whole

namespace ImportSplit

/-! ## §1. Import declarations. -/

/-- What a string literal holds between its quotes, as it is written. -/
def quotedText (literal : String) : String :=
  match literal.toList with
  | q :: rest =>
      if isQuote q && rest.getLast?.elim false isQuote then String.ofList rest.dropLast
      else literal
  | [] => literal
where
  isQuote (c : Char) : Bool := c == '"' || c == '\''

/-- A name or a string, with the flag for a string. -/
def Node.exportName? : Node → Option (String × Bool)
  | .identifier name => some (name, false)
  | .token "string" literal => some (quotedText literal, true)
  | _ => none

/-- The specifier that a node `import_specifier` stands for.  A string is bound
only by an alias. -/
def Specifier.ofParts (parts : List Part) : Specifier :=
  let nodes := Part.nodes parts
  let (exported, bound) : Option String × Option String :=
    match nodes.filterMap Node.exportName? with
    | [] => (none, none)
    | [(name, isString)] => (some name, if isString then none else some name)
    | (name, _) :: (rename, _) :: _ => (some name, some rename)
  if nodes.any fun n => n.isToken "type" || n.isToken "typeof" then .typeOnly exported bound
  else .named exported bound

/-- The parts of a construct of the given kind. -/
def Node.partsOf? (kind : String) : Node → Option (List Part)
  | .construct k parts => if k == kind then some parts else none
  | _ => none

/-- The specifiers that one node of an import clause stands for. -/
def Specifier.ofClauseNode : Node → List Specifier
  | .identifier name => [.byDefault (some name)]
  | .construct "namespace_import" parts =>
      [.whole ((Part.nodes parts).findSome? fun
        | .identifier name => some name
        | _ => none)]
  | .construct "named_imports" parts =>
      ((Part.nodes parts).filterMap (Node.partsOf? "import_specifier")).map Specifier.ofParts
  | _ => []

/-- The declaration that a node `import_statement` stands for.  An import of
types only, or of a `require`, is no declaration. -/
def ImportDecl.ofNode? (n : Node) : Option ImportDecl :=
  match n.partsOf? "import_statement" with
  | none => none
  | some parts =>
      let nodes := Part.nodes parts
      if nodes.any fun n => n.isToken "type" || n.isToken "typeof"
          || n.kind == "import_require_clause" then none
      else match nodes.find? fun n => n.kind == "string" with
        | none => none
        | some source =>
            let clauses := nodes.filterMap (Node.partsOf? "import_clause")
            some
              { specifiers := clauses.flatMap fun c => (Part.nodes c).flatMap Specifier.ofClauseNode
                source := quotedText source.spelling
                raw := some n.spelling }

/-- The statement that a node at the top level stands for. -/
def Statement.ofNode (n : Node) : Statement :=
  match ImportDecl.ofNode? n with
  | some d => .importing d
  | none => .other n

/-! ## §2. Modules. -/

namespace Grammar

/-- Deep enough for the calls that a text of this length can nest: between two
characters no more calls nest than there are named rules. -/
def depthFor (s : List Char) : Nat := 40 * (s.length + 1)

/-- Reads the text of a module. -/
def readModule (d : Dialect) (s : List Char) : Outcome :=
  step (read rule (depthFor s)) wholeModule { dialect := d } [] s

end Grammar

/-- The module that a text is. -/
def Program.ofSource? (d : Dialect) (source : String) : Option Program :=
  match Grammar.readModule d source.toList with
  | .done row [] =>
      let nodes := Part.nodes row.reverse
      if nodes.all Node.isSettled then some ⟨nodes.map Statement.ofNode⟩ else none
  | _ => none

end ImportSplit
