/-
  ImportSplit.Tree
  ────────────────────────────────
  **THE TREE OF A MODULE.**

  The tree names what splitting imports has to see: the import declarations
  at the top level, identifiers, and accesses of the form `object.property`.
  Everything else is a construct that interleaves its own text with the
  nodes inside it, or a token, so a tree spells out its module completely.

      Specifier   — one binding of an import declaration
      ImportDecl  — an import declaration, with its text when it was read
      Node, Part  — the rest of the module
      Statement   — an import declaration or any other top-level statement
      Program     — the statements of a module, in order

  Equality of trees is decidable (§4), so "nothing was rewritten" is a
  question that a program can ask.
-/

namespace ImportSplit

/-! ## §1. Import declarations. -/

/-- What one specifier of an import declaration binds.  A name is missing
where the declaration is incomplete. -/
inductive Specifier where
  /-- `import bound from "…"`. -/
  | byDefault (bound : Option String)
  /-- `import * as bound from "…"`. -/
  | whole (bound : Option String)
  /-- `import { exported as bound } from "…"`. -/
  | named (exported bound : Option String)
  /-- `import { type exported as bound } from "…"`: a type, gone at run time. -/
  | typeOnly (exported bound : Option String)
  deriving Repr, DecidableEq, Inhabited

namespace Specifier

/-- The name that the specifier binds in the importing module. -/
def bound? : Specifier → Option String
  | byDefault bound | whole bound | named _ bound | typeOnly _ bound => bound

/-- The exported name that the specifier asks for, if it asks by name. -/
def exported? : Specifier → Option String
  | named exported _ | typeOnly exported _ => exported
  | byDefault _ | whole _ => none

/-- `import x from "…"`. -/
def isByDefault : Specifier → Bool
  | byDefault _ => true
  | _ => false

/-- `import * as x from "…"`. -/
def isWhole : Specifier → Bool
  | whole _ => true
  | _ => false

/-- `import { x } from "…"`. -/
def isNamed : Specifier → Bool
  | named _ _ => true
  | _ => false

/-- `import { type X } from "…"`. -/
def isTypeOnly : Specifier → Bool
  | typeOnly _ _ => true
  | _ => false

end Specifier

/-- An import declaration.  `raw` is its text when it was read from a source;
a declaration that was built has none and is spelled from its fields. -/
structure ImportDecl where
  specifiers : List Specifier
  source : String
  raw : Option String := none
  deriving Repr, DecidableEq, Inhabited

/-! ## §2. Nodes. -/

mutual
/-- Anything inside a statement. -/
inductive Node where
  /-- A use or a binding of a name. -/
  | identifier (name : String)
  /-- `object.property`; the operator is all the text between the two. -/
  | member (object : Node) (operator property : String)
  /-- Any other construct, with its parts in order. -/
  | construct (kind : String) (parts : List Part)
  /-- A leaf, kept as it was written. -/
  | token (kind text : String)
/-- A piece of a construct. -/
inductive Part where
  /-- Text between nodes. -/
  | text (text : String)
  | node (node : Node)
end

deriving instance Repr for Node, Part
instance : Inhabited Node := ⟨.token "" ""⟩
instance : Inhabited Part := ⟨.text ""⟩

namespace Node

/-- The name of the construct that the node is. -/
def kind : Node → String
  | identifier _ => "identifier"
  | member .. => "member_expression"
  | construct kind _ | token kind _ => kind

/-- The node is written as exactly this token. -/
def isToken (text : String) : Node → Bool
  | token _ t => t == text
  | _ => false

end Node

/-- The node that a part is, if it is no text. -/
def Part.node? : Part → Option Node
  | .node n => some n
  | .text _ => none

/-- The nodes among the parts. -/
def Part.nodes (parts : List Part) : List Node :=
  parts.filterMap Part.node?

/-! An access is made on a name also when the name stands in parentheses:
`((x)).p` is an access on `x`.  Only the two parentheses may stand beside the
name; a comment there hides it. -/

mutual
/-- The name that the node denotes, seen through parentheses. -/
def Node.name? : Node → Option String
  | .identifier name => some name
  | .member .. => none
  | .construct kind parts =>
      if kind == "parenthesized_expression" then Part.loneName? parts else none
  | .token .. => none
/-- The name denoted by the only node among the parts, parentheses aside. -/
def Part.loneName? : List Part → Option String
  | [] => none
  | .text _ :: rest => Part.loneName? rest
  | .node n :: rest =>
      if n.isToken "(" || n.isToken ")" then Part.loneName? rest
      else if Part.onlyParentheses rest then n.name? else none
/-- No node but parentheses is among the parts. -/
def Part.onlyParentheses : List Part → Bool
  | [] => true
  | .text _ :: rest => Part.onlyParentheses rest
  | .node n :: rest => (n.isToken "(" || n.isToken ")") && Part.onlyParentheses rest
end

/-! ## §3. Statements and programs. -/

/-- A top-level statement; a comment between statements counts as one. -/
inductive Statement where
  | importing (decl : ImportDecl)
  | other (node : Node)
  deriving Repr, Inhabited

namespace Statement

/-- `#!/usr/bin/env node`. -/
def isHashbang : Statement → Bool
  | other n => n.kind == "hash_bang_line"
  | importing _ => false

/-- A comment that stands between statements. -/
def isComment : Statement → Bool
  | other n => n.kind == "comment"
  | importing _ => false

/-- A directive such as `"use strict";`: an expression statement of one
string literal, with nothing beside it but its semicolon. -/
def isDirective : Statement → Bool
  | other (.construct kind parts) =>
      kind == "expression_statement" &&
        match Part.nodes parts with
        | first :: rest => first.kind == "string" && rest.all (Node.isToken ";")
        | [] => false
  | _ => false

/-- The declaration, if the statement is one. -/
def import? : Statement → Option ImportDecl
  | importing decl => some decl
  | other _ => none

end Statement

/-- A module. -/
structure Program where
  body : List Statement
  deriving Repr, Inhabited

/-- The import declarations of the module, in order. -/
def Program.imports (p : Program) : List ImportDecl :=
  p.body.filterMap Statement.import?

/-! ## §4. Equality of trees is decidable. -/

mutual
/-- Decides whether two nodes are the same tree. -/
def Node.decEq : (a b : Node) → Decidable (a = b)
  | .identifier x, .identifier y =>
      if h : x = y then isTrue (by rw [h]) else isFalse (by simp [h])
  | .member o x p, .member o' x' p' =>
      match Node.decEq o o' with
      | isTrue ho =>
          if h : x = x' ∧ p = p' then isTrue (by rw [ho, h.1, h.2])
          else isFalse (by simp only [Node.member.injEq, ho, true_and]; exact h)
      | isFalse ho => isFalse (by simp [ho])
  | .construct k ps, .construct k' ps' =>
      match Part.decEqList ps ps' with
      | isTrue hp =>
          if h : k = k' then isTrue (by rw [hp, h]) else isFalse (by simp [h])
      | isFalse hp => isFalse (by simp [hp])
  | .token k t, .token k' t' =>
      if h : k = k' ∧ t = t' then isTrue (by rw [h.1, h.2])
      else isFalse (by simp only [Node.token.injEq]; exact h)
  | .identifier _, .member .. | .identifier _, .construct .. | .identifier _, .token ..
  | .member .., .identifier _ | .member .., .construct .. | .member .., .token ..
  | .construct .., .identifier _ | .construct .., .member .. | .construct .., .token ..
  | .token .., .identifier _ | .token .., .member .. | .token .., .construct .. =>
      isFalse (by simp)
/-- Decides whether two lists of parts are the same. -/
def Part.decEqList : (a b : List Part) → Decidable (a = b)
  | [], [] => isTrue rfl
  | p :: ps, q :: qs =>
      match Part.decEq p q with
      | isTrue hp =>
          match Part.decEqList ps qs with
          | isTrue hps => isTrue (by rw [hp, hps])
          | isFalse hps => isFalse (by simp [hps])
      | isFalse hp => isFalse (by simp [hp])
  | [], _ :: _ | _ :: _, [] => isFalse (by simp)
/-- Decides whether two parts are the same. -/
def Part.decEq : (a b : Part) → Decidable (a = b)
  | .text s, .text t => if h : s = t then isTrue (by rw [h]) else isFalse (by simp [h])
  | .node m, .node n =>
      match Node.decEq m n with
      | isTrue h => isTrue (by rw [h])
      | isFalse h => isFalse (by simp [h])
  | .text _, .node _ | .node _, .text _ => isFalse (by simp)
end

instance : DecidableEq Node := Node.decEq
instance : DecidableEq Part := Part.decEq
deriving instance DecidableEq for Statement
deriving instance DecidableEq for Program

end ImportSplit
