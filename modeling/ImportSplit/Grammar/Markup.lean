/-
  ImportSplit.Grammar.Markup
  ────────────────────────────────
  **ELEMENTS IN EXPRESSIONS.**

  An element is `<name …/>`, or `<name …>` and `</name>` with text, elements
  and braced expressions between them; the two names need not agree.  A name
  with points, as in `<a.b/>`, is an access, and so it is in the closing tag.
-/
import ImportSplit.Grammar.Expressions

namespace ImportSplit.Grammar

open Rule

/-- A name of an element or an attribute, as a leaf of the given kind. -/
def markupName (kind : String) : ModuleRule := token kind .markupName

/-- `b` or `a:b`. -/
def namespacedName (kind : String) : ModuleRule :=
  scope (row [markupName kind,
    opt (wrap "jsx_namespace_name" (row [mark ":", markupName "identifier"]))])

/-- The name of an element: `b`, `a:b` or `a.b`. -/
def elementName : ModuleRule :=
  scope (row [namespacedName "identifier",
    many (wrap "member_expression"
      (row [mark ".", wordBut "property_identifier" []]))])

/-- An expression in braces; it may be missing. -/
def bracedExpression : ModuleRule :=
  node "jsx_expression" (braced (opt (either spread (call .expressions))))

/-- `name`, `name="…"`, `name={…}` or an expression in braces. -/
def elementAttribute : ModuleRule :=
  either bracedExpression
    (node "jsx_attribute"
      (row [namespacedName "property_identifier",
        opt (row [mark "=",
          oneOf [token "string" .markupString, bracedExpression, call .element]])]))

/-- What stands between an opening and a closing tag. -/
def child : ModuleRule :=
  oneOf [leaf "jsx_text" .markupText, leaf "html_character_reference" .reference, call .element,
    bracedExpression]

/-- Children and the closing tag. -/
def elementRest : ModuleRule :=
  row [many child,
    node "jsx_closing_element" (row [mark "</", opt elementName, mark ">"])]

/-- An element. -/
def element : ModuleRule :=
  within Context.bracketed (scope (row [notAhead (mark "</"), mark "<",
    either
      (wrap "jsx_element" (seq (wrap "jsx_opening_element" (mark ">")) elementRest))
      (row [elementName, optTyped (call .typeArguments), many elementAttribute,
        either (wrap "jsx_self_closing_element" (mark "/>"))
          (wrap "jsx_element" (seq (wrap "jsx_opening_element" (mark ">")) elementRest))])]))

end ImportSplit.Grammar
