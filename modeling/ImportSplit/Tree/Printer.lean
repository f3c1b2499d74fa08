/-
  ImportSplit.Tree.Printer
  ────────────────────────────────
  **THE TEXT OF A TREE.**

  A node is spelled by its own text, so what was read comes back as it was
  written.  An import declaration that was read keeps its text too; one that
  was built is spelled from its fields in one line:

      `import main, * as whole, { a, b as c } from "source";`

  A program is the text of its statements, a line feed between each two.
-/
import ImportSplit.Tree
import ImportSplit.Text.Quoted

namespace ImportSplit

/-! ## §1. Nodes. -/

mutual
/-- The text of a node. -/
def Node.spelling : Node → String
  | .identifier name => name
  | .member object operator property => object.spelling ++ operator ++ property
  | .construct _ parts => Part.spellingOfList parts
  | .token _ text => text
/-- The text of parts in a row. -/
def Part.spellingOfList : List Part → String
  | [] => ""
  | p :: rest => p.spelling ++ Part.spellingOfList rest
/-- The text of one part. -/
def Part.spelling : Part → String
  | .text text => text
  | .node n => n.spelling
end

@[simp] theorem Part.spellingOfList_nil : Part.spellingOfList [] = "" := rfl

@[simp] theorem Part.spellingOfList_cons (p : Part) (ps : List Part) :
    Part.spellingOfList (p :: ps) = p.spelling ++ Part.spellingOfList ps := rfl

theorem Part.spellingOfList_append (ps qs : List Part) :
    Part.spellingOfList (ps ++ qs) = Part.spellingOfList ps ++ Part.spellingOfList qs := by
  induction ps with
  | nil => simp
  | cons p ps ih => simp [ih, String.append_assoc]

/-! ## §2. Import declarations. -/

namespace Specifier

/-- `name`, or `exported as name` where the two differ. -/
def spellNamed (exported bound : String) : String :=
  if exported = bound then bound else exported ++ " as " ++ bound

/-- The specifier inside the braces of a declaration; `none` for one that does
not stand there or lacks a name.  A type is marked unless the whole
declaration is. -/
def braced? (marked : Bool) : Specifier → Option String
  | named (some exported) (some bound) => some (spellNamed exported bound)
  | typeOnly (some exported) (some bound) =>
      some (if marked then spellNamed exported bound else "type " ++ spellNamed exported bound)
  | _ => none

end Specifier

namespace ImportDecl

/-- The declaration imports nothing but types. -/
def isTypeOnly (d : ImportDecl) : Bool :=
  !d.specifiers.isEmpty && d.specifiers.all Specifier.isTypeOnly

/-- The name bound by default; of several specifiers the last one counts. -/
def defaultName? (d : ImportDecl) : Option String :=
  ((d.specifiers.filter Specifier.isByDefault).getLast?).bind Specifier.bound?

/-- The name that the whole module is bound to; the last specifier counts. -/
def wholeName? (d : ImportDecl) : Option String :=
  ((d.specifiers.filter Specifier.isWhole).getLast?).bind Specifier.bound?

/-- What stands between `import` and `from`, piece by piece. -/
def clauses (d : ImportDecl) : List String :=
  let braced := d.specifiers.filterMap (Specifier.braced? d.isTypeOnly)
  d.defaultName?.toList
    ++ d.wholeName?.toList.map ("* as " ++ ·)
    ++ (if braced.isEmpty then [] else ["\x7b " ++ String.intercalate ", " braced ++ " \x7d"])

/-- The declaration spelled from its fields. -/
def spellFields (d : ImportDecl) : String :=
  if d.clauses.isEmpty then "import " ++ Text.quote d.source ++ ";"
  else (if d.isTypeOnly then "import type " else "import ")
    ++ String.intercalate ", " d.clauses ++ " from " ++ Text.quote d.source ++ ";"

/-- The text of a declaration: its own, if it was read. -/
def spelling (d : ImportDecl) : String :=
  d.raw.getD d.spellFields

end ImportDecl

/-! ## §3. Statements and programs. -/

/-- The text of a statement. -/
def Statement.spelling : Statement → String
  | .importing decl => decl.spelling
  | .other n => n.spelling

/-- The text of a module: one statement after the other, each on a new line. -/
def Program.spelling (p : Program) : String :=
  String.intercalate "\n" (p.body.map Statement.spelling)

end ImportSplit
