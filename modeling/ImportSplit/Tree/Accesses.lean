/-
  ImportSplit.Tree.Accesses
  ────────────────────────────────
  **THE ACCESSES OF A TREE.**

  `n.accesses` lists the accesses `object.property` inside a node in the order
  of a walk that meets the outer access before those in its object: for
  `a.b.c` first the access of `c`, then that of `b`.
-/
import ImportSplit.Tree

namespace ImportSplit

/-- An access `object.property`, taken out of its node. -/
structure Access where
  object : Node
  operator : String
  property : String
  deriving Inhabited

namespace Access

/-- The access as a node. -/
def node (a : Access) : Node := .member a.object a.operator a.property

/-- The name of the object, when the object is a name, perhaps in parentheses. -/
def objectName? (a : Access) : Option String := a.object.name?

end Access

mutual
/-- The accesses inside a node, the outer before the inner. -/
def Node.accesses : Node → List Access
  | .identifier _ => []
  | .member object operator property => ⟨object, operator, property⟩ :: object.accesses
  | .construct _ parts => Part.accessesOfList parts
  | .token .. => []
/-- The accesses inside parts, from left to right. -/
def Part.accessesOfList : List Part → List Access
  | [] => []
  | p :: rest => p.accesses ++ Part.accessesOfList rest
/-- The accesses inside one part. -/
def Part.accesses : Part → List Access
  | .text _ => []
  | .node n => n.accesses
end

/-- How many accesses a node holds. -/
def Node.accessCount (n : Node) : Nat := n.accesses.length

/-- The accesses of a statement; an import declaration has none. -/
def Statement.accesses : Statement → List Access
  | .importing _ => []
  | .other n => n.accesses

/-- The accesses of a module, in order. -/
def Program.accesses (p : Program) : List Access :=
  p.body.flatMap Statement.accesses

/-- How many accesses a module holds. -/
def Program.accessCount (p : Program) : Nat := p.accesses.length

end ImportSplit
