/-
  ImportSplit.Grammar.Build
  ────────────────────────────────
  **BUILDING NODES FROM WHAT WAS READ.**

  `Node.leaf` and `Node.build` make the nodes of a tree: a word of the kind
  `identifier` becomes a name, and an access with a plain property and
  without `?.` becomes an access; everything else is a token or a construct.
  The left side of an assignment is read as an expression first and becomes a
  pattern when the `=` is met (`Node.toPattern`), which changes kinds alone.

      (Node.build kind parts).spelling = Part.spellingOfList parts
-/
import ImportSplit.Tree.Printer

namespace ImportSplit

/-! ## §1. Leaves and accesses. -/

/-- A leaf of the given kind. -/
def Node.leaf (kind text : String) : Node :=
  if kind = "identifier" then .identifier text else .token kind text

@[simp] theorem Node.spelling_leaf (kind text : String) :
    (Node.leaf kind text).spelling = text := by
  unfold Node.leaf
  split <;> rfl

/-- The text holds the sign `?.`. -/
def hasOptionalSign : List Char → Bool
  | '?' :: '.' :: _ => true
  | _ :: rest => hasOptionalSign rest
  | [] => false

/-- The last part as a plain property, and the parts before it. -/
def Part.splitProperty? : List Part → Option (List Part × String)
  | [] => none
  | [.node (.token kind word)] =>
      if kind = "property_identifier" then some ([], word) else none
  | [_] => none
  | p :: rest => (Part.splitProperty? rest).map fun (before, property) => (p :: before, property)

theorem Part.spelling_of_splitProperty? :
    ∀ {ps before : List Part} {property : String},
      Part.splitProperty? ps = some (before, property) →
        Part.spellingOfList ps = Part.spellingOfList before ++ property := by
  intro ps
  induction ps with
  | nil => intro before property h; simp [Part.splitProperty?] at h
  | cons p rest ih =>
      intro before property h
      unfold Part.splitProperty? at h
      split at h
      · simp at h
      · next kind word heq =>
          simp only [List.cons.injEq] at heq
          obtain ⟨rfl, rfl⟩ := heq
          split at h
          · simp only [Option.some.injEq, Prod.mk.injEq] at h
            obtain ⟨rfl, rfl⟩ := h
            simp [Part.spelling, Node.spelling]
          · simp at h
      · simp at h
      · next q tail _ _ heq =>
          simp only [List.cons.injEq] at heq
          obtain ⟨rfl, rfl⟩ := heq
          obtain ⟨⟨b, q⟩, hb, hpair⟩ := Option.map_eq_some_iff.1 h
          simp only [Prod.mk.injEq] at hpair
          obtain ⟨rfl, rfl⟩ := hpair
          simp [ih hb, String.append_assoc]

/-- The parts as an access, if they are one. -/
def Node.access? : List Part → Option Node
  | .node object :: rest =>
      match Part.splitProperty? rest with
      | some (middle, property) =>
          let operator := Part.spellingOfList middle
          if hasOptionalSign operator.toList then none else some (.member object operator property)
      | none => none
  | _ => none

theorem Node.spelling_of_access? {ps : List Part} {n : Node} (h : Node.access? ps = some n) :
    n.spelling = Part.spellingOfList ps := by
  unfold Node.access? at h
  split at h
  · next object rest =>
      split at h
      · next middle property hp =>
          simp only at h
          split at h
          · simp at h
          · simp only [Option.some.injEq] at h
            rw [← h]
            simp [Node.spelling, Part.spelling_of_splitProperty? hp, Part.spelling,
              String.append_assoc]
      · simp at h
  · simp at h

/-! ## §2. Patterns. -/

/-- The kind of a pattern that is written like a construct of this kind. -/
def patternKind (kind : String) : String :=
  match kind with
  | "object" => "object_pattern"
  | "array" => "array_pattern"
  | "pair" => "pair_pattern"
  | "spread_element" => "rest_pattern"
  | "assignment_expression" => "assignment_pattern"
  | "shorthand_property_identifier" => "shorthand_property_identifier_pattern"
  | kind => kind

mutual
/-- The node as the left side of an assignment: objects and arrays become
patterns, and so does what stands in them. -/
def Node.toPattern : Node → Node
  | .construct kind parts =>
      if kind = "object" ∨ kind = "array" then .construct (patternKind kind) (Part.toPatterns parts)
      else .construct kind parts
  | n => n
/-- The members of an object or array as members of a pattern. -/
def Part.toPatterns : List Part → List Part
  | [] => []
  | p :: rest => p.toPattern :: Part.toPatterns rest
/-- One member of a pattern; a member that wraps others hands the change on. -/
def Part.toPattern : Part → Part
  | .node (.construct kind parts) =>
      if kind = "pair" ∨ kind = "spread_element" ∨ kind = "assignment_expression"
          ∨ kind = "object" ∨ kind = "array" then
        .node (.construct (patternKind kind) (Part.toPatterns parts))
      else .node (.construct kind parts)
  | .node (.token kind word) => .node (.token (patternKind kind) word)
  | p => p
end

mutual
theorem Node.spelling_toPattern : ∀ n : Node, n.toPattern.spelling = n.spelling
  | .identifier _ => by simp [Node.toPattern]
  | .member .. => by simp [Node.toPattern]
  | .token .. => by simp [Node.toPattern]
  | .construct kind parts => by
      simp only [Node.toPattern]
      split
      · simp only [Node.spelling]
        exact Part.spellingOfList_toPatterns parts
      · rfl
theorem Part.spellingOfList_toPatterns :
    ∀ ps : List Part, Part.spellingOfList (Part.toPatterns ps) = Part.spellingOfList ps
  | [] => by simp [Part.toPatterns]
  | p :: rest => by
      simp [Part.toPatterns, Part.spelling_toPattern p, Part.spellingOfList_toPatterns rest]
theorem Part.spelling_toPattern : ∀ p : Part, p.toPattern.spelling = p.spelling
  | .text _ => by simp [Part.toPattern]
  | .node (.identifier _) => by simp [Part.toPattern]
  | .node (.member ..) => by simp [Part.toPattern]
  | .node (.token ..) => by simp [Part.toPattern, Part.spelling, Node.spelling]
  | .node (.construct kind parts) => by
      simp only [Part.toPattern]
      split
      · simp only [Part.spelling, Node.spelling]
        exact Part.spellingOfList_toPatterns parts
      · rfl
end

/-- The parts of an assignment, the left side as a pattern. -/
def Part.asAssignment : List Part → List Part
  | .node left :: rest => .node left.toPattern :: rest
  | parts => parts

theorem Part.spellingOfList_asAssignment (ps : List Part) :
    Part.spellingOfList (Part.asAssignment ps) = Part.spellingOfList ps := by
  unfold Part.asAssignment
  split
  · simp [Part.spelling, Node.spelling_toPattern]
  · rfl

/-! ## §3. Building. -/

/-- A node of the given kind, made of these parts. -/
def Node.build (kind : String) (parts : List Part) : Node :=
  if kind = "member_expression" then (Node.access? parts).getD (.construct kind parts)
  else if kind = "assignment_expression" then .construct kind (Part.asAssignment parts)
  else .construct kind parts

theorem Node.spelling_build (kind : String) (parts : List Part) :
    (Node.build kind parts).spelling = Part.spellingOfList parts := by
  unfold Node.build
  split
  · cases h : Node.access? parts with
    | none => rfl
    | some n => exact Node.spelling_of_access? h
  · split
    · exact Part.spellingOfList_asAssignment parts
    · rfl

mutual
/-- No object holds a member `name = value`, which only a pattern may hold. -/
def Node.isSettled : Node → Bool
  | .identifier _ | .token .. => true
  | .member object _ _ => object.isSettled
  | .construct kind parts =>
      !(kind == "object" && (Part.nodes parts).any fun n => n.kind == "object_assignment_pattern")
        && Part.areSettled parts
/-- None of the parts holds such an object. -/
def Part.areSettled : List Part → Bool
  | [] => true
  | p :: rest => p.isSettled && Part.areSettled rest
/-- The part holds no such object. -/
def Part.isSettled : Part → Bool
  | .text _ => true
  | .node n => n.isSettled
end

/-- The node may stand to the left of `=`. -/
def Node.isAssignable (n : Node) : Bool :=
  ["identifier", "member_expression", "subscript_expression", "object", "array",
    "parenthesized_expression", "non_null_expression", "undefined"].contains n.kind

/-- The node may stand to the left of `+=` and its kind. -/
def Node.isUpdatable (n : Node) : Bool :=
  ["identifier", "member_expression", "subscript_expression", "parenthesized_expression",
    "non_null_expression"].contains n.kind

end ImportSplit
