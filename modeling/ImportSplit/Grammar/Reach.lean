/-
  ImportSplit.Grammar.Reach
  ────────────────────────────────
  **HOW FAR A TEXT CAN BE READ.**

  Where a rule refuses a text, `reach` tells the furthest place at which it
  looked for a token, as the number of characters left there.  What is only
  looked ahead at does not count.
-/
import ImportSplit.Grammar.Reading

namespace ImportSplit.Grammar

/-- The least of the places that the rounds of a repetition reach. -/
def repeatReach (f : List Part → List Char → Outcome) (far : List Part → List Char → Nat) :
    (budget : List Char) → List Part → List Char → Nat
  | [], _, s => s.length
  | _ :: budget, row, s =>
      match f row s with
      | .done row' s' => min (far row s) (repeatReach f far budget row' s')
      | _ => far row s

section
variable {ν : Type}

/-- The furthest place at which a rule looks for a token; `next` and `far` do
the same for named rules. -/
def reachStep (next : ν → Context → List Part → List Char → Outcome)
    (far : ν → Context → List Part → List Char → Nat) :
    Rule ν → Context → List Part → List Char → Nat
  | .seq first second, c, row, s =>
      let here := reachStep next far first c row s
      match step next first c row s with
      | .done row' s' => min here (reachStep next far second c row' s')
      | _ => here
  | .either first second, c, row, s =>
      let here := reachStep next far first c row s
      match step next first c row s with
      | .refused => min here (reachStep next far second c row s)
      | _ => here
  | .many r, c, row, s => repeatReach (step next r c) (reachStep next far r c) s row s
  | .scope r, c, row, s => reachStep next far r c [] (readGap false s row s).2
  | .wrap _ r, c, row, s => reachStep next far r c row s
  | .call name, c, row, s => far name c row s
  | .within f r, c, row, s => reachStep next far r (f c) row s
  | .nothing, _, _, s | .leaf .., _, _, s | .gap _, _, _, s | .ends _, _, _, s
  | .stays _, _, _, s | .ahead _, _, _, s | .notAhead _, _, _, s | .holds _, _, _, s
  | .given _, _, _, s => s.length

/-- The furthest place at which a named rule looks for a token. -/
def reach (rules : ν → Rule ν) : (depth : Nat) → ν → Context → List Part → List Char → Nat
  | 0, _, _, _, s => s.length
  | depth + 1, name, c, row, s =>
      reachStep (read rules depth) (reach rules depth) (rules name) c row s

end

end ImportSplit.Grammar
