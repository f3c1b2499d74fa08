/-
  ImportSplit.Split.Source
  ────────────────────────────────
  **SPLITTING THE IMPORTS OF A TEXT.**

  `splitText` prints the module whether anything was rewritten or not.
  `splitSource` tells the two apart: it answers nothing if the tree stays the
  same, and otherwise the printed module, which ends in a line end if the text
  did.

  A `Splitter` answers the same for one text after the other.  It keeps a
  reader, and the reader may keep what it likes of the texts it has read.
-/
import ImportSplit.Diagnosis
import ImportSplit.Split.Pass

namespace ImportSplit

/-! ## §1. One text. -/

/-- The text of the module after splitting, and the log. -/
def splitTextLogged (w : WatchList) (d : Dialect) (source : String) :
    Except SyntaxFault (String × List Event) :=
  match Program.ofSource d source with
  | .error fault => .error fault
  | .ok p => .ok ((p.splitLogged w).1.spelling, (p.splitLogged w).2)

/-- The text of the module after splitting. -/
def splitText (w : WatchList) (d : Dialect) (source : String) : Except SyntaxFault String :=
  match Program.ofSource d source with
  | .error fault => .error fault
  | .ok p => .ok (p.split w).spelling

/-- The text of the module after splitting, with the line end of the text that
it was read from, or nothing if the tree stays the same. -/
def Program.splitChange (w : WatchList) (source : String) (p : Program) : Option String :=
  let q := p.split w
  if q = p then none
  else some (if source.toList.getLast? = some '\n' then q.spelling ++ "\n" else q.spelling)

/-- The text with its imports split, or nothing if there is nothing to split. -/
def splitSource (w : WatchList) (d : Dialect) (source : String) :
    Except SyntaxFault (Option String) :=
  (Program.ofSource d source).map (Program.splitChange w source)

/-! ## §2. One text after the other. -/

/-- A reader that is used again and again.  Whatever it keeps of the texts that
it has read, it reads each text as a fresh reader does. -/
structure Reader (State : Type) where
  read : State → Dialect → String → Except SyntaxFault Program × State
  read_eq : ∀ s d source, (read s d source).1 = Program.ofSource d source

/-- Splits the imports of one text after the other. -/
structure Splitter (State : Type) where
  watched : WatchList
  reader : Reader State
  state : State

namespace Splitter

variable {State : Type}

/-- The answer for one more text, and the splitter after it. -/
def split (t : Splitter State) (d : Dialect) (source : String) :
    Except SyntaxFault (Option String) × Splitter State :=
  let (read, state) := t.reader.read t.state d source
  (read.map (Program.splitChange t.watched source), { t with state })

/-- The splitter after these texts, whatever it answered for them. -/
def after (t : Splitter State) : List (Dialect × String) → Splitter State
  | [] => t
  | (d, source) :: rest => (t.split d source).2.after rest

end Splitter

end ImportSplit
