/-
  ImportSplit.CommandLine.Arguments
  ────────────────────────────────
  **WHAT A COMMAND LINE ASKS FOR.**

      barrelsplit [-v] transform [-v] [-w MODULE]… [-c FILE] [--write | --check] PATH…
      barrelsplit [-v] version
      barrelsplit --version | --help

  Options and paths may be mixed; behind `--` everything is a path.  A short
  option may follow another one in the same word, and its value may follow at
  once, with or without `=`.  An option that is no list may be given once on
  each side of the command.
-/

namespace ImportSplit.CommandLine

/-! ## §1. Requests. -/

/-- What becomes of rewritten files. -/
inductive Mode where
  /-- Their text is printed. -/
  | print
  /-- They are written back. -/
  | write
  /-- Their paths are printed. -/
  | check
  deriving Repr, DecidableEq, Inhabited

/-- A request to rewrite files. -/
structure Transform where
  paths : List String := []
  /-- Modules to watch in the place of those in the settings. -/
  watch : List String := []
  /-- The settings file. -/
  settings : Option String := none
  write : Bool := false
  check : Bool := false
  verbose : Bool := false
  deriving Repr, DecidableEq, Inhabited

/-- What becomes of the rewritten files. -/
def Transform.mode (t : Transform) : Mode :=
  if t.check then .check else if t.write then .write else .print

/-- What a command line asks for. -/
inductive Request where
  /-- No command is given. -/
  | nothing
  | transform (t : Transform)
  /-- The version, as the command tells it. -/
  | version
  /-- The version, as the option tells it. -/
  | shortVersion
  | help
  /-- The command line cannot be understood. -/
  | misused
  deriving Repr, DecidableEq, Inhabited

/-! ## §2. Words. -/

/-- One word of a command line. -/
inductive Word where
  /-- `--`. -/
  | endOfOptions
  /-- `--name` or `--name=value`. -/
  | long (name : String) (value : Option String)
  /-- The letters behind one dash. -/
  | short (letters : List Char)
  | plain (text : String)
  deriving Repr, DecidableEq, Inhabited

/-- Tells what a word is; a lone dash is plain. -/
def Word.ofText (text : String) : Word :=
  match text.toList with
  | ['-', '-'] => .endOfOptions
  | '-' :: '-' :: rest =>
      let name := String.ofList (rest.takeWhile (· ≠ '='))
      match rest.dropWhile (· ≠ '=') with
      | [] => .long name none
      | _ :: value => .long name (some (String.ofList value))
  | ['-'] => .plain text
  | '-' :: letters => .short letters
  | _ => .plain text

/-- The value of an option that stands in the next word; a word that looks like
an option is none. -/
def valueIn : List String → Option (String × List String)
  | [] => none
  | text :: rest =>
      match Word.ofText text with
      | .plain text => some (text, rest)
      | _ => none

/-- The value behind a short option in its own word. -/
def gluedValue? : List Char → Option String
  | [] => none
  | '=' :: value => some (String.ofList value)
  | value => some (String.ofList value)

/-! ## §3. The options of `transform`. -/

namespace Transform

/-- The result of one option: the request so far, or the end of reading. -/
abbrev Step := Except Request Transform

/-- Adds a module to watch. -/
def addWatch (t : Transform) (module : String) : Step :=
  .ok { t with watch := t.watch ++ [module] }

/-- Sets the settings file, once. -/
def setSettings (t : Transform) (path : String) : Step :=
  if t.settings.isSome || path.isEmpty then .error .misused
  else .ok { t with settings := some path }

/-- Adds a path. -/
def addPath (t : Transform) (path : String) : Step :=
  if path.isEmpty then .error .misused else .ok { t with paths := t.paths ++ [path] }

/-- Turns an option on that is no list, once. -/
def turnOn (t : Transform) (name : String) : Step :=
  if name == "write" then
    if t.write then .error .misused else .ok { t with write := true }
  else if name == "check" then
    if t.check then .error .misused else .ok { t with check := true }
  else if name == "verbose" then
    if t.verbose then .error .misused else .ok { t with verbose := true }
  else if name == "help" then .error .help
  else .error .misused

/-- Reads the letters of a word, the rest of which may be a value.  The words
that follow are handed back, less the one that was taken as a value. -/
def readLetters (t : Transform) : List Char → List String →
    Except Request (Transform × List String)
  | [], words => .ok (t, words)
  | c :: rest, words =>
      if c == 'w' || c == 'c' then
        let set := if c == 'w' then t.addWatch else t.setSettings
        match gluedValue? rest with
        | some value => (set value).map (·, words)
        | none =>
            match valueIn words with
            | some (value, words) => (set value).map (·, words)
            | none => .error .misused
      else if c == 'v' then
        match t.turnOn "verbose" with
        | .ok t => readLetters t rest words
        | .error r => .error r
      else if c == 'h' then .error .help
      else .error .misused

/-- Reads one word. -/
def readWord (t : Transform) (word : Word) (words : List String) :
    Except Request (Transform × List String) :=
  match word with
  | .plain text => (t.addPath text).map (·, words)
  | .short letters => t.readLetters letters words
  | .long name value =>
      if name == "watch" || name == "config" then
        let set := if name == "watch" then t.addWatch else t.setSettings
        match value with
        | some value => (set value).map (·, words)
        | none =>
            match valueIn words with
            | some (value, words) => (set value).map (·, words)
            | none => .error .misused
      else if value.isSome then .error .misused
      else (t.turnOn name).map (·, words)
  | .endOfOptions => .ok (t, words)

/-- Reads paths behind `--`. -/
def readPaths : Transform → List String → Step
  | t, [] => .ok t
  | t, path :: rest =>
      match t.addPath path with
      | .ok t => readPaths t rest
      | .error r => .error r

/-- Reads all words behind the command; every round takes a word of the budget
at least. -/
def readWords : (budget : List String) → Transform → List String → Step
  | [], t, _ => .ok t
  | _ :: _, t, [] => .ok t
  | _ :: budget, t, text :: rest =>
      match Word.ofText text with
      | .endOfOptions => t.readPaths rest
      | word =>
          match t.readWord word rest with
          | .ok (t, rest) => readWords budget t rest
          | .error r => .error r

/-- The request is complete and does not contradict itself. -/
def isComplete (t : Transform) : Bool := !t.paths.isEmpty && !(t.write && t.check)

/-- Reads the words behind the command. -/
def ofWords (words : List String) : Request :=
  match readWords words {} words with
  | .error r => r
  | .ok t => if t.isComplete then .transform t else .misused

end Transform

/-! ## §4. The whole command line. -/

/-- Reads the words behind the command `version`. -/
def readVersion : (verbose : Bool) → List String → Request
  | _, [] => .version
  | verbose, text :: rest =>
      let isVerbose := text == "-v" || text == "--verbose"
      if text == "-h" || text == "--help" then .help
      else if isVerbose && !verbose then readVersion true rest
      else .misused

/-- Reads the letters of a word before the command. -/
def readLetters : (verbose : Bool) → List Char → Except Request Bool
  | verbose, [] => .ok verbose
  | verbose, c :: rest =>
      if c == 'v' && !verbose then readLetters true rest
      else if c == 'V' then .error .shortVersion
      else if c == 'h' then .error .help
      else .error .misused

/-- Reads words up to the command, and what is behind it. -/
def readCommand : (verbose : Bool) → List String → Request
  | _, [] => .nothing
  | verbose, text :: rest =>
      match Word.ofText text with
      | .plain name =>
          if name == "transform" then Transform.ofWords rest
          else if name == "version" then readVersion false rest
          else if name == "help" then .help
          else .misused
      | .short letters =>
          match readLetters verbose letters with
          | .ok verbose => readCommand verbose rest
          | .error r => r
      | .long "verbose" none => if verbose then .misused else readCommand true rest
      | .long "version" none => .shortVersion
      | .long "help" none => .help
      | .long .. => .misused
      | .endOfOptions => if rest.isEmpty then .nothing else .misused

/-- What the arguments of a run ask for. -/
def Request.ofArguments (arguments : List String) : Request := readCommand false arguments

end ImportSplit.CommandLine
