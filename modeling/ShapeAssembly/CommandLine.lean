import ShapeAssembly.Encoding
import ShapeAssembly.FileTree
import ShapeAssembly.Json.Printer
import ShapeAssembly.Program.Printer

namespace ShapeAssembly

/-- What the command line asks for. -/
inductive Command where
  | parse (file : String) (style : Json.Style)
  | check (paths : List String)
  | highlight (file : String) (style : Json.Style)
  | format (file : String)
  | repl
  | help
  deriving DecidableEq

inductive Channel where
  | stdout | stderr
  deriving DecidableEq

/-- What a run prints on each channel, and its exit code. Usage texts and the lines of a log are
left out, and so is the order between the channels. -/
structure Output where
  exit : Nat
  stdout : String
  stderr : String
  deriving DecidableEq

namespace Command

inductive Flag where
  | verbose | pretty | help
  deriving DecidableEq

def Flag.long : Flag → String
  | verbose => "--verbose"
  | pretty => "--pretty"
  | help => "--help"

def Flag.short : Flag → Char
  | verbose => 'v'
  | pretty => 'p'
  | help => 'h'

/-- The flags in one word that starts with a dash, if all of them are known. -/
def flags? (known : List Flag) (word : String) : Option (List Flag) :=
  match word.toList with
  | '-' :: '-' :: _ => (known.find? (·.long = word)).map fun flag => [flag]
  | '-' :: letters => letters.mapM fun c => known.find? (·.short = c)
  | _ => none

/-- A word that is no flag: the lone dash is one. -/
def isOperand (word : String) : Bool := word = "-" || word.toList.head? ≠ some '-'

/-- Adds flags to those given. No flag is given twice, and help needs nothing more. -/
def addFlags? (given : List Flag) : List Flag → Option (List Flag)
  | [] => some given
  | flag :: rest =>
    if flag = .help then some [.help]
    else if given.contains flag then none
    else addFlags? (flag :: given) rest

/-- The flags and the operands in the words after a subcommand, which takes at most `limit`
operands. After `--` every word is an operand. -/
def readWords? (known : List Flag) (limit : Nat) (given : List Flag) (operands : List String) :
    List String → Option (List Flag × List String)
  | [] => some (given, operands)
  | word :: rest =>
    if word = "--" then
      if operands.length + rest.length ≤ limit ∧ "" ∉ rest then some (given, operands ++ rest)
      else none
    else if isOperand word then
      if operands.length < limit ∧ word ≠ "" then
        readWords? known limit given (operands ++ [word]) rest
      else none
    else do
      let given ← addFlags? given (← flags? known word)
      if given = [.help] then return ([.help], []) else readWords? known limit given operands rest

/-- How a subcommand reads its words: its flags, its most operands, and the command of both. -/
structure Form where
  flags : List Flag
  limit : Nat
  command? : List Flag → List String → Option Command

def styleOf (given : List Flag) : Json.Style :=
  if given.contains .pretty then .pretty else .compact

def form? (wordCount : Nat) : String → Option Form
  | "parse" => some ⟨[.verbose, .pretty, .help], 1, fun given operands =>
      operands.head?.map (.parse · (styleOf given))⟩
  | "check" => some ⟨[.verbose, .help], wordCount, fun _ operands =>
      if operands.isEmpty then none else some (.check operands)⟩
  | "highlight" => some ⟨[.verbose, .pretty, .help], 1, fun given operands =>
      operands.head?.map (.highlight · (styleOf given))⟩
  | "fmt" => some ⟨[.verbose, .help], 1, fun _ operands => operands.head?.map .format⟩
  | "repl" => some ⟨[.verbose, .help], 0, fun _ _ => some .repl⟩
  | _ => none

/-- The names that help is asked for are those of a subcommand, or help itself. -/
def helpOn? : List String → Option Command
  | [] => some .help
  | [name] => if name = "help" ∨ (form? 0 name).isSome then some .help else none
  | _ => none

def readSubcommand? (name : String) (words : List String) : Option Command :=
  if name = "help" then helpOn? words
  else do
    let form ← form? words.length name
    let (given, operands) ← readWords? form.flags form.limit [] [] words
    if given = [.help] then return .help else form.command? given operands

/-- Reads the words after the program's name; none if they ask for nothing known. -/
def ofWords? (given : List Flag) : List String → Option Command
  | [] => none
  | word :: rest =>
    if isOperand word then readSubcommand? word rest
    else do
      let given ← addFlags? given (← flags? [.verbose, .help] word)
      if given = [.help] then return .help else ofWords? given rest

end Command

/-- What the drawing of a report prints, and whether it comes to its end. -/
structure Drawn where
  text : String
  finished : Bool
  deriving DecidableEq

/-- Draws the report of a diagnostic from the text and the path of a file. How reports look is left
to the caller. -/
abbrev Drawing := (text path : String) → Diagnostic → Drawn

namespace Drawing

/-- Draws nothing. -/
def blank : Drawing := fun _ _ _ => ⟨"", true⟩

/-- What is printed for a diagnostic. A report that breaks off is followed by the diagnostic in one
line. -/
def report (draw : Drawing) (text path : String) (d : Diagnostic) : String :=
  let drawn := draw text path d
  if drawn.finished then drawn.text else drawn.text ++ s!"{path}: {d.line}\n"

end Drawing

/-- The line printed for a file without a text. -/
def FileError.line (path : String) (e : FileError) : String :=
  s!"Error reading {path}: {e.message}\n"

/-- The output for the text of a file. -/
def Output.ofFile (disk : Disk) (path : String) (run : String → Output) : Output :=
  match disk.read path with
  | .ok text => run text
  | .error e => ⟨1, "", e.line path⟩

/-- How far files are checked: whether all of them are accepted, and what is printed, in order. -/
structure Checking where
  allAccepted : Bool
  log : List (Channel × String)

namespace Checking

def start : Checking := ⟨true, []⟩

/-- Checks a file. Whatever is found there, the next one can be checked. -/
def next (draw : Drawing) (disk : Disk) (c : Checking) (path : String) : Checking :=
  match disk.read path with
  | .error e => ⟨false, c.log ++ [(.stderr, e.line path)]⟩
  | .ok text =>
    let result := Program.parse text
    let functions := result.program.definitions.length
    let errors := result.errors.length
    let warnings := result.warnings.length
    let log := c.log ++ result.diagnostics.map fun d => (.stderr, draw.report text path d)
    if errors = 0 then
      let line := s!"✓ {path} - {functions} functions ({warnings} warnings)\n"
      ⟨c.allAccepted, log ++ [(.stdout, line)]⟩
    else ⟨false, log ++ [(.stderr, s!"✗ {path} - {errors} errors\n")]⟩

/-- What is printed on a channel. -/
def printed (c : Checking) (channel : Channel) : String :=
  String.join ((c.log.filter (·.1 = channel)).map (·.2))

def output (c : Checking) : Output :=
  ⟨if c.allAccepted then 0 else 1, c.printed .stdout, c.printed .stderr⟩

end Checking

namespace Command

def parseText (style : Json.Style) (text : String) : Output :=
  let result := Program.parse text
  ⟨if result.hasErrors then 1 else 0, result.toJson.render style ++ "\n", ""⟩

def highlightText (style : Json.Style) (text : String) : Output :=
  let ranges := (Highlighter.ofText text).all
  ⟨0, (Json.array (ranges.map Highlight.toJson)).render style ++ "\n", ""⟩

/-- A text with errors has no canonical form: its diagnostics are reported. -/
def formatText (draw : Drawing) (path text : String) : Output :=
  let result := Program.parse text
  if result.hasErrors then
    ⟨1, "", String.join (result.diagnostics.map (draw.report text path))⟩
  else ⟨0, result.program.render 0, ""⟩

def checkPaths (draw : Drawing) (disk : Disk) (paths : List String) : Output :=
  match disk.collect paths with
  | [] => ⟨1, "", "No .sa files found\n"⟩
  | files => (files.foldl (Checking.next draw disk) .start).output

end Command

end ShapeAssembly
