import ShapeAssembly.Backspace
import ShapeAssembly.CommandLine
import ShapeAssembly.WhiteSpace

namespace ShapeAssembly.Repl

/-- What a typed line asks for. -/
inductive Request where
  | quit
  | help
  | load (path : String)
  | print
  | check
  | clear
  | unknown
  | append (line : String)
  deriving DecidableEq

/-- A line whose first character after white space is a colon is a command. -/
def Request.ofLine (line : String) : Request :=
  match trim line.toList with
  | ':' :: word =>
    match String.ofList word with
    | "quit" | "q" => .quit
    | "help" | "h" => .help
    | "show" => .print
    | "check" => .check
    | "clear" => .clear
    | _ =>
      match word with
      | 'l' :: 'o' :: 'a' :: 'd' :: ' ' :: path => .load (String.ofList (trim path))
      | _ => .unknown
  | _ => .append line

/-- What is printed for a request, and the program text after it. Without a text the session
ends. -/
structure Reply where
  buffer? : Option String
  stdout : String
  stderr : String
  deriving DecidableEq

def greeting : String :=
  "ShapeAssembly REPL v0.1.0\n" ++
  "Each line is appended to the program, which is re-parsed in full.\n" ++
  "Type :help for help, :quit to exit\n\n"

def farewell : String := "Goodbye!\n"

def helpText : String :=
  "Commands:\n" ++
  "  :load <file>  - Replace the program with a file\n" ++
  "  :show         - Print the program in canonical form\n" ++
  "  :check        - List all diagnostics\n" ++
  "  :clear        - Clear the program\n" ++
  "  :quit         - Exit REPL\n"

def summary (r : ParseResult) : String :=
  s!"{r.program.definitions.length} functions, {r.errors.length} errors, " ++
  s!"{r.warnings.length} warnings\n"

def listing (ds : List Diagnostic) : String :=
  String.join (ds.map fun d => "  " ++ d.line ++ "\n")

/-- A text with one more line. An empty text has no line yet. -/
def appendLine (buffer line : String) : String :=
  if buffer = "" ∨ buffer.toList.getLast? = some '\n' then buffer ++ line
  else buffer ++ "\n" ++ line

/-- The diagnostics of a text that an earlier text did not have. -/
def newDiagnostics (before after : String) : List Diagnostic :=
  (Program.parse after).diagnostics.filter (!(Program.parse before).diagnostics.contains ·)

def reply (read : String → Except FileError String) (buffer : String) : Request → Reply
  | .quit => ⟨none, "", ""⟩
  | .help => ⟨some buffer, helpText, ""⟩
  | .load path =>
    match read path with
    | .ok text => ⟨some text, s!"Loaded {path}\n" ++ summary (Program.parse text), ""⟩
    | .error e => ⟨some buffer, "", s!"Error: {e.message}\n"⟩
  | .print => ⟨some buffer, (Program.parse buffer).program.render 0, ""⟩
  | .check =>
    let result := Program.parse buffer
    ⟨some buffer, listing result.diagnostics ++ summary result, ""⟩
  | .clear => ⟨some "", "Cleared\n", ""⟩
  | .unknown => ⟨some buffer, "Unknown command. Type :help for help.\n", ""⟩
  | .append line =>
    let after := appendLine buffer line
    ⟨some after, listing (newDiagnostics buffer after), ""⟩

/-- The end of a session that is not broken off. -/
def ending : Output := ⟨0, farewell, ""⟩

/-- The end of a session with a line that cannot be read. -/
def breakOff : Output := ⟨101, "", ""⟩

/-- What comes of typed lines, up to the one that ends the session. -/
def run (read : String → Except FileError String) (atEnd : Output) (buffer : String) :
    List String → Output
  | [] => atEnd
  | line :: rest =>
    let r := reply read buffer (.ofLine line)
    let after := match r.buffer? with
      | none => ending
      | some buffer => run read atEnd buffer rest
    ⟨after.exit, r.stdout ++ after.stdout, r.stderr ++ after.stderr⟩

/-- A line without the carriage return at its end. -/
def dropReturn (cs : List Char) : List Char :=
  if cs.getLast? = some '\r' then cs.dropLast else cs

/-- The lines of an input. What follows the last newline is a line if it is not empty. -/
def typedLines (input : String) : List String :=
  let lines := (Excerpt.whole input).lines.map (·.chars)
  let last := (lines.getLast?.getD [])
  (lines.dropLast.map dropReturn ++ if last.isEmpty then [] else [last]).map String.ofList

/-- A typed line as it is read. -/
def readLine? (line : String) : Option String :=
  (eraseBackspaces? line.toList).map String.ofList

/-- The lines before the first that cannot be read, and the end after them. -/
def readLines : List String → List String × Output
  | [] => ([], ending)
  | line :: rest =>
    match readLine? line with
    | none => ([], breakOff)
    | some line =>
      let (lines, atEnd) := readLines rest
      (line :: lines, atEnd)

def session (disk : Disk) (input : String) : Output :=
  let (lines, atEnd) := readLines (typedLines input)
  let output := run disk.read atEnd "" lines
  ⟨output.exit, greeting ++ output.stdout, output.stderr⟩

end ShapeAssembly.Repl
