import ShapeAssembly.Run

namespace ShapeAssembly

/-- The system's code for a directory in place of a file, or its negation. -/
def isDirectoryCode (code : UInt32) : Bool := code = 21 || code + 21 = 0

/-- The tree at a path of the file system. Directories are not listed here: one is found as a file
that cannot be read, and a check says so. The programs in it are named one by one. -/
def findOnDisk (path : String) : IO (Except FileError FileTree) := do
  try
    return .ok (.file (← IO.FS.readBinFile path))
  catch
    | .noFileOrDirectory .. => return .error .notFound
    | .inappropriateType _ code _ =>
      return .error (if isDirectoryCode code then .isDirectory else .notDirectory)
    | e => return .error (.other (toString e))

/-- No report is drawn here: a diagnostic is printed in one line. -/
def Drawing.undrawn : Drawing := fun _ _ _ => ⟨"", false⟩

def Output.emit (output : Output) : IO UInt32 := do
  IO.print output.stdout
  IO.eprint output.stderr
  return output.exit.toUInt32

/-- The paths that a command reads. -/
def Command.paths : Command → List String
  | parse file _ | highlight file _ | format file => [file]
  | check paths => paths
  | repl | help => []

namespace Repl

def answer (buffer line : String) : IO Reply := do
  let request := Request.ofLine line
  let text ← match request with
    | .load path => do
      let found ← findOnDisk path
      pure (found.bind FileTree.text)
    | _ => pure (.error .notFound)
  return reply (fun _ => text) buffer request

/-- Answers each line as it is typed. -/
partial def loop (input : IO.FS.Stream) (buffer : String) : IO UInt32 := do
  match typedLines (← input.getLine) with
  | [] => ending.emit
  | line :: _ =>
    match readLine? line with
    | none => breakOff.emit
    | some line =>
      let r ← answer buffer line
      let _ ← Output.emit ⟨0, r.stdout, r.stderr⟩
      match r.buffer? with
      | none => ending.emit
      | some buffer => loop input buffer

end Repl

end ShapeAssembly

open ShapeAssembly in
def main (words : List String) : IO UInt32 := do
  match Command.ofWords? [] words with
  | some .repl =>
    IO.print Repl.greeting
    Repl.loop (← IO.getStdin) ""
  | some command =>
    let found ← command.paths.mapM fun path => return (path, ← findOnDisk path)
    (command.run .undrawn (fun path => (found.lookup path).getD (.error .notFound)) "").emit
  | none => return 2
