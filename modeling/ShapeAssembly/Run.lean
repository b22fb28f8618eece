import ShapeAssembly.Repl

namespace ShapeAssembly.Command

/-- Runs a command on a disk and an input. The text of the help is left to the caller. -/
def run (draw : Drawing) (disk : Disk) (input : String) : Command → Output
  | .parse file style => .ofFile disk file (parseText style)
  | .check paths => checkPaths draw disk paths
  | .highlight file style => .ofFile disk file (highlightText style)
  | .format file => .ofFile disk file (formatText draw file)
  | .repl => Repl.session disk input
  | .help => ⟨0, "", ""⟩

/-- Runs the command that some words ask for. -/
def runWords (disk : Disk) (input : String) (words : List String) (draw : Drawing := .blank) :
    Output :=
  match ofWords? [] words with
  | some command => command.run draw disk input
  | none => ⟨2, "", ""⟩

end ShapeAssembly.Command
