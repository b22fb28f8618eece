import ShapeAssembly.Program

namespace ShapeAssembly

/-- Four blanks for each level. -/
def indentation (level : Nat) : List Char := List.replicate (4 * level) ' '

/-- Items with a comma and a blank between them. -/
def commaList (items : List (List Char)) : List Char := [',', ' '].intercalate items

namespace Statement

def chars (level : Nat) (s : Statement) : List Char :=
  let target := match s.result with
    | some r => r.val.toList ++ [' ', '=', ' ']
    | none => []
  indentation level ++ target ++ s.keyword.val.toList ++
    '(' :: commaList (s.arguments.map (·.raw.val.toList)) ++ [')']

def render (level : Nat) (s : Statement) : String := String.ofList (s.chars level)

end Statement

namespace Definition

def headerChars (level : Nat) (d : Definition) : List Char :=
  let name := match d.name with
    | some n => ' ' :: n.val.toList
    | none => []
  indentation level ++ ['d', 'e', 'f'] ++ name ++
    '(' :: commaList (d.parameters.map (·.val.toList)) ++ [')', ':']

/-- The header and the statements, one level deeper, on lines of their own. -/
def chars (level : Nat) (d : Definition) : List Char :=
  d.headerChars level ++ '\n' :: d.statements.flatMap fun s => s.chars (level + 1) ++ ['\n']

def render (level : Nat) (d : Definition) : String := String.ofList (d.chars level)

end Definition

namespace Program

/-- The definitions with an empty line between them. -/
def chars (level : Nat) (p : Program) : List Char :=
  ['\n'].intercalate (p.definitions.map (·.chars level))

/-- The canonical text of a program. -/
def render (level : Nat) (p : Program) : String := String.ofList (p.chars level)

end Program

end ShapeAssembly
