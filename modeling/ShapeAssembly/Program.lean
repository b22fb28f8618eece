import ShapeAssembly.Double
import ShapeAssembly.Kind
import ShapeAssembly.Span

namespace ShapeAssembly

inductive Value where
  | float (d : Double)
  | bool (b : Bool)
  | axis (a : Axis)
  | face (f : Face)
  | name (text : String)
  deriving DecidableEq

structure Argument where
  raw : Name
  kind : Kind
  value : Value
  deriving DecidableEq

/-- `result = keyword(arguments)`, or without the result a plain call. -/
structure Statement where
  keyword : Name
  result : Option Name
  arguments : List Argument
  span : Span
  deriving DecidableEq

/-- A `def` header with the statements of its block. -/
structure Definition where
  name : Option Name
  parameters : List Name
  statements : List Statement
  span : Span
  deriving DecidableEq

/-- The block a run starts in, and the blocks it can use. -/
structure Program where
  entry : Definition
  subfunctions : List Definition
  deriving DecidableEq

namespace Statement

def variableArguments (s : Statement) : List Argument :=
  s.arguments.filter (·.kind = .existingVariable)

/-- The assigned name and then the variables used. -/
def references (s : Statement) : List Name :=
  s.result.toList ++ s.variableArguments.map (·.raw)

end Statement

namespace Definition

def empty (span : Span) : Definition := ⟨none, [], [], span⟩

def nameText (d : Definition) : Option String := d.name.map (·.val)

end Definition

namespace Program

/-- The entry comes first. -/
def definitions (p : Program) : List Definition := p.entry :: p.subfunctions

def subfunction? (p : Program) (name : String) : Option Definition :=
  p.subfunctions.find? (·.nameText = some name)

end Program

end ShapeAssembly
