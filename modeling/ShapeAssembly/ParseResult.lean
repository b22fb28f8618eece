import ShapeAssembly.Diagnostic
import ShapeAssembly.Program

namespace ShapeAssembly

/-- A program, and everything that is wrong with the text it was read from. -/
structure ParseResult where
  program : Program
  diagnostics : List Diagnostic
  deriving DecidableEq

namespace ParseResult

def errors (r : ParseResult) : List Diagnostic := r.diagnostics.filter (·.isError)

def warnings (r : ParseResult) : List Diagnostic := r.diagnostics.filter (!·.isError)

def hasErrors (r : ParseResult) : Bool := r.diagnostics.any (·.isError)

def nameSpans (r : ParseResult) : List Span :=
  r.program.definitions.filterMap fun d => d.name.map (·.span)

def parameterSpans (r : ParseResult) : List Span :=
  r.program.definitions.flatMap fun d => d.parameters.map (·.span)

def variableSpans (r : ParseResult) : List Span :=
  r.program.definitions.flatMap fun d => d.statements.flatMap fun s => s.references.map (·.span)

/-- The spans of the errors that cover at least one byte. -/
def errorSpans (r : ParseResult) : List Span := (r.errors.map (·.span)).filter (!·.isEmpty)

end ParseResult

end ShapeAssembly
