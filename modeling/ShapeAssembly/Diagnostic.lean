import ShapeAssembly.Span

namespace ShapeAssembly

/-- The class of a problem. -/
inductive Code where
  | lex | schemaLookup | arity | kindMismatch | unboundVariable | duplicateDefinition
  | structural | syntactic
  deriving DecidableEq

namespace Code

def all : List Code :=
  [lex, schemaLookup, arity, kindMismatch, unboundVariable, duplicateDefinition, structural,
    syntactic]

def id : Code → String
  | lex => "E-LEX-001"
  | schemaLookup => "E-SCHEMA-001"
  | arity => "E-ARITY-001"
  | kindMismatch => "E-KIND-001"
  | unboundVariable => "E-UNBOUND-001"
  | duplicateDefinition => "E-DUP-001"
  | structural => "E-STRUCT-001"
  | syntactic => "E-SYNTAX-001"

end Code

inductive Severity where
  | error | warning
  deriving DecidableEq

structure Diagnostic where
  code : Code
  severity : Severity
  message : String
  span : Span
  deriving DecidableEq

namespace Diagnostic

def ofError (code : Code) (message : String) (span : Span) : Diagnostic :=
  ⟨code, .error, message, span⟩

def isError (d : Diagnostic) : Bool := d.severity = .error

/-- The diagnostic in one line. -/
def line (d : Diagnostic) : String :=
  s!"{d.code.id}: {d.message} (at {d.span.start}..{d.span.stop})"

end Diagnostic

end ShapeAssembly
