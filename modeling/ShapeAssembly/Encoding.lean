import ShapeAssembly.Highlight
import ShapeAssembly.Json

namespace ShapeAssembly

def Code.label : Code → String
  | lex => "Lex"
  | schemaLookup => "SchemaLookup"
  | arity => "Arity"
  | kindMismatch => "KindMismatch"
  | unboundVariable => "UnboundVariable"
  | duplicateDefinition => "DuplicateDefinition"
  | structural => "Structural"
  | syntactic => "Syntax"

def Code.ofLabel? (text : String) : Option Code := all.find? (·.label = text)

def Severity.label : Severity → String
  | error => "Error"
  | warning => "Warning"

def Severity.ofLabel? (text : String) : Option Severity := [error, warning].find? (·.label = text)

def Kind.label : Kind → String
  | newVariable => "NewVariable"
  | existingVariable => "ExistingVariable"
  | float => "Float"
  | bool => "Bool"
  | axis => "Axis"
  | face => "Face"
  | identifier => "Identifier"

def Kind.ofLabel? (text : String) : Option Kind := all.find? (·.label = text)

def Face.label : Face → String
  | left => "Left"
  | right => "Right"
  | bot => "Bot"
  | top => "Top"
  | back => "Back"
  | front => "Front"

def Face.ofLabel? (text : String) : Option Face := all.find? (·.label = text)

namespace Span

def toJson (s : Span) : Json := .object [("start", .natural s.start), ("end", .natural s.stop)]

def ofJson? (j : Json) : Option Span := do
  return ⟨← (← j.field? "start").natural?, ← (← j.field? "end").natural?⟩

end Span

namespace Name

def toJson (n : Name) : Json := .object [("node", .text n.val), ("span", n.span.toJson)]

def ofJson? (j : Json) : Option Name := do
  return ⟨← (← j.field? "node").text?, ← Span.ofJson? (← j.field? "span")⟩

end Name

namespace Value

/-- One field, named for the form of the value. -/
def toJson : Value → Json
  | float d => .object [("Float", .double d)]
  | bool b => .object [("Bool", .bool b)]
  | axis a => .object [("Axis", .text a.literal)]
  | face f => .object [("Face", .text f.label)]
  | name t => .object [("Name", .text t)]

def ofJson? : Json → Option Value
  | .object [("Float", j)] => j.double?.map float
  | .object [("Bool", j)] => j.bool?.map bool
  | .object [("Axis", j)] => (j.text?.bind Axis.ofLiteral?).map axis
  | .object [("Face", j)] => (j.text?.bind Face.ofLabel?).map face
  | .object [("Name", j)] => j.text?.map name
  | _ => none

end Value

namespace Argument

def toJson (a : Argument) : Json :=
  .object [("raw", Name.toJson a.raw), ("kind", .text a.kind.label), ("value", a.value.toJson)]

def ofJson? (j : Json) : Option Argument := do
  return ⟨← Name.ofJson? (← j.field? "raw"), ← Kind.ofLabel? (← (← j.field? "kind").text?),
    ← Value.ofJson? (← j.field? "value")⟩

end Argument

namespace Statement

def toJson (s : Statement) : Json :=
  .object [("keyword", Name.toJson s.keyword), ("result", Json.ofOption Name.toJson s.result),
    ("arguments", .array (s.arguments.map Argument.toJson)), ("span", s.span.toJson)]

def ofJson? (j : Json) : Option Statement := do
  return ⟨← Name.ofJson? (← j.field? "keyword"), ← Json.optional? Name.ofJson? (j.field? "result"),
    ← Json.list? Argument.ofJson? (← j.field? "arguments"), ← Span.ofJson? (← j.field? "span")⟩

end Statement

namespace Definition

def toJson (d : Definition) : Json :=
  .object [("name", Json.ofOption Name.toJson d.name),
    ("parameters", .array (d.parameters.map Name.toJson)),
    ("statements", .array (d.statements.map Statement.toJson)), ("span", d.span.toJson)]

def ofJson? (j : Json) : Option Definition := do
  return ⟨← Json.optional? Name.ofJson? (j.field? "name"),
    ← Json.list? Name.ofJson? (← j.field? "parameters"),
    ← Json.list? Statement.ofJson? (← j.field? "statements"), ← Span.ofJson? (← j.field? "span")⟩

end Definition

namespace Program

def toJson (p : Program) : Json :=
  .object [("entry_function", p.entry.toJson),
    ("subfunctions", .array (p.subfunctions.map Definition.toJson))]

def ofJson? (j : Json) : Option Program := do
  return ⟨← Definition.ofJson? (← j.field? "entry_function"),
    ← Json.list? Definition.ofJson? (← j.field? "subfunctions")⟩

end Program

namespace Diagnostic

def toJson (d : Diagnostic) : Json :=
  .object [("code", .text d.code.label), ("severity", .text d.severity.label),
    ("message", .text d.message), ("span", d.span.toJson)]

def ofJson? (j : Json) : Option Diagnostic := do
  return ⟨← Code.ofLabel? (← (← j.field? "code").text?),
    ← Severity.ofLabel? (← (← j.field? "severity").text?), ← (← j.field? "message").text?,
    ← Span.ofJson? (← j.field? "span")⟩

end Diagnostic

namespace ParseResult

def toJson (r : ParseResult) : Json :=
  .object [("program", r.program.toJson),
    ("diagnostics", .array (r.diagnostics.map Diagnostic.toJson))]

def ofJson? (j : Json) : Option ParseResult := do
  return ⟨← Program.ofJson? (← j.field? "program"),
    ← Json.list? Diagnostic.ofJson? (← j.field? "diagnostics")⟩

end ParseResult

namespace Highlight

def toJson (h : Highlight) : Json :=
  .object [("class", .text h.kind.text),
    ("range", .object [("line", .natural h.range.line), ("start", .natural h.range.start),
      ("end", .natural h.range.stop)])]

end Highlight

end ShapeAssembly
