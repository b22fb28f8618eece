import ShapeAssembly.LineIndex
import ShapeAssembly.Program.Parser
import ShapeAssembly.Sorting

namespace ShapeAssembly

/-- What a highlighted range shows. -/
inductive HighlightClass where
  | definitionName | definitionParameter | variableReference | error
  deriving DecidableEq

namespace HighlightClass

def all : List HighlightClass := [definitionName, definitionParameter, variableReference, error]

/-- The place in the order of classes at one column. -/
def rank : HighlightClass → Nat
  | definitionName => 0
  | definitionParameter => 1
  | variableReference => 2
  | error => 3

def text : HighlightClass → String
  | definitionName => "DefinitionName"
  | definitionParameter => "DefinitionParameter"
  | variableReference => "VariableReference"
  | error => "Error"

def spans (r : ParseResult) : HighlightClass → List Span
  | definitionName => r.nameSpans
  | definitionParameter => r.parameterSpans
  | variableReference => r.variableSpans
  | error => r.errorSpans

end HighlightClass

structure Highlight where
  kind : HighlightClass
  range : LocalRange
  deriving DecidableEq

namespace Highlight

/-- Ascending in line, column and class. -/
def le (a b : Highlight) : Bool :=
  a.range.line < b.range.line || (a.range.line = b.range.line &&
    (a.range.start < b.range.start || (a.range.start = b.range.start &&
      a.kind.rank ≤ b.kind.rank)))

/-- The ranges of each class in turn, brought into order. -/
def gather (ranges : HighlightClass → List LocalRange) : List Highlight :=
  stableSort le (HighlightClass.all.flatMap fun c => (ranges c).map fun r => ⟨c, r⟩)

end Highlight

/-- A text, parsed, with its lines. -/
structure Highlighter where
  result : ParseResult
  index : LineIndex

namespace Highlighter

def ofText (text : String) : Highlighter := ⟨Program.parse text, LineIndex.ofText text⟩

def all (h : Highlighter) : List Highlight :=
  Highlight.gather fun c => h.index.toLocals (c.spans h.result)

/-- The highlights of one line; a line past the end has none. -/
def line (h : Highlighter) (line : Nat) : List Highlight :=
  Highlight.gather fun c => h.index.rangesOnLine line (c.spans h.result)

end Highlighter

end ShapeAssembly
