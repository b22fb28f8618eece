import ShapeAssembly.Excerpt

namespace ShapeAssembly

/-- A span within one line, by byte columns. -/
structure LocalRange where
  line : Nat
  start : Nat
  stop : Nat
  deriving DecidableEq

/-- The spans of the lines of a text. -/
structure LineIndex where
  spans : List Span
  deriving DecidableEq

/-- A span in the columns of a line that covers `whole`; none if it is empty or leaves the line. -/
def LocalRange.within? (line : Nat) (whole s : Span) : Option LocalRange :=
  if s.isEmpty ∨ s.start < whole.start ∨ whole.stop < s.stop then none
  else some ⟨line, s.start - whole.start, s.stop - whole.start⟩

namespace LineIndex

def ofExcerpt (e : Excerpt) : LineIndex := ⟨e.lines.map (·.span)⟩

def ofText (text : String) : LineIndex := ofExcerpt (.whole text)

def count (index : LineIndex) : Nat := index.spans.length

def span? (index : LineIndex) (line : Nat) : Option Span := index.spans[line]?

/-- The last line that does not start after an offset. -/
def lineOf (index : LineIndex) (offset : Nat) : Nat :=
  (index.spans.takeWhile (·.start ≤ offset)).length - 1

/-- A span in the columns of the line that it starts on. -/
def toLocal? (index : LineIndex) (s : Span) : Option LocalRange :=
  let line := index.lineOf s.start
  (index.span? line).bind fun whole => LocalRange.within? line whole s

def toLocals (index : LineIndex) (spans : List Span) : List LocalRange :=
  spans.filterMap index.toLocal?

def rangesOnLine (index : LineIndex) (line : Nat) (spans : List Span) : List LocalRange :=
  match index.span? line with
  | none => []
  | some whole => spans.filterMap (LocalRange.within? line whole)

end LineIndex

end ShapeAssembly
