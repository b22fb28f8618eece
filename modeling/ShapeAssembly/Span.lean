namespace ShapeAssembly

/-- A stretch of text by its byte offsets, `stop` excluded. -/
structure Span where
  start : Nat
  stop : Nat
  deriving DecidableEq, Inhabited

namespace Span

def size (s : Span) : Nat := s.stop - s.start

def isEmpty (s : Span) : Bool := s.stop ≤ s.start

/-- The least span that covers both. -/
def merge (a b : Span) : Span := ⟨min a.start b.start, max a.stop b.stop⟩

end Span

/-- A value and the place where it stands. -/
structure Located (α : Type) where
  val : α
  span : Span
  deriving DecidableEq, Inhabited

abbrev Name := Located String

end ShapeAssembly
