import ShapeAssembly.Span

namespace ShapeAssembly

def byteSize : List Char → Nat
  | [] => 0
  | c :: cs => c.utf8Size + byteSize cs

@[simp] theorem byteSize_nil : byteSize [] = 0 := rfl

@[simp] theorem byteSize_cons (c : Char) (cs : List Char) :
    byteSize (c :: cs) = c.utf8Size + byteSize cs := rfl

@[simp] theorem byteSize_append (as bs : List Char) :
    byteSize (as ++ bs) = byteSize as + byteSize bs := by
  induction as with
  | nil => simp
  | cons c as ih => simp [ih, Nat.add_assoc]

/-- Cuts after `n` bytes. No cut falls inside a character or past the end. -/
def splitBytes? : Nat → List Char → Option (List Char × List Char)
  | 0, cs => some ([], cs)
  | _ + 1, [] => none
  | n + 1, c :: cs =>
    if c.utf8Size ≤ n + 1 then
      (splitBytes? (n + 1 - c.utf8Size) cs).map fun (before, after) => (c :: before, after)
    else none

theorem splitBytes_append (as bs : List Char) :
    splitBytes? (byteSize as) (as ++ bs) = some (as, bs) := by
  induction as with
  | nil => simp [splitBytes?]
  | cons c as ih =>
    have hc := c.utf8Size_pos
    obtain ⟨n, hn⟩ : ∃ n, byteSize (c :: as) = n + 1 := ⟨byteSize (c :: as) - 1, by simp; omega⟩
    have hle : c.utf8Size ≤ n + 1 := by rw [← hn]; simp
    have hrest : n + 1 - c.utf8Size = byteSize as := by rw [← hn]; simp
    rw [hn, List.cons_append, splitBytes?, if_pos hle, hrest, ih]
    rfl

/-- Consecutive characters of a text, of which the first lies at byte `start`. -/
structure Excerpt where
  start : Nat
  chars : List Char
  deriving DecidableEq

namespace Excerpt

/-- The whole of a text. -/
def whole (text : String) : Excerpt := ⟨0, text.toList⟩

def span (e : Excerpt) : Span := ⟨e.start, e.start + byteSize e.chars⟩

/-- The characters before a span, within it and after it. -/
def split? (e : Excerpt) (s : Span) : Option (List Char × List Char × List Char) := do
  if s.start < e.start ∨ s.stop < s.start then none
  let (before, rest) ← splitBytes? (s.start - e.start) e.chars
  let (within, after) ← splitBytes? (s.stop - s.start) rest
  return (before, within, after)

/-- The text at a span; none where the span is inverted, leaves the excerpt or cuts a character. -/
def slice? (e : Excerpt) (s : Span) : Option String :=
  (e.split? s).map fun (_, within, _) => String.ofList within

/-- The text at a span of the excerpt; no text where there is none. -/
def slice (e : Excerpt) (s : Span) : String := (e.slice? s).getD ""

def replace? (e : Excerpt) (s : Span) (text : String) : Option Excerpt :=
  (e.split? s).map fun (before, _, after) => ⟨e.start, before ++ text.toList ++ after⟩

/-- The first line from byte `start` on, and the lines after it. -/
def linesFrom (start : Nat) : List Char → Excerpt × List Excerpt
  | [] => (⟨start, []⟩, [])
  | c :: cs =>
    let (line, more) := linesFrom (start + c.utf8Size) cs
    if c = '\n' then (⟨start, []⟩, line :: more) else (⟨start, c :: line.chars⟩, more)

/-- The lines without their newlines. There is one line more than there are newlines. -/
def lines (e : Excerpt) : List Excerpt :=
  let (line, more) := linesFrom e.start e.chars
  line :: more

end Excerpt

end ShapeAssembly
