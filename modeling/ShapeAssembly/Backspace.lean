import ShapeAssembly.Excerpt
import ShapeAssembly.Grapheme

namespace ShapeAssembly

/-- What is left of a line while it is typed: its characters, and the sizes of the signs that a
backspace takes away, the last of both first. -/
structure Typing where
  chars : List Char
  sizes : List Nat
  deriving DecidableEq

def backspace : Char := '\x08'

namespace Typing

def empty : Typing := ⟨[], []⟩

/-- Adds a sign, or takes the last one away. A size counts bytes and wraps after 255, so that
less than the whole of a long sign goes; no cut falls inside a character. -/
def type? (t : Typing) (sign : List Char) : Option Typing :=
  if sign = [backspace] then
    match t.sizes with
    | [] => some t
    | size :: sizes => (splitBytes? size t.chars).map fun (_, chars) => ⟨chars, sizes⟩
  else some ⟨sign.reverse ++ t.chars, byteSize sign % 256 :: t.sizes⟩

end Typing

/-- A typed line without its backspaces and the signs they take away. -/
def eraseBackspaces? (cs : List Char) : Option (List Char) :=
  ((Grapheme.split cs).foldlM Typing.type? Typing.empty).map (·.chars.reverse)

end ShapeAssembly
