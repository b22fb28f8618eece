import ShapeAssembly.Decimal.Shortest
import ShapeAssembly.Json

namespace ShapeAssembly.Json

/-- In one line, or each item on a line of its own. -/
inductive Style where
  | compact | pretty
  deriving DecidableEq

def escape (c : Char) : List Char :=
  match c with
  | '"' => ['\\', '"']
  | '\\' => ['\\', '\\']
  | '\n' => ['\\', 'n']
  | '\r' => ['\\', 'r']
  | '\t' => ['\\', 't']
  | '\x08' => ['\\', 'b']
  | '\x0c' => ['\\', 'f']
  | c =>
    if c.toNat < 0x20 then
      ['\\', 'u', '0', '0', Nat.digitChar (c.toNat / 16), Nat.digitChar (c.toNat % 16)]
    else [c]

def quote (s : String) : List Char := '"' :: s.toList.flatMap escape ++ ['"']

/-- Doubles are written out in places down to 10⁻⁵ and up to 16 digits before the point. -/
def places : Decimal.Layout := ⟨-5, 15⟩

def lineBreak (depth : Nat) : Style → List Char
  | .compact => []
  | .pretty => '\n' :: List.replicate (2 * depth) ' '

def keyMark : Style → List Char
  | .compact => [':']
  | .pretty => [':', ' ']

mutual

def chars (style : Style) (depth : Nat) : Json → List Char
  | null => "null".toList
  | bool b => if b then "true".toList else "false".toList
  | natural n => Nat.toDigits 10 n
  | double d => d.shortest.text places
  | text s => quote s
  | array [] => ['[', ']']
  | array (j :: js) =>
    '[' :: lineBreak (depth + 1) style ++ chars style (depth + 1) j ++
      moreItems style (depth + 1) js ++ lineBreak depth style ++ [']']
  | object [] => ['{', '}']
  | object ((key, j) :: fields) =>
    '{' :: lineBreak (depth + 1) style ++ quote key ++ keyMark style ++
      chars style (depth + 1) j ++ moreFields style (depth + 1) fields ++
      lineBreak depth style ++ ['}']

def moreItems (style : Style) (depth : Nat) : List Json → List Char
  | [] => []
  | j :: js => ',' :: lineBreak depth style ++ chars style depth j ++ moreItems style depth js

def moreFields (style : Style) (depth : Nat) : List (String × Json) → List Char
  | [] => []
  | (key, j) :: fields =>
    ',' :: lineBreak depth style ++ quote key ++ keyMark style ++ chars style depth j ++
      moreFields style depth fields

end

def render (style : Style) (j : Json) : String := String.ofList (j.chars style 0)

end ShapeAssembly.Json
