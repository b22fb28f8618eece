import ShapeAssembly.Json

namespace ShapeAssembly.Json

/-- A part of a quoted text: a character or a UTF-16 unit. -/
inductive TextPart where
  | char (c : Char)
  | unit (n : Nat)
  deriving DecidableEq

def hexDigit? (c : Char) : Option Nat :=
  if c.isDigit then some (c.toNat - '0'.toNat)
  else if 'a' ≤ c ∧ c ≤ 'f' then some (c.toNat - 'a'.toNat + 10)
  else if 'A' ≤ c ∧ c ≤ 'F' then some (c.toNat - 'A'.toNat + 10)
  else none

def hexUnit? (a b c d : Char) : Option Nat := do
  return ((← hexDigit? a) * 16 + (← hexDigit? b)) * 256 + (← hexDigit? c) * 16 + (← hexDigit? d)

def unescape? : Char → Option Char
  | '"' => some '"'
  | '\\' => some '\\'
  | '/' => some '/'
  | 'n' => some '\n'
  | 'r' => some '\r'
  | 't' => some '\t'
  | 'b' => some '\x08'
  | 'f' => some '\x0c'
  | _ => none

/-- The parts of a text after its opening quote, and its length with the closing one. -/
def textParts? : List Char → Option (List TextPart × Nat)
  | [] => none
  | '"' :: _ => some ([], 1)
  | '\\' :: 'u' :: a :: b :: c :: d :: cs => do
    let unit ← hexUnit? a b c d
    let (parts, n) ← textParts? cs
    return (.unit unit :: parts, n + 6)
  | '\\' :: c :: cs => do
    let c ← unescape? c
    let (parts, n) ← textParts? cs
    return (.char c :: parts, n + 2)
  | c :: cs =>
    if c = '\\' ∨ c.toNat < 0x20 then none
    else (textParts? cs).map fun (parts, n) => (.char c :: parts, n + 1)

/-- Units are characters, or in pairs of a high and a low surrogate half characters. -/
def joinParts? : List TextPart → Option (List Char)
  | [] => some []
  | .char c :: parts => (c :: ·) <$> joinParts? parts
  | .unit high :: parts =>
    if high < 0xd800 ∨ 0xdfff < high then (Char.ofNat high :: ·) <$> joinParts? parts
    else match parts with
      | .unit low :: rest =>
        if high < 0xdc00 ∧ 0xdc00 ≤ low ∧ low ≤ 0xdfff then
          (Char.ofNat (0x10000 + (high - 0xd800) * 0x400 + (low - 0xdc00)) :: ·) <$>
            joinParts? rest
        else none
      | _ => none

inductive Symbol where
  | openArray | closeArray | openObject | closeObject | comma | colon
  | value (j : Json)

namespace Symbol

def isBlank (c : Char) : Bool := c = ' ' || c = '\t' || c = '\r' || c = '\n'

def isNumeric (c : Char) : Bool :=
  c.isDigit || c = '-' || c = '+' || c = '.' || c = 'e' || c = 'E'

/-- Digits alone are a natural number, any other number is a double. -/
def number? (cs : List Char) : Option Json :=
  if cs.all Char.isDigit then some (.natural (Decimal.ofDigits cs))
  else ((Decimal.read? cs).bind Decimal.toDouble?).map .double

def word? (cs : List Char) : Option Json :=
  match String.ofList cs with
  | "null" => some .null
  | "true" => some (.bool true)
  | "false" => some (.bool false)
  | _ => none

/-- The symbol that starts with `c`, and how many characters after `c` it takes. -/
def start? (c : Char) (cs : List Char) : Option (Symbol × Nat) :=
  match c with
  | '[' => some (openArray, 0)
  | ']' => some (closeArray, 0)
  | '{' => some (openObject, 0)
  | '}' => some (closeObject, 0)
  | ',' => some (comma, 0)
  | ':' => some (colon, 0)
  | '"' => do
    let (parts, n) ← textParts? cs
    return (value (.text (String.ofList (← joinParts? parts))), n)
  | c =>
    let more := cs.takeWhile (if c.isAlpha then Char.isAlpha else isNumeric)
    (if c.isAlpha then word? (c :: more) else if c.isDigit ∨ c = '-' then number? (c :: more)
      else none).map fun j => (value j, more.length)

/-- The symbols that follow the first `n` characters. -/
def scanAfter? : Nat → List Char → Option (List Symbol)
  | _, [] => some []
  | n + 1, _ :: cs => scanAfter? n cs
  | 0, c :: cs =>
    if isBlank c then scanAfter? 0 cs
    else do
      let (symbol, n) ← start? c cs
      let rest ← scanAfter? n cs
      return symbol :: rest

/-- The items after the first, and what follows the array. -/
def moreItems? : List Symbol → Option (List Json × List Symbol)
  | closeArray :: rest => some ([], rest)
  | comma :: value j :: rest => (moreItems? rest).map fun (js, rest) => (j :: js, rest)
  | _ => none

def items? : List Symbol → Option (List Json × List Symbol)
  | closeArray :: rest => some ([], rest)
  | value j :: rest => (moreItems? rest).map fun (js, rest) => (j :: js, rest)
  | _ => none

def moreFields? : List Symbol → Option (List (String × Json) × List Symbol)
  | closeObject :: rest => some ([], rest)
  | comma :: value (.text key) :: colon :: value j :: rest =>
    (moreFields? rest).map fun (fields, rest) => ((key, j) :: fields, rest)
  | _ => none

def fields? : List Symbol → Option (List (String × Json) × List Symbol)
  | closeObject :: rest => some ([], rest)
  | value (.text key) :: colon :: value j :: rest =>
    (moreFields? rest).map fun (fields, rest) => ((key, j) :: fields, rest)
  | _ => none

/-- Puts a symbol in front of reduced ones. An opening bracket turns what follows it, up to the
bracket that closes it, into one value. -/
def push? (symbol : Symbol) (reduced : List Symbol) : Option (List Symbol) :=
  match symbol with
  | openArray => (items? reduced).map fun (items, rest) => value (.array items) :: rest
  | openObject => (fields? reduced).map fun (fields, rest) => value (.object fields) :: rest
  | _ => some (symbol :: reduced)

def reduce? : List Symbol → Option (List Symbol)
  | [] => some []
  | symbol :: rest => (reduce? rest).bind symbol.push?

end Symbol

def read? (text : String) : Option Json :=
  match (Symbol.scanAfter? 0 text.toList).bind Symbol.reduce? with
  | some [.value j] => some j
  | _ => none

end ShapeAssembly.Json
