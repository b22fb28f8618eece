namespace ShapeAssembly

inductive TokenKind where
  | openParen | closeParen | comma | eq | colon
  | number | string | unterminatedString | ident | error
  deriving DecidableEq

namespace TokenKind

def all : List TokenKind :=
  [openParen, closeParen, comma, eq, colon, number, string, unterminatedString, ident, error]

def describe : TokenKind → String
  | openParen => "'('"
  | closeParen => "')'"
  | comma => "','"
  | eq => "'='"
  | colon => "':'"
  | number => "number"
  | string => "string"
  | unterminatedString => "unterminated string"
  | ident => "identifier"
  | error => "unrecognized character"

end TokenKind

/-- A stretch of text that is read as one: a token, or without a kind a run of blanks or a comment. -/
structure Lexeme where
  kind : Option TokenKind
  chars : List Char
  deriving DecidableEq

namespace Lexeme

def isBlank (c : Char) : Bool := c = ' ' || c = '\t' || c = '\r' || c = '\x0c'

def isIdentStart (c : Char) : Bool := c.isAlpha || c = '_'

def isIdentRest (c : Char) : Bool := c.isAlphanum || c = '_'

/-- How many characters from the start on have a property. -/
def run (p : Char → Bool) (cs : List Char) : Nat := (cs.takeWhile p).length

/-- The length of `e`, an optional sign and digits; 0 if they do not stand here. -/
def exponentLength : List Char → Nat
  | [] => 0
  | e :: cs =>
    if e = 'e' || e = 'E' then
      let sign := if cs.head? = some '+' ∨ cs.head? = some '-' then 1 else 0
      match run Char.isDigit (cs.drop sign) with
      | 0 => 0
      | digits => 1 + sign + digits
    else 0

/-- The length of digits with an optional point, at least one digit, and an optional exponent;
0 if they do not stand here. -/
def unsignedLength (cs : List Char) : Nat :=
  let whole := run Char.isDigit cs
  match cs.drop whole with
  | '.' :: rest =>
    match whole + run Char.isDigit rest with
    | 0 => 0
    | digits => digits + 1 + exponentLength (rest.drop (run Char.isDigit rest))
  | rest => if whole = 0 then 0 else whole + exponentLength rest

def numberLength : List Char → Nat
  | '-' :: cs =>
    match unsignedLength cs with
    | 0 => 0
    | n => 1 + n
  | cs => unsignedLength cs

/-- Whether a string is closed on its line, and its length after the opening quote. A backslash
takes the next character with it. -/
def stringTail : List Char → Bool × Nat
  | [] => (false, 0)
  | '"' :: _ => (true, 1)
  | '\n' :: _ => (false, 0)
  | ['\\'] => (false, 0)
  | '\\' :: c :: cs =>
    if c = '\n' then (false, 0) else let (closed, n) := stringTail cs; (closed, n + 2)
  | _ :: cs => let (closed, n) := stringTail cs; (closed, n + 1)

def punctuation? : Char → Option TokenKind
  | '(' => some .openParen
  | ')' => some .closeParen
  | ',' => some .comma
  | '=' => some .eq
  | ':' => some .colon
  | _ => none

/-- The kind of the longest lexeme that starts with `c`, and how many characters after `c` it
takes. A character that starts no other lexeme is an error by itself. -/
def munch (c : Char) (cs : List Char) : Option TokenKind × Nat :=
  if isBlank c then (none, run isBlank cs)
  else if c = '#' then (none, run (· ≠ '\n') cs)
  else if isIdentStart c then (some .ident, run isIdentRest cs)
  else if c = '"' then
    let (closed, n) := stringTail cs
    (some (if closed then .string else .unterminatedString), n)
  else match punctuation? c with
    | some kind => (some kind, 0)
    | none =>
      match numberLength (c :: cs) with
      | 0 => (some .error, 0)
      | n + 1 => (some .number, n)

/-- The lexemes that follow the first `n` characters. -/
def scanAfter : Nat → List Char → List Lexeme
  | _, [] => []
  | n + 1, _ :: cs => scanAfter n cs
  | 0, c :: cs =>
    let (kind, n) := munch c cs
    ⟨kind, c :: cs.take n⟩ :: scanAfter n cs

/-- Cuts a text into lexemes, each as long as possible. -/
def scan (cs : List Char) : List Lexeme := scanAfter 0 cs

theorem scanAfter_eq_scan_drop (n : Nat) (cs : List Char) : scanAfter n cs = scan (cs.drop n) := by
  induction cs generalizing n with
  | nil => simp [scan, scanAfter]
  | cons c cs ih =>
    cases n with
    | zero => rfl
    | succ n => simpa [scanAfter] using ih n

/-- No character is lost. -/
theorem flatMap_chars_scanAfter (n : Nat) (cs : List Char) :
    (scanAfter n cs).flatMap (·.chars) = cs.drop n := by
  induction cs generalizing n with
  | nil => simp [scanAfter]
  | cons c cs ih =>
    cases n with
    | zero => simp [scanAfter, ih, List.take_append_drop]
    | succ n => simpa [scanAfter] using ih n

end Lexeme

end ShapeAssembly
