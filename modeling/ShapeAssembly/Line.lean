import ShapeAssembly.Header
import ShapeAssembly.WhiteSpace

namespace ShapeAssembly

/-- A line that starts a block. The header itself may not lex. -/
inductive Opening where
  | readable (source : Excerpt) (header : Header)
  | unreadable (source : Excerpt) (string : UnterminatedString)
  deriving DecidableEq

/-- A line that starts no block. -/
inductive BodyLine where
  | blank
  | content (source : Excerpt) (first : Token) (rest : List Token)
  | unreadable (string : UnterminatedString)
  deriving DecidableEq

inductive Line where
  | opening (o : Opening)
  | body (b : BodyLine)
  deriving DecidableEq

namespace Line

/-- Whether the first word of a text is `def` in any case. -/
def startsWithDef (cs : List Char) : Bool :=
  sameLetters (String.ofList ((trimStart cs).takeWhile Lexeme.isIdentRest)) "def"

/-- A line that does not lex opens a block if its first word is `def`. -/
def ofExcerpt (source : Excerpt) : Line :=
  match source.tokens with
  | .error string =>
    if startsWithDef source.chars then .opening (.unreadable source string)
    else .body (.unreadable string)
  | .ok [] => .body .blank
  | .ok (t :: ts) =>
    match Header.ofTokens? (t :: ts) with
    | some header => .opening (.readable source header)
    | none => .body (.content source t ts)

end Line

end ShapeAssembly
