import ShapeAssembly.Excerpt
import ShapeAssembly.Lexeme

namespace ShapeAssembly

structure Token where
  kind : TokenKind
  text : String
  span : Span
  deriving DecidableEq

/-- A string that is still open at the end of its line. -/
structure UnterminatedString where
  span : Span
  deriving DecidableEq

namespace Token

/-- Lays lexemes out from byte `start` on. Blanks and comments leave no token. -/
def place (start : Nat) : List Lexeme → Except UnterminatedString (List Token)
  | [] => .ok []
  | lexeme :: rest =>
    let stop := start + byteSize lexeme.chars
    match lexeme.kind with
    | none => place stop rest
    | some .unterminatedString => .error ⟨⟨start, stop⟩⟩
    | some kind => (⟨kind, String.ofList lexeme.chars, ⟨start, stop⟩⟩ :: ·) <$> place stop rest

def name (t : Token) : Name := ⟨t.text, t.span⟩

/-- From the first to the last of `first :: rest`. -/
def reach (first : Token) (rest : List Token) : Span :=
  first.span.merge (rest.getLast?.getD first).span

def spanOf : List Token → Span
  | [] => default
  | t :: ts => t.reach ts

end Token

namespace Excerpt

/-- The tokens of an excerpt that is read as one line. -/
def tokens (e : Excerpt) : Except UnterminatedString (List Token) :=
  Token.place e.start (Lexeme.scan e.chars)

/-- The tokens of all lines; the first line that does not lex fails the whole. -/
def lineTokens (e : Excerpt) : Except UnterminatedString (List Token) :=
  List.flatten <$> e.lines.mapM tokens

end Excerpt

end ShapeAssembly
