import ShapeAssembly.Diagnostic
import ShapeAssembly.Kind
import ShapeAssembly.Token

namespace ShapeAssembly

/-- What is wrong with the shape of a line. -/
inductive SyntaxFault where
  | emptyStatement
  | resultExpected
  | keywordMissing
  | keywordExpected (found : TokenKind)
  | resultRequired (keyword : String)
  | openParenMissing
  | openParenExpected (found : TokenKind)
  | unclosedParen
  | unexpected (found : TokenKind)
  | afterCloseParen (found : TokenKind)
  | emptyArgument
  | other (message : String)
  deriving DecidableEq

/-- What is wrong with the division into blocks. -/
inductive StructureFault where
  | headerKeyword (keyword : String)
  | outsideBlock
  | unnamedSubfunction
  | missingEntry
  | other (message : String)
  deriving DecidableEq

inductive Cause where
  | unterminatedString
  | unknownKeyword (name : String)
  | arity (keyword : String) (expected : List Nat) (found : Nat)
  | kindMismatch (keyword : String) (position : Nat) (expected : Kind) (found : String)
  | invalidName (expected : Kind) (found : String)
  | unboundVariable (name : String)
  | duplicateDefinition (name : String)
  | structural (fault : StructureFault)
  | syntactic (fault : SyntaxFault)
  deriving DecidableEq

/-- A reason to refuse a piece of text, and the place of that piece. -/
structure Fault where
  cause : Cause
  span : Span
  deriving DecidableEq

namespace SyntaxFault

def message : SyntaxFault → String
  | emptyStatement => "empty statement"
  | resultExpected => "expected a variable name before '='"
  | keywordMissing => "expected a keyword after '='"
  | keywordExpected found => s!"expected a keyword, found {found.describe}"
  | resultRequired keyword => s!"the result of `{keyword}` must be assigned to a variable"
  | openParenMissing => "expected '(' after this"
  | openParenExpected found => s!"expected '(', found {found.describe}"
  | unclosedParen => "unclosed '('"
  | unexpected found => s!"unexpected {found.describe}"
  | afterCloseParen found => s!"unexpected {found.describe} after ')'"
  | emptyArgument => "empty argument"
  | other message => message

end SyntaxFault

namespace StructureFault

def message : StructureFault → String
  | headerKeyword keyword => s!"`{keyword}` may only start a function header"
  | outsideBlock => "statement outside of a function definition"
  | unnamedSubfunction => "subfunction is missing a name"
  | missingEntry => "missing entry function: a program must start with a `def` header"
  | other message => message

end StructureFault

/-- Commas between all but the last two, and `or` before the last. -/
def alternatives : List String → String
  | [] => "nothing"
  | [a] => a
  | [a, b] => s!"{a} or {b}"
  | a :: rest => s!"{a}, {alternatives rest}"

namespace Cause

def code : Cause → Code
  | unterminatedString => .lex
  | unknownKeyword _ => .schemaLookup
  | arity .. => .arity
  | kindMismatch .. => .kindMismatch
  | invalidName .. => .kindMismatch
  | unboundVariable _ => .unboundVariable
  | duplicateDefinition _ => .duplicateDefinition
  | structural _ => .structural
  | syntactic _ => .syntactic

def message : Cause → String
  | unterminatedString => "unterminated string literal"
  | unknownKeyword name => s!"unrecognized keyword `{name}`"
  | arity keyword expected found =>
    let counts := alternatives (expected.map Nat.repr)
    s!"wrong number of arguments to `{keyword}`: expected {counts}, found {found}"
  | kindMismatch keyword position expected found =>
    s!"argument {position} of `{keyword}`: expected {expected.describe}, found `{found}`"
  | invalidName expected found => s!"expected {expected.describe}, found `{found}`"
  | unboundVariable name => s!"unbound variable `{name}`"
  | duplicateDefinition name => s!"duplicate definition of `{name}`"
  | structural fault => fault.message
  | syntactic fault => fault.message

end Cause

namespace Fault

def code (f : Fault) : Code := f.cause.code

def message (f : Fault) : String := f.cause.message

def diagnostic (f : Fault) : Diagnostic := .ofError f.code f.message f.span

def ofSyntax (fault : SyntaxFault) (span : Span) : Fault := ⟨.syntactic fault, span⟩

def ofStructure (fault : StructureFault) (span : Span) : Fault := ⟨.structural fault, span⟩

end Fault

def UnterminatedString.fault (u : UnterminatedString) : Fault := ⟨.unterminatedString, u.span⟩

end ShapeAssembly
