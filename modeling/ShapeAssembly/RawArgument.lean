import ShapeAssembly.Decimal
import ShapeAssembly.Program
import ShapeAssembly.Schema
import ShapeAssembly.Scope

namespace ShapeAssembly

/-- An argument as written: its text, and the kind of its token if it has only one. -/
structure RawArgument where
  text : Name
  token : Option TokenKind
  deriving DecidableEq

namespace RawArgument

/-- The argument of the tokens `first :: rest`. Its text runs on through the blanks between. -/
def ofTokens (source : Excerpt) (first : Token) : List Token → RawArgument
  | [] => ⟨first.name, some first.kind⟩
  | rest => ⟨⟨source.slice (first.reach rest), first.reach rest⟩, none⟩

def span (a : RawArgument) : Span := a.text.span

def ident? (a : RawArgument) : Option String :=
  if a.token = some .ident then some a.text.val else none

/-- An identifier that may name a variable. -/
def usable? (a : RawArgument) : Option String := a.ident?.filter (!isReserved ·)

/-- The value that a kind gives to the text. -/
def value? (a : RawArgument) : Kind → Option Value
  | .float =>
    if a.token = some .number then
      ((Decimal.read? a.text.val.toList).bind Decimal.toDouble?).map .float
    else none
  | .bool => (a.ident?.bind bool?).map .bool
  | .axis => (a.ident?.bind Axis.ofLiteral?).map .axis
  | .face => (a.ident?.bind Face.ofLiteral?).map .face
  | .newVariable | .existingVariable | .identifier => a.usable?.map .name

/-- What the scope has against a name of a kind. -/
def scopeCause? (scope : Scope) (name : String) : Kind → Option Cause
  | .existingVariable => if scope.contains name then none else some (.unboundVariable name)
  | .newVariable => if scope.contains name then some (.duplicateDefinition name) else none
  | _ => none

/-- Reads an argument as the kind of its position, counted from 1. -/
def coerce (keyword : String) (position : Nat) (kind : Kind) (scope : Scope) (a : RawArgument) :
    Except Fault Argument :=
  match a.value? kind with
  | none => .error ⟨.kindMismatch keyword position kind a.text.val, a.span⟩
  | some value =>
    match scopeCause? scope a.text.val kind with
    | some cause => .error ⟨cause, a.span⟩
    | none => .ok ⟨a.text, kind, value⟩

/-- Reads arguments from a position on; the first that does not fit decides. -/
def coerceFrom (keyword : String) (position : Nat) (scope : Scope) :
    List RawArgument → Signature → Except Fault (List Argument)
  | a :: as, kind :: kinds => do
    let arg ← a.coerce keyword position kind scope
    let args ← coerceFrom keyword (position + 1) scope as kinds
    return arg :: args
  | _, _ => .ok []

end RawArgument

/-- Reads arguments by the signature of their number. Where there is none, the fault covers the
arguments, or their list if it is empty. -/
def Schema.validate (schema : Schema) (args : List RawArgument) (list : Span) (scope : Scope) :
    Except Fault (List Argument) :=
  match schema.signature? args.length with
  | some kinds => RawArgument.coerceFrom schema.name 1 scope args kinds
  | none =>
    let span := match args.head?, args.getLast? with
      | some first, some last => first.span.merge last.span
      | _, _ => list
    .error ⟨.arity schema.name schema.arities args.length, span⟩

end ShapeAssembly
