import ShapeAssembly.Statement.Parser

namespace ShapeAssembly

/-- A `def` line: the place of its `def`, the name, the tokens of the parameter list without a
final colon, and the span of all tokens. -/
structure Header where
  define : Span
  name : Option Name
  list : List Token
  span : Span
  deriving DecidableEq

namespace Header

def dropColon (ts : List Token) : List Token :=
  match ts.getLast? with
  | some t => if t.kind = .colon then ts.dropLast else ts
  | none => ts

/-- A header is an identifier `def` in any case, followed by another identifier or a list. -/
def ofTokens? : List Token → Option Header
  | t :: next :: rest =>
    if t.kind = .ident ∧ sameLetters t.text "def" then
      let span := t.reach (next :: rest)
      match next.kind with
      | .ident => some ⟨t.span, some next.name, dropColon rest, span⟩
      | .openParen => some ⟨t.span, none, dropColon (next :: rest), span⟩
      | _ => none
    else none
  | _ => none

/-- The names in the list, or why they are not accepted. -/
def readParameters (source : Excerpt) (h : Header) : Except Fault (List Name) := do
  let head := (h.name.map (·.span)).getD h.define
  let call ← Call.read source head h.list
  let args ← Schema.define.validate call.arguments call.span .empty
  return args.map (·.raw)

/-- A list that is not accepted leaves the block without parameters. -/
def parameters (source : Excerpt) (h : Header) : List Name × List Fault :=
  match h.readParameters source with
  | .ok names => (names, [])
  | .error fault => ([], [fault])

/-- What is wrong with the name: it is reserved, it is that of an earlier block, or it is missing
in a block other than the entry. -/
def nameFault? (isEntry : Bool) (earlier : List String) (h : Header) : Option Fault :=
  match h.name with
  | some name =>
    if isReserved name.val then some ⟨.invalidName .identifier name.val, name.span⟩
    else if earlier.contains name.val then some ⟨.duplicateDefinition name.val, name.span⟩
    else none
  | none => if isEntry then none else some (.ofStructure .unnamedSubfunction h.define)

end Header

end ShapeAssembly
