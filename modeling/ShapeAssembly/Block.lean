import ShapeAssembly.Line

namespace ShapeAssembly

/-- A header line with the lines up to the next one. -/
structure Block where
  opening : Opening
  body : List BodyLine
  deriving DecidableEq

/-- What a line of a body yields. -/
structure Reading where
  statement? : Option Statement
  fault? : Option Fault
  deriving DecidableEq

namespace BodyLine

def read (scope : Scope) : BodyLine → Reading × Scope
  | blank => (⟨none, none⟩, scope)
  | unreadable string => (⟨none, some string.fault⟩, scope)
  | content source first rest =>
    let (outcome, scope') := Statement.parse source scope (first :: rest)
    (⟨outcome.statement?, outcome.fault?⟩, scope')

/-- Each line is read in the scope that the lines before it leave. -/
def readAll (scope : Scope) : List BodyLine → List Reading
  | [] => []
  | line :: rest =>
    let (reading, scope') := line.read scope
    reading :: readAll scope' rest

/-- Outside of all blocks a line with a token is out of place. -/
def looseFault? : BodyLine → Option Fault
  | blank => none
  | unreadable string => some string.fault
  | content _ first rest => some (.ofStructure .outsideBlock (first.reach rest))

def contentSpan? : BodyLine → Option Span
  | content _ first rest => some (first.reach rest)
  | _ => none

end BodyLine

/-- What a header yields: the definition as far as it goes, the scope of the body, and the faults
of the name and of the list. -/
structure Heading where
  definition : Definition
  scope : Scope
  nameFault? : Option Fault
  listFaults : List Fault
  deriving DecidableEq

namespace Opening

def nameText? : Opening → Option String
  | readable _ header => header.name.map (·.val)
  | unreadable .. => none

/-- Repeated parameters stay in the list and are bound once. -/
def read (isEntry : Bool) (earlier : List String) : Opening → Heading
  | readable source header =>
    let (parameters, listFaults) := header.parameters source
    let (scope, repeated) := Scope.empty.defineAll .parameter parameters
    ⟨⟨header.name, parameters, [], header.span⟩, scope, header.nameFault? isEntry earlier,
      listFaults ++ repeated⟩
  | unreadable source string => ⟨.empty source.span, .empty, some string.fault, []⟩

end Opening

namespace Definition

/-- The definition with its statements, which its span grows to cover. -/
def withStatements (d : Definition) (statements : List Statement) : Definition :=
  { d with statements, span := statements.foldl (fun span s => span.merge s.span) d.span }

end Definition

namespace Block

/-- Splits lines into those before the first header and the blocks. -/
def group : List Line → List BodyLine × List Block
  | [] => ([], [])
  | line :: rest =>
    let (loose, blocks) := group rest
    match line with
    | .opening o => ([], ⟨o, loose⟩ :: blocks)
    | .body b => (b :: loose, blocks)

/-- A definition, whether its header names it properly, and what is wrong in the block. -/
structure Result where
  definition : Definition
  named : Bool
  faults : List Fault
  deriving DecidableEq

def read (isEntry : Bool) (earlier : List String) (b : Block) : Result :=
  let heading := b.opening.read isEntry earlier
  let readings := BodyLine.readAll heading.scope b.body
  ⟨heading.definition.withStatements (readings.filterMap (·.statement?)),
    heading.nameFault?.isNone,
    heading.nameFault?.toList ++ heading.listFaults ++ readings.filterMap (·.fault?)⟩

/-- The definitions of the blocks after the entry. A block without a proper name is read and left
out. -/
def readLater (earlier : List String) : List Block → List Definition × List Fault
  | [] => ([], [])
  | b :: rest =>
    let result := b.read false earlier
    let (definitions, faults) := readLater (b.opening.nameText?.toList ++ earlier) rest
    (if result.named then result.definition :: definitions else definitions,
      result.faults ++ faults)

end Block

end ShapeAssembly
