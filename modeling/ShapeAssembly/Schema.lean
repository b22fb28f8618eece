import ShapeAssembly.Kind

namespace ShapeAssembly

/-- Whether a statement has to assign its result. -/
inductive ResultBinding where
  | required | optional
  deriving DecidableEq

/-- Where a keyword may stand. -/
inductive Usage where
  | statement (binding : ResultBinding)
  | header
  deriving DecidableEq

/-- The kinds of a keyword's arguments in order. -/
abbrev Signature := List Kind

namespace Signature

/-- Places a signature in ascending order of length; one of the same length gives way. -/
def insert (s : Signature) : List Signature → List Signature
  | [] => [s]
  | t :: ts =>
    if s.length < t.length then s :: t :: ts
    else if s.length = t.length then s :: ts
    else t :: insert s ts

end Signature

/-- A keyword with its signatures, in ascending order of length and no two of one length. -/
structure Schema where
  name : String
  usage : Usage
  signatures : List Signature
  deriving DecidableEq

namespace Schema

def ofSignatures (name : String) (usage : Usage) (signatures : List Signature) : Schema :=
  ⟨name, usage, signatures.foldl (fun all s => s.insert all) []⟩

def arities (s : Schema) : List Nat := s.signatures.map List.length

def acceptsArity (s : Schema) (n : Nat) : Bool := s.arities.contains n

def signature? (s : Schema) (n : Nat) : Option Signature := s.signatures.find? (·.length = n)

def binding? (s : Schema) : Option ResultBinding :=
  match s.usage with
  | .statement b => some b
  | .header => none

/-- Two cuboids and a point on each, in the coordinates of the cuboid. -/
def attach : Schema := ofSignatures "Attach" (.statement .optional)
  [[.existingVariable, .existingVariable, .float, .float, .float, .float, .float, .float]]

/-- Length, height, width, and whether the cuboid is aligned. -/
def cuboid : Schema := ofSignatures "Cuboid" (.statement .required)
  [[.float, .float, .float], [.float, .float, .float, .bool]]

/-- The header of a block takes no parameters or the names of four. -/
def define : Schema := ofSignatures "Def" .header
  [[], [.identifier, .identifier, .identifier, .identifier]]

def reflect : Schema := ofSignatures "Reflect" (.statement .optional)
  [[.existingVariable, .axis]]

/-- Three cuboids, a face, and a point on the face. -/
def squeeze : Schema := ofSignatures "Squeeze" (.statement .optional)
  [[.existingVariable, .existingVariable, .existingVariable, .face, .float, .float]]

/-- A cuboid, an axis, the number of copies, and the distance. -/
def translate : Schema := ofSignatures "Translate" (.statement .optional)
  [[.existingVariable, .axis, .float, .float]]

def union : Schema := ofSignatures "Union" (.statement .optional)
  [[.existingVariable, .existingVariable]]

/-- Every keyword, in the order of the names. -/
def registry : List Schema := [attach, cuboid, define, reflect, squeeze, translate, union]

end Schema

/-- Equality up to the case of ASCII letters. -/
def sameLetters (a b : String) : Bool := a.toList.map Char.toLower = b.toList.map Char.toLower

/-- Keywords are written in any case. -/
def Schema.lookup? (keyword : String) : Option Schema :=
  registry.find? (sameLetters ·.name keyword)

end ShapeAssembly
