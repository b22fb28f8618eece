namespace ShapeAssembly

/-- What an argument position expects. -/
inductive Kind where
  | newVariable | existingVariable | float | bool | axis | face | identifier
  deriving DecidableEq

namespace Kind

def all : List Kind := [newVariable, existingVariable, float, bool, axis, face, identifier]

def describe : Kind → String
  | newVariable => "new variable name"
  | existingVariable => "existing variable"
  | float => "float"
  | bool => "bool (True or False)"
  | axis => "axis (X, Y or Z)"
  | face => "face (left, right, bot, top, back or front)"
  | identifier => "identifier"

end Kind

inductive Axis where
  | x | y | z
  deriving DecidableEq

namespace Axis

def all : List Axis := [x, y, z]

def literal : Axis → String
  | x => "X"
  | y => "Y"
  | z => "Z"

def ofLiteral? (text : String) : Option Axis := all.find? (·.literal = text)

theorem ofLiteral_literal (a : Axis) : ofLiteral? a.literal = some a := by
  cases a <;> decide

end Axis

inductive Face where
  | left | right | bot | top | back | front
  deriving DecidableEq

namespace Face

def all : List Face := [left, right, bot, top, back, front]

def literal : Face → String
  | left => "left"
  | right => "right"
  | bot => "bot"
  | top => "top"
  | back => "back"
  | front => "front"

def ofLiteral? (text : String) : Option Face := all.find? (·.literal = text)

theorem ofLiteral_literal (f : Face) : ofLiteral? f.literal = some f := by
  cases f <;> decide

end Face

def boolLiteral (b : Bool) : String := if b then "True" else "False"

def bool? (text : String) : Option Bool := [true, false].find? (boolLiteral · = text)

/-- The two bool literals are identifiers that never name a variable or a function. -/
def isReserved (text : String) : Bool := (bool? text).isSome

end ShapeAssembly
