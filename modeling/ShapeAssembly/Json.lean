import ShapeAssembly.Decimal

namespace ShapeAssembly

/-- A JSON value. A number is a natural number or a double; fields keep their order. -/
inductive Json where
  | null
  | bool (b : Bool)
  | natural (n : Nat)
  | double (d : Double)
  | text (s : String)
  | array (items : List Json)
  | object (fields : List (String × Json))
  deriving Inhabited

namespace Json

def field? (key : String) : Json → Option Json
  | object fields => fields.lookup key
  | _ => none

def natural? : Json → Option Nat
  | natural n => some n
  | _ => none

def bool? : Json → Option Bool
  | bool b => some b
  | _ => none

def text? : Json → Option String
  | text s => some s
  | _ => none

def array? : Json → Option (List Json)
  | array items => some items
  | _ => none

/-- A natural number counts as the nearest double. -/
def double? : Json → Option Double
  | double d => some d
  | natural n => Decimal.toDouble? ⟨false, n, 0⟩
  | _ => none

/-- Absent is `null`, or none where a field is not there. -/
def optional? {α : Type} (read : Json → Option α) : Option Json → Option (Option α)
  | none => some none
  | some null => some none
  | some j => (read j).map some

def list? {α : Type} (read : Json → Option α) (j : Json) : Option (List α) :=
  j.array?.bind (·.mapM read)

def ofOption {α : Type} (write : α → Json) : Option α → Json
  | none => null
  | some a => write a

end Json

end ShapeAssembly
