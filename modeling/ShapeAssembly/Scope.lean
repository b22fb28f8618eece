import ShapeAssembly.Fault

namespace ShapeAssembly

/-- How a name came to be bound. -/
inductive Origin where
  | parameter
  | result (keyword : String)
  deriving DecidableEq

structure Binding where
  name : Name
  origin : Origin
  deriving DecidableEq

/-- The names bound in a block so far, in the order of their declarations. -/
structure Scope where
  bindings : List Binding
  deriving DecidableEq

namespace Scope

def empty : Scope := ⟨[]⟩

def names (s : Scope) : List String := s.bindings.map (·.name.val)

def contains (s : Scope) (name : String) : Bool := s.names.contains name

def lookup? (s : Scope) (name : String) : Option Binding := s.bindings.find? (·.name.val = name)

def size (s : Scope) : Nat := s.bindings.length

/-- Binds a fresh name; a bound name is refused. -/
def define (s : Scope) (name : Name) (origin : Origin) : Except Fault Scope :=
  if s.contains name.val then .error ⟨.duplicateDefinition name.val, name.span⟩
  else .ok ⟨s.bindings ++ [⟨name, origin⟩]⟩

/-- Binds those of the names that are fresh, and refuses the others. -/
def defineAll (s : Scope) (origin : Origin) : List Name → Scope × List Fault
  | [] => (s, [])
  | name :: rest =>
    match s.define name origin with
    | .ok s' => s'.defineAll origin rest
    | .error fault =>
      let (s', faults) := s.defineAll origin rest
      (s', fault :: faults)

end Scope

end ShapeAssembly
