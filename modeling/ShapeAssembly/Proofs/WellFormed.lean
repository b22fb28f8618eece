import ShapeAssembly.RawArgument
import ShapeAssembly.Proofs.Words

namespace ShapeAssembly

namespace Located

variable {α : Type}

def erase (l : Located α) : Located α := ⟨l.val, default⟩

theorem erase_inj {a b : Located α} : a.erase = b.erase ↔ a.val = b.val := by
  simp [erase]

theorem map_erase_inj {a b : Option (Located α)} :
    a.map erase = b.map erase ↔ a.map (·.val) = b.map (·.val) := by
  cases a <;> cases b <;> simp [erase_inj]

theorem map_val_of_map_erase {as bs : List (Located α)} (h : as.map erase = bs.map erase) :
    as.map (·.val) = bs.map (·.val) := by
  have hvals := congrArg (List.map (·.val)) h
  rwa [List.map_map, List.map_map] at hvals

end Located

def Argument.erase (a : Argument) : Argument := ⟨a.raw.erase, a.kind, a.value⟩

def Statement.erase (s : Statement) : Statement :=
  ⟨s.keyword.erase, s.result.map Located.erase, s.arguments.map Argument.erase, default⟩

def Definition.erase (d : Definition) : Definition :=
  ⟨d.name.map Located.erase, d.parameters.map Located.erase, d.statements.map Statement.erase,
    default⟩

def Program.erase (p : Program) : Program :=
  ⟨p.entry.erase, p.subfunctions.map Definition.erase⟩

def IsIdentifier (text : String) : Prop := (Word.ident text).IsSpelled

def IsUsable (text : String) : Prop := IsIdentifier text ∧ isReserved text = false

namespace Argument

/-- The text is a name or a number, and the value is the one that the kind gives to it. -/
def IsRead (a : Argument) : Prop :=
  ∃ kind, Lexeme.IsAtom kind ∧ (⟨kind, a.raw.val⟩ : Word).IsSpelled ∧
    (RawArgument.mk a.raw (some kind)).value? a.kind = some a.value

end Argument

namespace Statement

/-- A statement that is complete where these names are bound. -/
structure IsSound (names : List String) (s : Statement) : Prop where
  schema : ∃ schema binding, Schema.lookup? s.keyword.val = some schema ∧
    schema.binding? = some binding ∧ (binding = .required → s.result ≠ none) ∧
    s.arguments.map (·.kind) ∈ schema.signatures
  read : ∀ a ∈ s.arguments, a.IsRead
  bound : ∀ a ∈ s.arguments, a.kind = .existingVariable → a.raw.val ∈ names
  result : ∀ r ∈ s.result, IsUsable r.val ∧ r.val ∉ names

def AllSound : List String → List Statement → Prop
  | _, [] => True
  | names, s :: rest =>
    s.IsSound names ∧ AllSound (names ++ (s.result.map (·.val)).toList) rest

end Statement

structure Definition.WellFormed (d : Definition) : Prop where
  name : ∀ n ∈ d.name, IsUsable n.val
  parameters : ∀ p ∈ d.parameters, IsUsable p.val
  length : d.parameters = [] ∨ d.parameters.length = 4
  distinct : (d.parameters.map (·.val)).Nodup
  body : Statement.AllSound (d.parameters.map (·.val)) d.statements

/-- A program that is what it says. Only the entry may go without a name. -/
structure Program.WellFormed (p : Program) : Prop where
  definitions : ∀ d ∈ p.definitions, d.WellFormed
  named : ∀ d ∈ p.subfunctions, d.name ≠ none
  distinct : (p.definitions.filterMap (·.nameText)).Nodup

end ShapeAssembly
