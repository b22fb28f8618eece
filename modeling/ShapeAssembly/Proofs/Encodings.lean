import ShapeAssembly.CommandLine
import ShapeAssembly.Proofs.JsonRoundTrip

namespace ShapeAssembly

theorem Code.ofLabel?_label (c : Code) : Code.ofLabel? c.label = some c := by
  cases c <;> decide

theorem Severity.ofLabel?_label (s : Severity) : Severity.ofLabel? s.label = some s := by
  cases s <;> decide

theorem Kind.ofLabel?_label (k : Kind) : Kind.ofLabel? k.label = some k := by
  cases k <;> decide

theorem Face.ofLabel?_label (f : Face) : Face.ofLabel? f.label = some f := by
  cases f <;> decide

namespace Json

variable {α : Type} {read : Json → Option α} {write : α → Json}

theorem list?_map (h : ∀ a, read (write a) = some a) (as : List α) :
    list? read (.array (as.map write)) = some as := by
  show (as.map write).mapM read = some as
  induction as with
  | nil => rfl
  | cons a as ih => rw [List.map_cons, List.mapM_cons, h, ih]; rfl

theorem optional?_ofOption (h : ∀ a, read (write a) = some a) (hnull : ∀ a, write a ≠ null)
    (o : Option α) : optional? read (some (ofOption write o)) = some o := by
  cases o with
  | none => rfl
  | some a =>
    show optional? read (some (write a)) = _
    unfold optional?
    split
    · rename_i heq
      cases heq
    · rename_i heq
      exact absurd (Option.some.inj heq) (hnull a)
    · rename_i heq
      obtain rfl := Option.some.inj heq
      rw [h]
      rfl

end Json

namespace Name

theorem ofJson?_toJson (n : Name) : Name.ofJson? (Name.toJson n) = some n := rfl

theorem toJson_ne_null (n : Name) : Name.toJson n ≠ .null := fun h => nomatch h

end Name

theorem Value.ofJson?_toJson (v : Value) : Value.ofJson? v.toJson = some v := by
  cases v with
  | float d => rfl
  | bool b => rfl
  | axis a => exact congrArg (Option.map axis) (Axis.ofLiteral_literal a)
  | face f => exact congrArg (Option.map face) (Face.ofLabel?_label f)
  | name t => rfl

theorem Argument.ofJson?_toJson (a : Argument) : Argument.ofJson? a.toJson = some a := by
  show (do
    return ⟨a.raw, ← Kind.ofLabel? a.kind.label, ← Value.ofJson? a.value.toJson⟩ :
      Option Argument) = some a
  rw [Kind.ofLabel?_label, Value.ofJson?_toJson]
  rfl

theorem Statement.ofJson?_toJson (s : Statement) : Statement.ofJson? s.toJson = some s := by
  show (do
    return ⟨s.keyword, ← Json.optional? Name.ofJson? (some (Json.ofOption Name.toJson s.result)),
      ← Json.list? Argument.ofJson? (.array (s.arguments.map Argument.toJson)), s.span⟩ :
      Option Statement) = some s
  rw [Json.optional?_ofOption Name.ofJson?_toJson Name.toJson_ne_null,
    Json.list?_map Argument.ofJson?_toJson]
  rfl

theorem Definition.ofJson?_toJson (d : Definition) : Definition.ofJson? d.toJson = some d := by
  show (do
    return ⟨← Json.optional? Name.ofJson? (some (Json.ofOption Name.toJson d.name)),
      ← Json.list? Name.ofJson? (.array (d.parameters.map Name.toJson)),
      ← Json.list? Statement.ofJson? (.array (d.statements.map Statement.toJson)), d.span⟩ :
      Option Definition) = some d
  rw [Json.optional?_ofOption Name.ofJson?_toJson Name.toJson_ne_null,
    Json.list?_map Name.ofJson?_toJson, Json.list?_map Statement.ofJson?_toJson]
  rfl

theorem Program.ofJson?_toJson (p : Program) : Program.ofJson? p.toJson = some p := by
  show (do
    return ⟨← Definition.ofJson? p.entry.toJson,
      ← Json.list? Definition.ofJson? (.array (p.subfunctions.map Definition.toJson))⟩ :
      Option Program) = some p
  rw [Definition.ofJson?_toJson, Json.list?_map Definition.ofJson?_toJson]
  rfl

theorem Diagnostic.ofJson?_toJson (d : Diagnostic) : Diagnostic.ofJson? d.toJson = some d := by
  show (do
    return ⟨← Code.ofLabel? d.code.label, ← Severity.ofLabel? d.severity.label, d.message,
      d.span⟩ : Option Diagnostic) = some d
  rw [Code.ofLabel?_label, Severity.ofLabel?_label]
  rfl

theorem ParseResult.ofJson?_toJson (r : ParseResult) : ParseResult.ofJson? r.toJson = some r := by
  show (do
    return ⟨← Program.ofJson? r.program.toJson,
      ← Json.list? Diagnostic.ofJson? (.array (r.diagnostics.map Diagnostic.toJson))⟩ :
      Option ParseResult) = some r
  rw [Program.ofJson?_toJson, Json.list?_map Diagnostic.ofJson?_toJson]
  rfl

/-- The printed result of a text is read back as the same result. -/
theorem Command.parseText_readBack (style : Json.Style) (text : String) :
    (Json.read? (Command.parseText style text).stdout).bind ParseResult.ofJson? =
      some (Program.parse text) := by
  show (Json.read? ((Program.parse text).toJson.render style ++ "\n")).bind _ = _
  rw [Json.read?_render]
  exact ParseResult.ofJson?_toJson (Program.parse text)

end ShapeAssembly
