import Mathlib.Data.List.Perm.Basic
import ShapeAssembly.Proofs.Extents

namespace ShapeAssembly

namespace BodyLine

def statements (scope : Scope) (lines : List BodyLine) : List Statement :=
  (readAll scope lines).filterMap (·.statement?)

theorem statements_append (scope : Scope) (lines more : List BodyLine) :
    statements scope (lines ++ more) =
      statements scope lines ++ statements (scopeAfter scope lines) more := by
  rw [statements, readAll_append, List.filterMap_append]
  rfl

theorem statements_cons (scope : Scope) (line : BodyLine) (rest : List BodyLine) :
    statements scope (line :: rest) =
      (line.read scope).1.statement?.toList ++ statements (line.read scope).2 rest := by
  rw [statements, readAll_cons, filterMap_cons_toList]
  rfl

theorem statements_relocate_shift {n : Nat} {scope scope' : Scope}
    (h : scope'.names = scope.names) (lines : List BodyLine) :
    statements scope' (lines.map (·.relocate (shift n))) =
      (statements scope lines).map (·.relocate (shift n)) := by
  rw [statements, readAll_relocate h, statements_relocate]
  rfl

/-- Lines that move leave the same statements before and after. -/
theorem statements_shift {n m : Nat} {g : Nat → Nat}
    (hg : ∀ offset, g (shift n offset) = shift m offset) {scope scope' : Scope}
    (h : scope'.names = scope.names) (lines : List BodyLine) :
    statements scope' (lines.map (·.relocate (shift m))) =
      (statements scope (lines.map (·.relocate (shift n)))).map (·.relocate g) := by
  simp only [statements_relocate_shift h, statements_relocate_shift rfl, List.map_map,
    Function.comp_def, Statement.relocate_relocate hg]

/-- The places in the statements above the first header lie among the lines. -/
theorem allSpans_statements {whole : Span} {lines : List Excerpt}
    (h : ∀ l ∈ lines, l.span.Within whole) (scope : Scope) :
    ∀ s ∈ statements scope (Block.group (lines.map Line.ofExcerpt)).1,
      s.AllSpans (·.Within whole) := by
  have hin : ∀ l ∈ lines.map Line.ofExcerpt, l.IsIn whole :=
    List.forall_mem_map.2 fun e he => ⟨e, h e he, rfl⟩
  exact allSpans_readAll (Block.forall_group hin).1 scope

end BodyLine

namespace Definition

def extend (d : Definition) (more : List Statement) : Definition :=
  { d with
    statements := d.statements ++ more
    span := more.foldl (fun span s => span.merge s.span) d.span }

theorem withStatements_append (d : Definition) (ss more : List Statement) :
    d.withStatements (ss ++ more) = (d.withStatements ss).extend more := by
  rw [withStatements, List.foldl_append]
  rfl

instance : RightCommutative fun (span : Span) (s : Statement) => span.merge s.span where
  right_comm span s t := by
    simp only [Span.merge, Nat.min_right_comm, Nat.max_right_comm]

/-- A statement between others makes the span grow as it would after them. -/
theorem withStatements_insert (d : Definition) (ss added more : List Statement) :
    d.withStatements (ss ++ added ++ more) =
      { (d.withStatements (ss ++ more)).extend added with statements := ss ++ added ++ more } := by
  have hperm : (ss ++ added ++ more).Perm ((ss ++ more) ++ added) := by
    rw [List.append_assoc, List.append_assoc]
    exact List.perm_append_comm.append_left ss
  rw [withStatements, hperm.foldl_eq, List.foldl_append]
  rfl

/-- A definition of which the statements from some point on move. -/
theorem relocate_withStatements {g : Nat → Nat} (hg : Monotone g) {d : Definition}
    (hd : d.relocate g = d) {ss : List Statement} (hs : ∀ s ∈ ss, s.relocate g = s)
    (more : List Statement) :
    (d.withStatements (ss ++ more)).relocate g =
      d.withStatements (ss ++ more.map (·.relocate g)) := by
  rw [← withStatements_relocate hg, hd, List.map_append, map_eq_self hs]

end Definition

namespace Block

theorem definition?_eq (isEntry : Bool) (earlier : List String) (o : Opening)
    (body : List BodyLine) :
    definition? isEntry earlier ⟨o, body⟩ =
      if isEntry || (o.read isEntry earlier).nameFault?.isNone then
        some ((o.read isEntry earlier).definition.withStatements (BodyLine.statements o.scope body))
      else none := by
  rw [← Opening.scope_read o isEntry earlier]
  rfl

/-- Whether a block is kept is up to its header. -/
theorem rel_definition? {R : Definition → Definition → Prop} {isEntry : Bool}
    {earlier : List String} {o : Opening} {body body' : List BodyLine}
    (h : R ((o.read isEntry earlier).definition.withStatements (BodyLine.statements o.scope body))
      ((o.read isEntry earlier).definition.withStatements (BodyLine.statements o.scope body'))) :
    Option.Rel R (definition? isEntry earlier ⟨o, body⟩)
      (definition? isEntry earlier ⟨o, body'⟩) := by
  rw [definition?_eq, definition?_eq]
  split
  · exact .some h
  · exact .none

end Block

/-- Lines with a header end in those of a block. -/
theorem Excerpt.exists_last_header {lines : List Excerpt} (h : ∃ line ∈ lines, line.isHeader) :
    ∃ before header body, lines = before ++ header :: body ∧ header.isHeader ∧
      ∀ l ∈ body, l.isHeader = false := by
  induction lines with
  | nil =>
    obtain ⟨l, hl, -⟩ := h
    cases hl
  | cons line rest ih =>
    by_cases hrest : ∃ l ∈ rest, l.isHeader
    · obtain ⟨before, header, body, rfl, hh, hb⟩ := ih hrest
      exact ⟨line :: before, header, body, rfl, hh, hb⟩
    · have hb : ∀ l ∈ rest, l.isHeader = false := by simpa using hrest
      obtain ⟨l, hl, hh⟩ := h
      rcases List.mem_cons.1 hl with rfl | hl
      · exact ⟨[], l, rest, rfl, hh, hb⟩
      · exact absurd ⟨l, hl, hh⟩ hrest

end ShapeAssembly
