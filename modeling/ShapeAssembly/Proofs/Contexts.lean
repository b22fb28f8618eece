import Mathlib.Data.List.Induction
import ShapeAssembly.Proofs.Sections

namespace ShapeAssembly

/-- What lines leave for the next one: the scope of the open block, if there is one, and the names
of the headers so far. -/
structure Context where
  scope? : Option Scope
  names : List String

namespace Context

def start : Context := ⟨none, []⟩

def next (c : Context) : Line → Context
  | .opening o => ⟨some (o.read c.scope?.isNone c.names).scope, o.nameText?.toList ++ c.names⟩
  | .body b => ⟨c.scope?.map fun scope => (b.read scope).2, c.names⟩

def faults (c : Context) : Line → List Fault
  | .opening o =>
    let heading := o.read c.scope?.isNone c.names
    heading.nameFault?.toList ++ heading.listFaults
  | .body b =>
    match c.scope? with
    | none => b.looseFault?.toList
    | some scope => (b.read scope).1.fault?.toList

def reports (c : Context) : List Line → List (List Fault)
  | [] => []
  | line :: rest => c.faults line :: (c.next line).reports rest

def after (lines : List Excerpt) : Context := (lines.map Line.ofExcerpt).foldl next start

/-- Below a header the lines report what their blocks do. -/
theorem flatten_reports_some (scope : Scope) (names : List String) (lines : List Line) :
    (reports ⟨some scope, names⟩ lines).flatten =
      (BodyLine.readAll scope (Block.group lines).1).filterMap (·.fault?) ++
        (Block.readLater names (Block.group lines).2).2 := by
  induction lines generalizing scope names with
  | nil => rfl
  | cons line rest ih =>
    rw [reports, List.flatten_cons]
    cases line with
    | opening o =>
      rw [next, ih, Block.group, Block.readLater_cons]
      exact (List.append_assoc _ _ _).symm
    | body b =>
      rw [next, Option.map_some, ih, ← List.append_assoc, Block.group, BodyLine.readAll,
        filterMap_cons_toList]
      rfl

def blockFaults : List Block → List Fault
  | [] => []
  | entry :: rest =>
    (entry.read true []).faults ++ (Block.readLater entry.opening.nameText?.toList rest).2

theorem flatten_reports_start (lines : List Line) :
    (reports start lines).flatten =
      (Block.group lines).1.filterMap BodyLine.looseFault? ++ blockFaults (Block.group lines).2 := by
  induction lines with
  | nil => rfl
  | cons line rest ih =>
    rw [reports, List.flatten_cons]
    cases line with
    | opening o =>
      rw [next, flatten_reports_some, Block.group, blockFaults, start, List.append_nil]
      exact (List.append_assoc _ _ _).symm
    | body b =>
      have hnext : start.next (.body b) = start := rfl
      rw [hnext, ih, ← List.append_assoc, Block.group, filterMap_cons_toList]
      rfl

theorem after_append_singleton (lines : List Excerpt) (line : Excerpt) :
    after (lines ++ [line]) = (after lines).next (Line.ofExcerpt line) := by
  rw [after, List.map_append, List.foldl_append]
  rfl

/-- A line that is no header leaves a block open if one is open. -/
theorem next_body (c : Context) {line : Excerpt} (h : line.isHeader = false) :
    c.next (Line.ofExcerpt line) =
      ⟨c.scope?.map fun scope => (line.bodyLine.read scope).2, c.names⟩ := by
  rw [Excerpt.ofExcerpt_of_not_isHeader h]
  rfl

theorem next_header (c : Context) {line : Excerpt} (h : line.isHeader) :
    c.next (Line.ofExcerpt line) =
      ⟨some line.headerScope, line.nameText?.toList ++ c.names⟩ := by
  obtain ⟨o, ho⟩ := Excerpt.exists_opening h
  obtain ⟨-, -, hscope, hname⟩ := Excerpt.read_opening ho c.scope?.isNone c.names
  rw [ho, next, hscope, hname]

theorem isNone_scope?_after (lines : List Excerpt) :
    (after lines).scope?.isNone = lines.all (!·.isHeader) := by
  induction lines using List.reverseRecOn with
  | nil => rfl
  | append_singleton lines line ih =>
    rw [after_append_singleton, List.all_append, ← ih]
    cases h : line.isHeader with
    | true => simp [next_header _ h, h]
    | false => simp [next_body _ h, h]

theorem mem_names_after {lines : List Excerpt} {n : String} :
    n ∈ (after lines).names ↔ n ∈ lines.filterMap Excerpt.nameText? := by
  induction lines using List.reverseRecOn with
  | nil => exact Iff.rfl
  | append_singleton lines line ih =>
    rw [after_append_singleton, List.filterMap_append, List.mem_append, ← ih, filterMap_cons_toList,
      List.filterMap_nil, List.append_nil]
    cases h : line.isHeader with
    | true => rw [next_header _ h, List.mem_append, or_comm]
    | false =>
      -- such a line has no name
      rw [next_body _ h, Excerpt.nameText?, Excerpt.headerName?, Excerpt.header?_eq_none h]
      simp

/-- The open block is that of the last header, whatever comes before it. -/
theorem scope?_after {header : Excerpt} (hh : header.isHeader) {body : List Excerpt}
    (hb : ∀ l ∈ body, l.isHeader = false) (before : List Excerpt) :
    (after (before ++ header :: body)).scope? =
      some (BodyLine.scopeAfter header.headerScope (body.map Excerpt.bodyLine)) := by
  induction body using List.reverseRecOn with
  | nil => rw [after_append_singleton, next_header _ hh]; rfl
  | append_singleton body line ih =>
    rw [List.forall_mem_append, List.forall_mem_singleton] at hb
    rw [← List.cons_append, ← List.append_assoc, after_append_singleton, next_body _ hb.2, ih hb.1,
      List.map_append, BodyLine.scopeAfter, BodyLine.scopeAfter, List.foldl_append]
    rfl

end Context

end ShapeAssembly
