import ShapeAssembly.Proofs.Extents
import ShapeAssembly.Proofs.MissingEntry

namespace ShapeAssembly

namespace Fault

variable {n : Nat}

theorem inOrder_relocate (fs : List Fault) :
    inOrder (fs.map (·.relocate (shift n))) = (inOrder fs).map (·.relocate (shift n)) :=
  stableSort_map _ (fun _ _ => decide_eq_decide.2 Nat.add_le_add_iff_right) fs

theorem inOrder_toList (f? : Option Fault) : inOrder f?.toList = f?.toList := by
  cases f? <;> rfl

end Fault

theorem Diagnostic.relocate_eq_self {f : Nat → Nat} {d : Diagnostic} {whole : Span}
    (hd : d.span.Within whole) (hf : ∀ offset ≤ whole.stop, f offset = offset) :
    d.relocate f = d := by
  rw [relocate, Span.relocate_eq_self hd hf]

theorem Diagnostic.relocate_relocate {f g h : Nat → Nat} (hfg : ∀ x, g (f x) = h x)
    (d : Diagnostic) : (d.relocate f).relocate g = d.relocate h := by
  rw [relocate, relocate, relocate, Span.relocate_relocate hfg]

namespace Context

theorem reports_append (c : Context) (lines more : List Line) :
    c.reports (lines ++ more) = c.reports lines ++ (lines.foldl next c).reports more := by
  induction lines generalizing c with
  | nil => rfl
  | cons line rest ih => exact congrArg (List.cons _) (ih (c.next line))

theorem after_append (lines more : List Excerpt) :
    after (lines ++ more) = (more.map Line.ofExcerpt).foldl next (after lines) := by
  rw [after, List.map_append, List.foldl_append]
  rfl

theorem exists_of_mem_diagnostics {before lines : List Excerpt} {d : Diagnostic}
    (h : d ∈ (after before).diagnostics lines) : ∃ line ∈ lines, d.span.Within line.span := by
  obtain ⟨f, hf, rfl⟩ := List.mem_map.1 h
  exact ((reports_after before lines).of_mem (Fault.mem_inOrder.1 hf)).1

/-- Lines below others are reported after them. -/
theorem diagnostics_append (before : List Excerpt) {lines more : List Excerpt}
    (h : (lines ++ more).Pairwise fun a b => a.span.stop < b.start) :
    (after before).diagnostics (lines ++ more) =
      (after before).diagnostics lines ++ (after (before ++ lines)).diagnostics more := by
  have hplaces := (List.pairwise_append.1 h).2.2
  rw [diagnostics, List.map_append, reports_append, List.flatten_append, Fault.inOrder_append,
    List.map_append, ← after_append]
  · rfl
  · -- a fault ends in its line, before any line below starts, so sorting keeps the two apart
    intro f hf g hg
    rw [← after_append] at hg
    obtain ⟨⟨l, hl, hfl⟩, -⟩ := (reports_after before lines).of_mem hf
    obtain ⟨⟨m, hm, hgm⟩, -⟩ := (reports_after (before ++ lines) more).of_mem hg
    have hbelow := hplaces l hl m hm
    have hstop := hfl.ordered.trans hfl.stop
    exact hstop.trans (hbelow.le.trans hgm.start)

/-- A line that is no header has at most one diagnostic. -/
theorem exists_diagnostics_singleton (c : Context) {line : Excerpt} (h : line.isHeader = false) :
    ∃ d? : Option Diagnostic, c.diagnostics [line] = d?.toList := by
  have hfaults : ∃ f? : Option Fault, c.faults (Line.ofExcerpt line) = f?.toList := by
    rw [Excerpt.ofExcerpt_of_not_isHeader h, faults]
    split <;> exact ⟨_, rfl⟩
  obtain ⟨f?, hf⟩ := hfaults
  refine ⟨f?.map Fault.diagnostic, ?_⟩
  rw [diagnostics, List.map_singleton, reports, reports, hf, List.flatten_singleton,
    Fault.inOrder_toList, Option.toList_map]

section

variable {c c' : Context} {n m : Nat} {lines : List Excerpt}

theorem diagnostics_of_reports
    (h : c'.reports ((lines.map Line.ofExcerpt).map (·.relocate (shift n))) =
      (c.reports (lines.map Line.ofExcerpt)).map (List.map (·.relocate (shift n)))) :
    c'.diagnostics (lines.map (·.relocate (shift n))) =
      (c.diagnostics lines).map (·.relocate (shift n)) := by
  rw [diagnostics, diagnostics, Excerpt.map_ofExcerpt_relocate, h, ← List.map_flatten,
    Fault.inOrder_relocate, List.map_map, List.map_map]
  rfl

theorem diagnostics_relocate (h : c.Similar c') :
    c'.diagnostics (lines.map (·.relocate (shift n))) =
      (c.diagnostics lines).map (·.relocate (shift n)) :=
  diagnostics_of_reports (reports_relocate h _)

theorem diagnostics_header_relocate (hn : c'.scope?.isNone = c.scope?.isNone)
    (hs : c'.names = c.names) (hl : ∀ l ∈ lines.head?, l.isHeader) :
    c'.diagnostics (lines.map (·.relocate (shift n))) =
      (c.diagnostics lines).map (·.relocate (shift n)) := by
  cases lines with
  | nil => rfl
  | cons line rest =>
    obtain ⟨o, ho⟩ := Excerpt.exists_opening (hl line rfl)
    apply diagnostics_of_reports
    rw [List.map_cons, ho]
    exact reports_opening_relocate hn hs o _

variable {g : Nat → Nat} (hg : ∀ offset, g (shift n offset) = shift m offset)

include hg

/-- Lines that move have the same diagnostics before and after. -/
theorem diagnostics_shift (h : c.Similar c') :
    c'.diagnostics (lines.map (·.relocate (shift m))) =
      (c.diagnostics (lines.map (·.relocate (shift n)))).map (·.relocate g) := by
  simp only [diagnostics_relocate h, diagnostics_relocate (Similar.refl c), List.map_map,
    Function.comp_def, Diagnostic.relocate_relocate hg]

/-- From a header on, they depend on what comes before only by its names. -/
theorem diagnostics_header_shift (hn : c'.scope?.isNone = c.scope?.isNone)
    (hs : c'.names = c.names) (hl : ∀ l ∈ lines.head?, l.isHeader) :
    c'.diagnostics (lines.map (·.relocate (shift m))) =
      (c.diagnostics (lines.map (·.relocate (shift n)))).map (·.relocate g) := by
  simp only [diagnostics_header_relocate hn hs hl, diagnostics_relocate (Similar.refl c),
    List.map_map, Function.comp_def, Diagnostic.relocate_relocate hg]

end

end Context

end ShapeAssembly
