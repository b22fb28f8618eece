import ShapeAssembly.Proofs.HighlightRanges
import ShapeAssembly.Proofs.Ordering

namespace ShapeAssembly

namespace LineIndex

/-- Of the columns of a span, those on one line are found from that line alone. -/
theorem filter_toLocal? (source : Excerpt) (i : Nat) (s : Span) :
    ((ofExcerpt source).toLocal? s).filter (·.line = i) =
      ((ofExcerpt source).span? i).bind fun whole => LocalRange.within? i whole s := by
  ext r
  rw [Option.filter_eq_some_iff, toLocal?_eq_some, Option.bind_eq_some_iff, decide_eq_true_eq]
  constructor
  · rintro ⟨h, rfl⟩
    exact h
  · rintro ⟨whole, hwhole, hr⟩
    obtain ⟨-, -, -, heq⟩ := LocalRange.within?_eq_some.1 hr
    obtain rfl : r.line = i := congrArg LocalRange.line heq
    exact ⟨⟨whole, hwhole, hr⟩, rfl⟩

theorem rangesOnLine_eq (text : String) (i : Nat) (spans : List Span) :
    (ofText text).rangesOnLine i spans = ((ofText text).toLocals spans).filter (·.line = i) := by
  rw [ofText, toLocals, List.filter_filterMap]
  simp only [filter_toLocal?]
  rw [rangesOnLine]
  cases (ofExcerpt (.whole text)).span? i with
  | none => exact (List.filterMap_none spans).symm
  | some whole => rfl

end LineIndex

namespace Highlight

def leInLine (a b : Highlight) : Bool :=
  a.range.start < b.range.start ||
    (a.range.start = b.range.start && a.kind.rank ≤ b.kind.rank)

theorem le_eq_leInLine {a b : Highlight} (h : a.range.line = b.range.line) :
    le a b = leInLine a b := by
  simp [le, leInLine, h]

theorem filter_gather_line (ranges : HighlightClass → List LocalRange) (i : Nat) :
    (gather ranges).filter (·.range.line = i) = gather fun c => (ranges c).filter (·.line = i) := by
  rw [gather, gather, filter_stableSort total trans, List.filter_flatMap]
  simp only [List.filter_map]
  rfl

end Highlight

namespace Highlighter

/-- The highlights of one line, in the order of columns and classes alone. -/
def lineByColumn (h : Highlighter) (i : Nat) : List Highlight :=
  stableSort Highlight.leInLine (HighlightClass.all.flatMap fun c =>
    (h.index.rangesOnLine i (c.spans h.result)).map fun r => ⟨c, r⟩)

theorem lineByColumn_eq (text : String) (i : Nat) :
    (ofText text).lineByColumn i = (ofText text).line i := by
  have hline : ∀ x ∈ HighlightClass.all.flatMap fun c =>
      ((ofText text).index.rangesOnLine i (c.spans (ofText text).result)).map (Highlight.mk c),
      x.range.line = i := by
    intro x hx
    obtain ⟨c, -, hx⟩ := List.mem_flatMap.1 hx
    obtain ⟨r, hr, rfl⟩ := List.mem_map.1 hx
    rw [ofText, LineIndex.rangesOnLine_eq] at hr
    exact of_decide_eq_true (List.mem_filter.1 hr).2
  exact stableSort_congr fun a ha b hb =>
    (Highlight.le_eq_leInLine ((hline a ha).trans (hline b hb).symm)).symm

end Highlighter

/-- What is drawn on one line, found from that line alone, is what is drawn on it in the whole text,
in the same order: the columns of any spans, and the highlights. A line past the end has none. -/
theorem Highlighter.line_eq_filter (text : String) (i : Nat) :
    let h := ofText text
    let starts := LineStarts.ofText text
    (∀ spans, ∃ all, starts.toLocals? spans = some all ∧ h.index.toLocals spans = all ∧
      starts.rangesOnLine? i spans = some (all.filter (·.line = i)) ∧
      h.index.rangesOnLine i spans = all.filter (·.line = i)) ∧
    h.line i = h.all.filter (·.range.line = i) ∧
    h.lineByColumn i = h.all.filter (·.range.line = i) := by
  intro h starts
  have hline : h.line i = h.all.filter (·.range.line = i) := by
    rw [all, Highlight.filter_gather_line, line]
    simp only [h, ofText, LineIndex.rangesOnLine_eq]
  refine ⟨fun spans => ⟨_, LineStarts.toLocals?_eq text spans, rfl, ?_, ?_⟩, hline,
    (lineByColumn_eq text i).trans hline⟩
  · rw [LineStarts.rangesOnLine?_eq, LineIndex.rangesOnLine_eq]
  · exact LineIndex.rangesOnLine_eq text i spans

end ShapeAssembly
