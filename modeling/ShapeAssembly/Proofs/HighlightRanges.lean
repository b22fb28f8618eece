import Mathlib.Data.Prod.Lex
import ShapeAssembly.Highlight
import ShapeAssembly.Proofs.ClassSpans
import ShapeAssembly.Proofs.Columns

namespace ShapeAssembly

namespace LineIndex

/-- A span of characters of a line is not lost. -/
theorem exists_toLocal? {source : Excerpt} {s : Span} (h : source.LineHolds s) :
    ∃ r, (ofExcerpt source).toLocal? s = some r ∧ r.Locates source s := by
  obtain ⟨line, hmem, hs⟩ := h
  obtain ⟨hstart, -, hstop⟩ := hs.within
  obtain ⟨r, hr⟩ := LocalRange.exists_locates hmem hs.nonempty hstart hstop
  exact ⟨r, toLocal?_iff_locates.2 hr, hr⟩

theorem forall₂_toLocals {source : Excerpt} {spans : List Span}
    (h : ∀ s ∈ spans, source.LineHolds s) :
    List.Forall₂ (fun s r => r.Locates source s) spans ((ofExcerpt source).toLocals spans) := by
  induction spans with
  | nil => exact .nil
  | cons s spans ih =>
    obtain ⟨hs, hspans⟩ := List.forall_mem_cons.1 h
    obtain ⟨r, hr, hlocates⟩ := exists_toLocal? hs
    rw [toLocals, List.filterMap_cons_some hr]
    exact .cons hlocates (ih hspans)

end LineIndex

namespace Highlight

def key (x : Highlight) : Nat ×ₗ Nat ×ₗ Nat :=
  toLex (x.range.line, toLex (x.range.start, x.kind.rank))

theorem le_iff_key {a b : Highlight} : le a b = true ↔ a.key ≤ b.key := by
  rw [key, key, Prod.Lex.toLex_le_toLex]
  simp only [Prod.Lex.toLex_le_toLex, le, Bool.or_eq_true, Bool.and_eq_true, decide_eq_true_eq]

theorem total (a b : Highlight) : le a b = true ∨ le b a = true := by
  simpa only [le_iff_key] using le_total a.key b.key

theorem trans (a b c : Highlight) : le a b = true → le b c = true → le a c = true := by
  simpa only [le_iff_key] using le_trans

theorem pairwise_gather (ranges : HighlightClass → List LocalRange) :
    (gather ranges).Pairwise fun a b => a.key ≤ b.key :=
  (pairwise_stableSort total trans _).imp le_iff_key.1

/-- The highlights of one class are those of its ranges. -/
theorem filter_gather (ranges : HighlightClass → List LocalRange) (c : HighlightClass) :
    (((gather ranges).filter (·.kind = c)).map (·.range)).Perm (ranges c) := by
  have hclass : ∀ c', ((ranges c').map (Highlight.mk c')).filter (·.kind = c) =
      if c' = c then (ranges c').map (Highlight.mk c') else [] := by
    intro c'
    split
    · rename_i heq
      exact List.filter_eq_self.2 (List.forall_mem_map.2 fun _ _ => decide_eq_true heq)
    · rename_i hne
      exact List.filter_eq_nil_iff.2 (List.forall_mem_map.2 fun _ _ => by simpa using hne)
  have hall : (HighlightClass.all.flatMap fun c' => (ranges c').map (Highlight.mk c')).filter
      (·.kind = c) = (ranges c).map (Highlight.mk c) := by
    rw [List.filter_flatMap]
    simp only [hclass]
    cases c <;> simp [HighlightClass.all]
  have hperm := (stableSort_perm le
    (HighlightClass.all.flatMap fun c' => (ranges c').map (Highlight.mk c'))).filter (·.kind = c)
  rw [hall] at hperm
  have hranges := hperm.map (·.range)
  rwa [List.map_map, Function.comp_def, List.map_id'] at hranges

end Highlight

namespace HighlightClass

/-- The spans of every class hold characters of a line. -/
theorem lineHolds_of_mem_spans {text : String} {c : HighlightClass} {s : Span}
    (h : s ∈ c.spans (Program.parse text)) : (Excerpt.whole text).LineHolds s := by
  cases c with
  | definitionName =>
    obtain ⟨d, hd, hs⟩ := List.mem_filterMap.1 h
    obtain ⟨n, hn, rfl⟩ := Option.map_eq_some_iff.1 hs
    exact (Program.lineHolds_of_mem_definitions hd).1 n hn
  | definitionParameter =>
    obtain ⟨d, hd, hs⟩ := List.mem_flatMap.1 h
    obtain ⟨n, hn, rfl⟩ := List.mem_map.1 hs
    exact (Program.lineHolds_of_mem_definitions hd).2.1 n hn
  | variableReference =>
    obtain ⟨d, hd, hs⟩ := List.mem_flatMap.1 h
    obtain ⟨st, hst, hs⟩ := List.mem_flatMap.1 hs
    obtain ⟨n, hn, rfl⟩ := List.mem_map.1 hs
    exact (Program.lineHolds_of_mem_definitions hd).2.2 st hst n hn
  | error =>
    obtain ⟨hs, hne⟩ := List.mem_filter.1 h
    obtain ⟨d, hd, rfl⟩ := List.mem_map.1 hs
    rcases Program.lineHolds_of_mem_diagnostics (List.mem_filter.1 hd).1 with hline | ⟨-, hspan, -⟩
    · exact hline
    · rw [hspan] at hne
      cases hne

end HighlightClass

namespace Highlighter

/-- Highlighting loses nothing: the ranges of every class are at the places of its spans, one for
each, in the order of lines and columns. Every diagnostic is highlighted as an error, except that of
a missing entry where it has no place, since no line has a token. -/
theorem ranges_ofText (text : String) :
    let source := Excerpt.whole text
    let h := ofText text
    (∀ c, ∃ ranges, ((h.all.filter (·.kind = c)).map (·.range)).Perm ranges ∧
      List.Forall₂ (fun s r => r.Locates source s) (c.spans (Program.parse text)) ranges) ∧
    h.all.Pairwise (fun a b => a.key ≤ b.key) ∧
    ∀ d ∈ (Program.parse text).diagnostics,
      (∃ x ∈ h.all, x.kind = .error ∧ x.range.Locates source d.span) ∨
      d.isMissingEntry ∧ d.span.isEmpty ∧
        ∀ line ∈ source.lines, ∀ ts, line.tokens = .ok ts → ts = [] := by
  intro source h
  have hclass : ∀ c, ∃ ranges, ((h.all.filter (·.kind = c)).map (·.range)).Perm ranges ∧
      List.Forall₂ (fun s r => r.Locates source s) (c.spans (Program.parse text)) ranges :=
    fun c => ⟨_, Highlight.filter_gather _ c,
      LineIndex.forall₂_toLocals fun _ hs => HighlightClass.lineHolds_of_mem_spans hs⟩
  refine ⟨hclass, Highlight.pairwise_gather _, fun d hd => ?_⟩
  rcases Program.lineHolds_of_mem_diagnostics hd with hline | ⟨hmissing, hspan, hno⟩
  · obtain ⟨ranges, hperm, hall⟩ := hclass .error
    have hempty : d.span.isEmpty = false := by
      obtain ⟨line, -, hs⟩ := hline
      exact decide_eq_false (not_le.2 hs.nonempty)
    have hspan : d.span ∈ HighlightClass.error.spans (Program.parse text) := by
      refine List.mem_filter.2 ⟨List.mem_map_of_mem (List.mem_filter.2 ⟨hd, ?_⟩), by simp [hempty]⟩
      exact Program.isError_of_mem_diagnostics hd
    obtain ⟨r, hr, hlocates⟩ := exists_of_mem_forall₂ hall hspan
    obtain ⟨x, hx, rfl⟩ := List.mem_map.1 (hperm.mem_iff.2 hr)
    obtain ⟨hx, hkind⟩ := List.mem_filter.1 hx
    exact .inl ⟨x, hx, of_decide_eq_true hkind, hlocates⟩
  · refine .inr ⟨hmissing, ?_, hno⟩
    rw [hspan]
    rfl

end Highlighter

end ShapeAssembly
