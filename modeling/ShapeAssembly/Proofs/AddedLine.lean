import ShapeAssembly.Proofs.LineDiagnostics

namespace ShapeAssembly

instance (s whole : Span) : Decidable (s.Within whole) :=
  decidable_of_iff (whole.start ≤ s.start ∧ s.start ≤ s.stop ∧ s.stop ≤ whole.stop)
    ⟨fun ⟨hstart, hordered, hstop⟩ => ⟨hstart, hordered, hstop⟩,
      fun h => ⟨h.start, h.ordered, h.stop⟩⟩

namespace Excerpt

/-- A text has the lines of an earlier one, each at its place, and one more. An empty last line of
the earlier text gives way to it. -/
def AddsLine (before after line : Excerpt) : Prop :=
  ∃ earlier, after.lines = earlier ++ [line] ∧
    (before.lines = earlier ∨ ∃ n, before.lines = earlier ++ [⟨n, []⟩])

/-- A line that decides what is reported of a missing entry: a header, or one with content. -/
def settlesEntry (line : Excerpt) : Bool := line.isHeader || line.bodyLine.contentSpan?.isSome

end Excerpt

theorem missingEntry_append_of_not_settles {line : Excerpt} (h : line.settlesEntry = false)
    (lines : List Excerpt) : missingEntry (lines ++ [line]) = missingEntry lines := by
  rw [Excerpt.settlesEntry, Bool.or_eq_false_iff] at h
  obtain ⟨hheader, hcontent⟩ := h
  rw [missingEntry, missingEntry, List.any_append, List.any_cons, hheader, List.any_nil,
    Bool.or_false, Bool.or_false, List.map_append, List.findSome?_append, List.map_singleton,
    List.findSome?_singleton, Option.isSome_eq_false_iff.1 hcontent |> Option.isNone_iff_eq_none.1,
    Option.or_none]

/-- Once it is decided, only a header changes what is reported of a missing entry. -/
theorem missingEntry_append_of_settled {lines : List Excerpt}
    (h : lines.any Excerpt.settlesEntry) (line : Excerpt) :
    missingEntry (lines ++ [line]) = missingEntry lines ∨ missingEntry (lines ++ [line]) = [] := by
  by_cases hheader : (lines ++ [line]).any (·.isHeader) = true
  · exact .inr (if_pos hheader)
  · have hno : ¬ lines.any (·.isHeader) = true := by
      rw [List.any_append, Bool.or_eq_true, not_or] at hheader
      exact hheader.1
    obtain ⟨l, hl, hsettles⟩ := List.any_eq_true.1 h
    have hsome : ((lines.map Excerpt.bodyLine).findSome? BodyLine.contentSpan?).isSome := by
      rw [List.findSome?_isSome_iff]
      refine ⟨l.bodyLine, List.mem_map_of_mem hl, ?_⟩
      rw [Excerpt.settlesEntry, Bool.or_eq_true] at hsettles
      exact hsettles.resolve_left fun hh => hno (List.any_eq_true.2 ⟨l, hl, hh⟩)
    rw [missingEntry, if_neg hheader, missingEntry, if_neg hno, List.map_append,
      List.findSome?_append, Option.or_of_isSome hsome]
    exact .inl rfl

theorem length_missingEntry_le (lines : List Excerpt) : (missingEntry lines).length ≤ 1 := by
  rw [missingEntry]
  split
  · exact Nat.zero_le 1
  · exact Nat.le_refl 1

/-- An empty line has no diagnostics. -/
theorem Context.diagnostics_empty (c : Context) (n : Nat) : c.diagnostics [⟨n, []⟩] = [] := by
  obtain ⟨scope?, names⟩ := c
  cases scope? <;> rfl

namespace Program

/-- The only diagnostic besides those of the lines is that of a missing entry. -/
theorem filter_isMissingEntry (text : String) :
    (parse text).diagnostics.filter (·.isMissingEntry) =
      (missingEntry (Excerpt.whole text).lines).map Fault.diagnostic := by
  have hlines : ∀ f ∈ ((Context.after []).reports
      ((Excerpt.whole text).lines.map Line.ofExcerpt)).flatten,
      ¬ f.diagnostic.isMissingEntry = true := by
    intro f hf
    rw [((reports_after [] _).of_mem hf).2]
    exact Bool.false_ne_true
  have hentry : ∀ f ∈ missingEntry (Excerpt.whole text).lines,
      f.diagnostic.isMissingEntry = true := by
    intro f hf
    rw [missingEntry] at hf
    split at hf
    · cases hf
    · obtain rfl := List.mem_singleton.1 hf
      rfl
  have hsorted : Fault.inOrder (missingEntry (Excerpt.whole text).lines) =
      missingEntry (Excerpt.whole text).lines := by
    rw [missingEntry]
    split <;> rfl
  rw [diagnostics_parse, List.filter_map, Function.comp_def, Fault.filter_inOrder,
    List.filter_append, List.filter_eq_nil_iff.2 hlines, List.filter_eq_self.2 hentry,
    List.nil_append, hsorted]

end Program

namespace Excerpt.AddsLine

variable {before after : String} {line : Excerpt}

/-- What was reported stays, and the added line reports what lies in it. -/
theorem exists_diagnostics (h : (whole before).AddsLine (whole after) line) :
    ∃ old new, (Program.parse before).diagnostics.filter (!·.isMissingEntry) = old ∧
      (Program.parse after).diagnostics.filter (!·.isMissingEntry) = old ++ new ∧
      (∀ d ∈ old, ¬ d.span.Within line.span) ∧ ∀ d ∈ new, d.span.Within line.span := by
  obtain ⟨earlier, hafter, hbefore⟩ := h
  have hplaces := (whole after).pairwise_lines
  rw [hafter] at hplaces
  refine ⟨(Context.after []).diagnostics earlier, (Context.after earlier).diagnostics [line],
    ?_, ?_, fun d hd hin => ?_, fun d hd => ?_⟩
  · rw [Program.filter_diagnostics]
    rcases hbefore with hbefore | ⟨n, hbefore⟩
    · rw [hbefore]
    · have hplaces := (whole before).pairwise_lines
      rw [hbefore] at hplaces
      rw [hbefore, Context.diagnostics_append [] hplaces, Context.diagnostics_empty,
        List.append_nil]
  · rw [Program.filter_diagnostics, hafter, Context.diagnostics_append [] hplaces]
    rfl
  · -- the earlier lines end before the added one starts
    obtain ⟨l, hl, hd⟩ := Context.exists_of_mem_diagnostics hd
    have hlt := (List.pairwise_append.1 hplaces).2.2 l hl line (List.mem_singleton_self line)
    have hle := hd.ordered.trans hd.stop
    exact (hle.trans_lt hlt).not_ge hin.start
  · obtain ⟨l, hl, hd⟩ := Context.exists_of_mem_diagnostics hd
    rwa [List.mem_singleton.1 hl] at hd

theorem any_settlesEntry (h : (whole before).AddsLine (whole after) line)
    (hs : (whole before).lines.any settlesEntry) : (whole after).lines.any settlesEntry := by
  obtain ⟨earlier, hafter, hbefore⟩ := h
  rw [hafter, List.any_append, Bool.or_eq_true]
  rcases hbefore with hbefore | ⟨n, hbefore⟩
  · rw [hbefore] at hs
    exact .inl hs
  · rw [hbefore, List.any_append, Bool.or_eq_true] at hs
    exact .inl (hs.resolve_right fun hn => by cases hn)

/-- What is reported of a missing entry is new only if the added line decides it. -/
theorem missingEntry_subset (h : (whole before).AddsLine (whole after) line)
    (hs : (whole before).lines.any settlesEntry ∨ (whole after).lines.any settlesEntry = false) :
    missingEntry (whole after).lines ⊆ missingEntry (whole before).lines := by
  obtain ⟨earlier, hafter, hbefore⟩ := h
  have hearlier : missingEntry (whole before).lines = missingEntry earlier ∧
      (whole before).lines.any settlesEntry = earlier.any settlesEntry := by
    rcases hbefore with hbefore | ⟨n, hbefore⟩
    · rw [hbefore]
      exact ⟨rfl, rfl⟩
    · have hempty : settlesEntry ⟨n, []⟩ = false := rfl
      rw [hbefore, missingEntry_append_of_not_settles hempty, List.any_append, List.any_cons,
        hempty, List.any_nil, Bool.or_false, Bool.or_false]
      exact ⟨rfl, rfl⟩
  rw [hearlier.2, hafter] at hs
  rw [hearlier.1, hafter]
  rcases hs with hs | hs
  · rcases missingEntry_append_of_settled hs line with heq | heq <;> rw [heq]
    · exact List.Subset.refl _
    · exact List.nil_subset _
  · rw [List.any_append, Bool.or_eq_false_iff, List.any_cons, Bool.or_eq_false_iff] at hs
    rw [missingEntry_append_of_not_settles hs.2.1]
    exact List.Subset.refl _

end Excerpt.AddsLine

end ShapeAssembly
