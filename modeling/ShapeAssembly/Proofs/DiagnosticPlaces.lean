import ShapeAssembly.Proofs.ClassSpans
import ShapeAssembly.Proofs.LineByLine

namespace ShapeAssembly

namespace Fault

/-- Faults that start at one place keep their order. -/
theorem filter_start_inOrder (fs : List Fault) (offset : Nat) :
    (inOrder fs).filter (·.span.start = offset) = fs.filter (·.span.start = offset) := by
  rw [filter_inOrder]
  apply stableSort_eq_self
  apply List.pairwise_of_forall_mem_list
  intro a ha b hb
  have ha := of_decide_eq_true (List.mem_filter.1 ha).2
  have hb := of_decide_eq_true (List.mem_filter.1 hb).2
  exact decide_eq_true (by rw [ha, hb])

end Fault

namespace Progress

structure Agrees (p : Progress) (c : Context) : Prop where
  scope : p.open?.map (·.scope) = c.scope?
  names : p.names = c.names
  seen : p.seenHeader = c.scope?.isSome

theorem frame_close (p : Progress) :
    p.close.names = p.names ∧ p.close.seenHeader = p.seenHeader ∧ p.close.faults = p.faults := by
  rw [close]
  cases p.open? <;> exact ⟨rfl, rfl, rfl⟩

/-- One line adds what it reports. -/
theorem Agrees.next {p : Progress} {c : Context} (h : p.Agrees c) (line : Line) :
    (p.next line).Agrees (c.next line) ∧ (p.next line).faults = p.faults ++ c.faults line := by
  obtain ⟨hscope, hnames, hseen⟩ := h
  cases line with
  | opening o =>
    obtain ⟨hn, hs, hf⟩ := (p.noting o.contentSpan?).frame_close
    have hentry : (!p.seenHeader) = c.scope?.isNone := by
      rw [hseen, Option.not_isSome]
    have hnext : p.next (.opening o) = (p.noting o.contentSpan?).close.opening
        (o.read c.scope?.isNone c.names) o.nameText? := by
      rw [Progress.next, hn, hs, ← hentry, ← hnames]
      rfl
    rw [hnext]
    refine ⟨⟨rfl, ?_, rfl⟩, ?_⟩
    · exact congrArg (o.nameText?.toList ++ ·) (hn.trans hnames)
    · exact congrArg (· ++ c.faults (.opening o)) hf
  | body b =>
    rw [Progress.next, Context.next, Context.faults]
    dsimp only [noting]
    cases ho : p.open? with
    | none =>
      rw [ho] at hscope
      rw [← hscope] at hseen ⊢
      exact ⟨⟨rfl, hnames, hseen⟩, rfl⟩
    | some o =>
      rw [ho] at hscope
      rw [← hscope] at hseen ⊢
      exact ⟨⟨rfl, hnames, hseen⟩, rfl⟩

/-- Lines that are read one after the other add what they report in turn. -/
theorem Agrees.faults_foldl {p : Progress} {c : Context} (h : p.Agrees c) (lines : List Line) :
    (lines.foldl Progress.next p).faults = p.faults ++ (c.reports lines).flatten := by
  induction lines generalizing p c with
  | nil => exact (List.append_nil _).symm
  | cons line rest ih =>
    obtain ⟨hnext, hfaults⟩ := h.next line
    rw [List.foldl_cons, ih hnext, hfaults, Context.reports, List.flatten_cons, List.append_assoc]

end Progress

/-- A span of whole characters of a text, with no newline in it. -/
structure Excerpt.HasPlace (e : Excerpt) (s : Span) : Prop where
  within : s.Within e.span
  start : e.IsBoundary s.start
  stop : e.IsBoundary s.stop
  newline : ∃ text, e.slice? s = some text ∧ '\n' ∉ text.toList

theorem Excerpt.LineHolds.hasPlace {e : Excerpt} {s : Span} (h : e.LineHolds s) : e.HasPlace s := by
  obtain ⟨line, hl, hs⟩ := h
  have hpart := isPart_of_mem_lines hl
  have hholds := hs.of_isPart hpart
  obtain ⟨text, htext⟩ := hs.exists_slice?
  exact ⟨hholds.within, hholds.start, hholds.stop, text, slice?_of_isPart hpart htext,
    notMem_of_slice? (e.lines_eq_layOut.2 line hl) htext⟩

/-- A text has nothing at its start. -/
theorem Excerpt.hasPlace_default (text : String) : (whole text).HasPlace default := by
  have hstart : (whole text).IsBoundary 0 := ⟨[], text.toList, rfl, rfl⟩
  refine ⟨⟨Nat.le_refl _, Nat.le_refl _, Nat.zero_le _⟩, hstart, hstart, "", ?_, by simp⟩
  exact slice?_eq_some.2 ⟨⟨[], text.toList, rfl, rfl⟩, rfl⟩

namespace Program

/-- The faults of a text as they are found: line after line, and last that there is no entry. -/
def found (text : String) : List Fault :=
  let lines := (Excerpt.whole text).lines
  ((lines.map Line.ofExcerpt).foldl Progress.next Progress.start).faults ++ missingEntry lines

theorem found_eq (text : String) :
    found text = (Context.start.reports ((Excerpt.whole text).lines.map Line.ofExcerpt)).flatten ++
      missingEntry (Excerpt.whole text).lines := by
  have hstart : Progress.start.Agrees Context.start := ⟨rfl, rfl, rfl⟩
  rw [found, hstart.faults_foldl]
  rfl

/-- Every diagnostic is an error at a place in one line, which is empty only where the entry is
missing and no line has a token. The diagnostics are in the order of their places, and among those
that start at one place in the order in which they are found: that of the lines, each of which
reports what its reading calls for. -/
theorem diagnostics_hasPlace (text : String) :
    let source := Excerpt.whole text
    let result := parse text
    (∀ d ∈ result.diagnostics, d.severity = .error ∧ source.HasPlace d.span ∧
      (d.span.start < d.span.stop ∨
        d.isMissingEntry ∧ ∀ line ∈ source.lines, ∀ ts, line.tokens = .ok ts → ts = [])) ∧
    result.diagnostics.Pairwise (fun a b => a.span.start ≤ b.span.start) ∧
    (∀ offset, result.diagnostics.filter (·.span.start = offset) =
      ((found text).filter (·.span.start = offset)).map Fault.diagnostic) ∧
    ∃ reports, Reports [] source.lines reports ∧
      found text = reports.flatten ++ missingEntry source.lines ∧
      ∀ f ∈ reports.flatten, f.diagnostic.isMissingEntry = false := by
  intro source result
  have hdiags : result.diagnostics = (Fault.inOrder (found text)).map Fault.diagnostic := by
    rw [found_eq]
    exact diagnostics_parse text
  refine ⟨fun d hd => ?_, ?_, fun offset => ?_, _, reports_after [] source.lines, found_eq text,
    fun f hf => ((reports_after [] source.lines).of_mem hf).2⟩
  · refine ⟨of_decide_eq_true (isError_of_mem_diagnostics hd), ?_⟩
    rcases lineHolds_of_mem_diagnostics hd with hline | ⟨hmissing, hspan, hno⟩
    · obtain ⟨line, -, hs⟩ := id hline
      exact ⟨hline.hasPlace, .inl hs.nonempty⟩
    · rw [hspan]
      exact ⟨Excerpt.hasPlace_default text, .inr ⟨hmissing, hno⟩⟩
  · rw [hdiags, List.pairwise_map]
    exact Fault.pairwise_inOrder _
  · rw [hdiags, List.filter_map, ← Fault.filter_start_inOrder]
    rfl

end Program

end ShapeAssembly
