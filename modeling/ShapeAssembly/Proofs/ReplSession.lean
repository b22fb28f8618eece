import ShapeAssembly.Repl
import ShapeAssembly.Proofs.AddedLine

namespace ShapeAssembly

namespace Repl

open Excerpt (whole)

def bufferAfter (buffer : String) (lines : List String) : String := lines.foldl appendLine buffer

/-- The diagnostics printed for each of some typed lines, none of which is a command. -/
def shown (buffer : String) : List String → List (List Diagnostic)
  | [] => []
  | line :: rest =>
    newDiagnostics buffer (appendLine buffer line) :: shown (appendLine buffer line) rest

theorem shown_append (buffer : String) (lines more : List String) :
    shown buffer (lines ++ more) = shown buffer lines ++ shown (bufferAfter buffer lines) more := by
  induction lines generalizing buffer with
  | nil => rfl
  | cons line rest ih => exact congrArg (List.cons _) (ih _)

theorem length_shown (buffer : String) (lines : List String) :
    (shown buffer lines).length = lines.length := by
  induction lines generalizing buffer with
  | nil => rfl
  | cons line rest ih => exact congrArg (· + 1) (ih _)

theorem listing_append (ds more : List Diagnostic) :
    listing (ds ++ more) = listing ds ++ listing more := by
  rw [listing, List.map_append, String.join_append]
  rfl

theorem ofLine_append {line : String} (h : (trim line.toList).head? ≠ some ':') :
    Request.ofLine line = .append line := by
  rw [Request.ofLine]
  split
  · rename_i word hword
    rw [hword] at h
    exact absurd rfl h
  · rfl

section

variable (read : String → Except FileError String) (atEnd : Output)

/-- Lines that are no commands print what `shown` says. -/
theorem run_lines {lines : List String}
    (h : ∀ line ∈ lines, (trim line.toList).head? ≠ some ':') (buffer : String) :
    run read atEnd buffer lines =
      ⟨atEnd.exit, listing (shown buffer lines).flatten ++ atEnd.stdout, atEnd.stderr⟩ := by
  induction lines generalizing buffer with
  | nil =>
    rw [run, shown, List.flatten_nil, show listing [] = "" from rfl, String.empty_append]
  | cons line rest ih =>
    obtain ⟨hline, hrest⟩ := List.forall_mem_cons.1 h
    rw [run, ofLine_append hline, reply]
    dsimp only
    rw [ih hrest, shown, List.flatten_cons, listing_append, String.append_assoc,
      String.empty_append]

end

/-- A typed line becomes a line of its own. -/
theorem exists_addsLine (buffer : String) {line : String} (hn : '\n' ∉ line.toList) :
    ∃ l, l.chars = line.toList ∧ (whole buffer).AddsLine (whole (appendLine buffer line)) l := by
  have hline := Excerpt.lines_of_not_mem hn
  rw [appendLine]
  by_cases hempty : buffer = ""
  · subst hempty
    rw [if_pos (.inl rfl), String.empty_append]
    exact ⟨whole line, rfl, [], hline 0, .inr ⟨0, rfl⟩⟩
  · by_cases hlast : buffer.toList.getLast? = some '\n'
    · rw [if_pos (.inr hlast)]
      obtain ⟨cs, hcs⟩ := List.getLast?_eq_some_iff.1 hlast
      have hbuffer : buffer = String.ofList cs ++ "\n" := by
        rw [← String.ofList_toList (s := buffer), hcs, String.ofList_append]
      refine ⟨⟨byteSize cs + 1, line.toList⟩, rfl, (whole (String.ofList cs)).lines, ?_,
        .inr ⟨byteSize cs + 1, ?_⟩⟩
      · rw [hbuffer, Excerpt.lines_whole_append, String.toList_ofList, hline]
      · have hlines := Excerpt.lines_whole_append (String.ofList cs) ""
        rw [String.append_empty, String.toList_ofList] at hlines
        rw [hbuffer, hlines]
        rfl
    · rw [if_neg (not_or.2 ⟨hempty, hlast⟩)]
      exact ⟨⟨byteSize buffer.toList + 1, line.toList⟩, rfl, (whole buffer).lines,
        by rw [Excerpt.lines_whole_append, hline], .inl rfl⟩

section

variable {before after : String} {line : Excerpt}

/-- What is printed for a line is what is reported in it, and was not reported before. -/
theorem filter_newDiagnostics (h : (whole before).AddsLine (whole after) line) :
    (newDiagnostics before after).filter (!·.isMissingEntry) =
        ((Program.parse after).diagnostics.filter (!·.isMissingEntry)).filter
          (·.span.Within line.span) ∧
      (Program.parse after).diagnostics.filter (!·.isMissingEntry) =
        (Program.parse before).diagnostics.filter (!·.isMissingEntry) ++
          (newDiagnostics before after).filter (!·.isMissingEntry) := by
  obtain ⟨old, new, hold, hnew, houtside, hinside⟩ := h.exists_diagnostics
  have hprinted : (newDiagnostics before after).filter (!·.isMissingEntry) = new := by
    have hkept : ∀ d ∈ old, ¬ (!(Program.parse before).diagnostics.contains d) = true := by
      intro d hd
      rw [← hold] at hd
      simpa using (List.mem_filter.1 hd).1
    have hadded : ∀ d ∈ new, (!(Program.parse before).diagnostics.contains d) = true := by
      intro d hd
      have hplain : (!d.isMissingEntry) = true := by
        have hmem : d ∈ old ++ new := List.mem_append_right old hd
        rw [← hnew] at hmem
        exact (List.mem_filter.1 hmem).2
      have hfresh : d ∉ (Program.parse before).diagnostics := by
        intro hmem
        have hmem : d ∈ (Program.parse before).diagnostics.filter (!·.isMissingEntry) :=
          List.mem_filter.2 ⟨hmem, hplain⟩
        rw [hold] at hmem
        exact houtside d hmem (hinside d hd)
      simpa using hfresh
    rw [newDiagnostics, List.filter_comm, hnew, List.filter_append,
      List.filter_eq_nil_iff.2 hkept, List.filter_eq_self.2 hadded, List.nil_append]
  rw [hprinted, hnew, hold]
  refine ⟨?_, rfl⟩
  rw [List.filter_append, List.filter_eq_nil_iff.2 fun d hd => by simpa using houtside d hd,
    List.filter_eq_self.2 fun d hd => by simpa using hinside d hd, List.nil_append]

/-- A missing entry is printed at most once for a line, and only for one that decides it. -/
theorem countP_newDiagnostics (h : (whole before).AddsLine (whole after) line) :
    (newDiagnostics before after).countP (·.isMissingEntry) +
        (if (whole after).lines.any Excerpt.settlesEntry then 0 else 1) ≤
      if (whole before).lines.any Excerpt.settlesEntry then 0 else 1 := by
  have hnew : (newDiagnostics before after).filter (·.isMissingEntry) =
      ((missingEntry (whole after).lines).map Fault.diagnostic).filter
        (!(Program.parse before).diagnostics.contains ·) := by
    rw [newDiagnostics, List.filter_comm, Program.filter_isMissingEntry]
  have hone : (newDiagnostics before after).countP (·.isMissingEntry) ≤ 1 := by
    rw [List.countP_eq_length_filter, hnew]
    refine (List.length_filter_le _ _).trans ?_
    rw [List.length_map]
    exact length_missingEntry_le _
  -- unless the line decides it, what is reported of a missing entry was reported before
  have hnone : (whole before).lines.any Excerpt.settlesEntry ∨
      (whole after).lines.any Excerpt.settlesEntry = false →
      (newDiagnostics before after).countP (·.isMissingEntry) = 0 := by
    intro hs
    rw [List.countP_eq_length_filter, hnew, List.filter_eq_nil_iff.2, List.length_nil]
    intro d hd
    obtain ⟨f, hf, rfl⟩ := List.mem_map.1 hd
    have hmem := List.mem_map_of_mem (f := Fault.diagnostic) (h.missingEntry_subset hs hf)
    rw [← Program.filter_isMissingEntry] at hmem
    simpa using (List.mem_filter.1 hmem).1
  cases hb : (whole before).lines.any Excerpt.settlesEntry with
  | true =>
    rw [if_pos (h.any_settlesEntry hb), hnone (.inl hb)]
    exact Nat.le_refl 0
  | false =>
    cases ha : (whole after).lines.any Excerpt.settlesEntry with
    | true => simpa using hone
    | false =>
      rw [hnone (.inr ha)]
      exact Nat.le_refl 1

end

section

variable {lines : List String} (hn : ∀ line ∈ lines, '\n' ∉ line.toList)

include hn

/-- A session prints what is reported of its text. -/
theorem filter_shown (buffer : String) :
    (Program.parse (bufferAfter buffer lines)).diagnostics.filter (!·.isMissingEntry) =
      (Program.parse buffer).diagnostics.filter (!·.isMissingEntry) ++
        (shown buffer lines).flatten.filter (!·.isMissingEntry) := by
  induction lines generalizing buffer with
  | nil => exact (List.append_nil _).symm
  | cons line rest ih =>
    obtain ⟨hline, hrest⟩ := List.forall_mem_cons.1 hn
    obtain ⟨l, -, hl⟩ := exists_addsLine buffer hline
    have hrest := ih hrest (appendLine buffer line)
    rw [(filter_newDiagnostics hl).2, List.append_assoc] at hrest
    rw [shown, List.flatten_cons, List.filter_append]
    exact hrest

theorem countP_shown (buffer : String) :
    (shown buffer lines).flatten.countP (·.isMissingEntry) ≤
      if (whole buffer).lines.any Excerpt.settlesEntry then 0 else 1 := by
  induction lines generalizing buffer with
  | nil => exact Nat.zero_le _
  | cons line rest ih =>
    obtain ⟨hline, hrest⟩ := List.forall_mem_cons.1 hn
    obtain ⟨l, -, hl⟩ := exists_addsLine buffer hline
    rw [shown, List.flatten_cons, List.countP_append]
    exact (Nat.add_le_add_left (ih hrest _) _).trans (countP_newDiagnostics hl)

/-- The lines of a text that are not empty, followed by those typed. -/
theorem filter_lines_bufferAfter (buffer : String) :
    ((whole (bufferAfter buffer lines)).lines.map Excerpt.chars).filter (· ≠ []) =
      ((whole buffer).lines.map Excerpt.chars).filter (· ≠ []) ++
        (lines.map String.toList).filter (· ≠ []) := by
  induction lines generalizing buffer with
  | nil => exact (List.append_nil _).symm
  | cons line rest ih =>
    obtain ⟨hline, hrest⟩ := List.forall_mem_cons.1 hn
    obtain ⟨l, hchars, earlier, hafter, hbefore⟩ := exists_addsLine buffer hline
    have hold : ((whole buffer).lines.map Excerpt.chars).filter (· ≠ []) =
        (earlier.map Excerpt.chars).filter (· ≠ []) := by
      rcases hbefore with hbefore | ⟨n, hbefore⟩ <;> rw [hbefore]
      rw [List.map_append, List.filter_append]
      exact List.append_nil _
    have hrest := ih hrest (appendLine buffer line)
    rw [hafter, List.map_append, List.filter_append, List.map_singleton, hchars] at hrest
    have htyped : (line :: rest).map String.toList = [line.toList] ++ rest.map String.toList := rfl
    rw [hold, htyped, List.filter_append, ← List.append_assoc]
    exact hrest

end

theorem listing_eq (ds : List Diagnostic) :
    listing ds = String.join (ds.map fun d =>
      s!"  {d.code.id}: {d.message} (at {d.span.start}..{d.span.stop})\n") := by
  refine congrArg String.join (List.map_congr_left fun d _ => ?_)
  simp only [Diagnostic.line, toString, String.append_assoc]
  rfl

/-- Every diagnostic is printed once, in a line of its own, when its line is typed: from an empty
text on, each line that is typed becomes a line of the text below the earlier ones, what is printed
for it is what is reported in it, and all that is printed is what is reported of the text in the
end. Only a missing entry is reported of no line, and it is printed once at most. -/
theorem run_reports_once (read : String → Except FileError String) (atEnd : Output)
    {lines : List String} (hn : ∀ line ∈ lines, '\n' ∉ line.toList)
    (hc : ∀ line ∈ lines, (trim line.toList).head? ≠ some ':') :
    let printed := shown "" lines
    let line (d : Diagnostic) : String :=
      s!"  {d.code.id}: {d.message} (at {d.span.start}..{d.span.stop})\n"
    run read atEnd "" lines =
      ⟨atEnd.exit, String.join (printed.flatten.map line) ++ atEnd.stdout, atEnd.stderr⟩ ∧
    ((whole (bufferAfter "" lines)).lines.map Excerpt.chars).filter (· ≠ []) =
      (lines.map String.toList).filter (· ≠ []) ∧
    (∀ before typed after, lines = before ++ typed :: after →
      let buffer := bufferAfter "" before
      let text := bufferAfter "" (before ++ [typed])
      ∃ l ds, l.chars = typed.toList ∧ (whole buffer).AddsLine (whole text) l ∧
        reply read buffer (.ofLine typed) = ⟨some text, String.join (ds.map line), ""⟩ ∧
        printed[before.length]? = some ds ∧
        ds.filter (!·.isMissingEntry) =
          ((Program.parse text).diagnostics.filter (!·.isMissingEntry)).filter
            (·.span.Within l.span)) ∧
    printed.flatten.filter (!·.isMissingEntry) =
      (Program.parse (bufferAfter "" lines)).diagnostics.filter (!·.isMissingEntry) ∧
    printed.flatten.countP (·.isMissingEntry) ≤ 1 := by
  intro printed line
  refine ⟨?_, filter_lines_bufferAfter hn "", ?_, ?_, countP_shown hn ""⟩
  · rw [run_lines read atEnd hc, listing_eq]
  · rintro before typed after rfl buffer text
    obtain ⟨l, hchars, hl⟩ := exists_addsLine buffer (hn typed (by simp))
    have htext : text = appendLine buffer typed := List.foldl_append
    refine ⟨l, newDiagnostics buffer text, hchars, htext ▸ hl, ?_, ?_, ?_⟩
    · rw [ofLine_append (hc typed (by simp)), ← listing_eq, htext]
      rfl
    · rw [show printed = _ from shown_append "" before (typed :: after),
        List.getElem?_append_right (length_shown _ _).le, length_shown, Nat.sub_self, htext]
      rfl
    · rw [htext]
      exact (filter_newDiagnostics hl).1
  · rw [filter_shown hn, Program.filter_diagnostics ""]
    rfl

/-- The session of `a = 1`, an empty line and `def main():`. -/
theorem run_reports_once_three :
    let lines := ["a = 1", "", "def main():"]
    (∀ line ∈ lines, '\n' ∉ line.toList) ∧
      (∀ line ∈ lines, (trim line.toList).head? ≠ some ':') ∧
      run (fun _ => .ok "") ending "" lines = ⟨0,
        "  E-STRUCT-001: statement outside of a function definition (at 0..5)\n" ++
        "  E-STRUCT-001: missing entry function: a program must start with a `def` header " ++
        "(at 0..5)\nGoodbye!\n", ""⟩ ∧
      (shown "" lines).flatten.countP (·.isMissingEntry) ≤ 1 := by
  have hn : ∀ line ∈ ["a = 1", "", "def main():"], '\n' ∉ line.toList := by decide
  have hc : ∀ line ∈ ["a = 1", "", "def main():"], (trim line.toList).head? ≠ some ':' := by decide
  obtain ⟨hrun, -, -, -, hcount⟩ := run_reports_once (fun _ => .ok "") ending hn hc
  exact ⟨hn, hc, hrun.trans (by decide +kernel), hcount⟩

end Repl

end ShapeAssembly
