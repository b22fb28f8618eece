import ShapeAssembly.Proofs.Columns
import ShapeAssembly.Proofs.WholeText

namespace ShapeAssembly

/-- How many numbers, from `lo` up to `hi`, are at most `bound`, halving the range at each step. -/
def bisect (bound : Nat) (xs : List Nat) (lo hi : Nat) : Nat :=
  if lo < hi then
    let mid := (lo + hi) / 2
    if xs[mid]?.any (· ≤ bound) then bisect bound xs (mid + 1) hi else bisect bound xs lo mid
  else lo
termination_by hi - lo

section

variable {bound : Nat} {xs : List Nat}

/-- In a rising list the numbers up to a bound stand before the others. -/
theorem lt_length_takeWhile_iff (h : xs.Pairwise (· < ·)) {i x : Nat} (hx : xs[i]? = some x) :
    i < (xs.takeWhile (· ≤ bound)).length ↔ x ≤ bound := by
  induction xs generalizing i with
  | nil => cases hx
  | cons first xs ih =>
    obtain ⟨hfirst, hrest⟩ := List.pairwise_cons.1 h
    by_cases hle : first ≤ bound
    · rw [List.takeWhile_cons, if_pos (decide_eq_true hle), List.length_cons]
      cases i with
      | zero =>
        rw [List.getElem?_cons_zero, Option.some.injEq] at hx
        subst hx
        exact iff_of_true (Nat.succ_pos _) hle
      | succ i => rw [Nat.succ_lt_succ_iff, ih hrest hx]
    · have hall : first ≤ x := by
        rcases List.mem_cons.1 (List.mem_of_getElem? hx) with rfl | hmem
        · exact le_rfl
        · exact (hfirst x hmem).le
      rw [List.takeWhile_cons_of_neg (by simpa using hle)]
      exact iff_of_false (Nat.not_lt_zero _) fun hlt => hle (hall.trans hlt)

/-- The bisection keeps the place between its two ends. -/
theorem bisect_eq (h : xs.Pairwise (· < ·)) {lo hi : Nat}
    (hlo : lo ≤ (xs.takeWhile (· ≤ bound)).length)
    (hhi : (xs.takeWhile (· ≤ bound)).length ≤ hi) (hle : hi ≤ xs.length) :
    bisect bound xs lo hi = (xs.takeWhile (· ≤ bound)).length := by
  have hmid : ∀ {mid}, mid < hi → (xs[mid]?.any (· ≤ bound) = true ↔
      mid < (xs.takeWhile (· ≤ bound)).length) := fun {mid} hlt => by
    have hx := List.getElem?_eq_getElem (hlt.trans_le hle)
    rw [lt_length_takeWhile_iff h hx, hx, Option.any_some, decide_eq_true_iff]
  fun_induction bisect bound xs lo hi with
  | case1 lo hi hlt mid hany ih =>
    exact ih ((hmid (by omega)).1 hany) hhi hle hmid
  | case2 lo hi hlt mid hany ih =>
    have hge := not_lt.1 (mt (hmid (by omega)).2 hany)
    exact ih hlo hge (by omega) fun hlt => hmid (by omega)
  | case3 lo hi hge => omega

end

namespace Excerpt

/-- The lines of a text, with newlines between them, are the text. -/
theorem intercalate_lines (text : String) :
    "\n".intercalate ((whole text).lines.map fun l => String.ofList l.chars) = text := by
  have htexts : (whole text).lines.map (String.toList ∘ fun l => String.ofList l.chars) =
      text.toList.splitOn '\n' := by
    rw [← map_chars_lines 0]
    exact List.map_congr_left fun l _ => String.toList_ofList
  rw [← String.toList_inj, String.toList_intercalate, List.map_map, htexts]
  exact List.intercalate_splitOn '\n'

end Excerpt

namespace LineStarts

def Has (index : LineStarts) (line offset : Nat) : Prop :=
  ∃ start size, index.starts[line]? = some start ∧ index.lineSize? line = some size ∧
    start ≤ offset ∧ offset ≤ start + size

variable {text : String} {line : Excerpt} {i offset : Nat}

theorem exists_of_getElem?_starts {start : Nat} (h : (ofText text).starts[i]? = some start) :
    ∃ line, (Excerpt.whole text).lines[i]? = some line ∧ line.start = start := by
  rwa [starts_ofText, List.getElem?_map, Option.map_eq_some_iff] at h

theorem has_iff : (ofText text).Has i offset ↔
    ∃ line, (Excerpt.whole text).lines[i]? = some line ∧ line.start ≤ offset ∧
      offset ≤ line.span.stop := by
  constructor
  · rintro ⟨start, size, hstart, hsize, hle⟩
    obtain ⟨line, hline, rfl⟩ := exists_of_getElem?_starts hstart
    obtain rfl := Option.some.inj ((lineSize?_eq hline).symm.trans hsize)
    exact ⟨line, hline, hle⟩
  · rintro ⟨line, hline, hle⟩
    exact ⟨_, _, getElem?_starts hline, lineSize?_eq hline, hle⟩

/-- A line is found at all of its offsets. -/
theorem lineOf_of_has (h : (ofText text).Has i offset) :
    (LineIndex.ofText text).lineOf offset = i := by
  obtain ⟨line, hline, hstart, hstop⟩ := has_iff.1 h
  obtain ⟨before, after, hlines, rfl⟩ := exists_append_of_getElem? hline
  have hpairwise := (Excerpt.whole text).pairwise_lines
  rw [hlines] at hpairwise
  rw [LineIndex.ofText, LineIndex.ofExcerpt, hlines]
  exact LineIndex.lineOf_of_within hpairwise hstart hstop

theorem stop_le_size (h : line ∈ (Excerpt.whole text).lines) :
    line.span.stop ≤ (utf8Bytes text).length := by
  rw [← stop_whole]
  exact (Excerpt.within_of_mem_lines h).stop

theorem stop_of_last {before : List Excerpt} (h : (Excerpt.whole text).lines = before ++ [line]) :
    line.span.stop = (utf8Bytes text).length := by
  rw [Excerpt.stop_of_last h, stop_whole]

/-- An offset of the text is on the line found for it. -/
theorem has_lineOf (h : offset ≤ (utf8Bytes text).length) :
    (ofText text).Has ((LineIndex.ofText text).lineOf offset) offset := by
  obtain ⟨before, line, after, hlines, hlen, hstart, hnext⟩ :=
    (Excerpt.whole text).exists_lineOf (Nat.zero_le offset)
  have hline : (Excerpt.whole text).lines[(LineIndex.ofText text).lineOf offset]? = some line := by
    rw [LineIndex.ofText, hlen, hlines, List.getElem?_append_right le_rfl, Nat.sub_self]
    rfl
  refine has_iff.2 ⟨line, hline, hstart, ?_⟩
  cases after with
  | nil => exact h.trans (stop_of_last hlines).ge
  | cons next after =>
    have hlt := hnext next rfl
    rw [Excerpt.start_of_next hlines] at hlt
    exact Nat.le_of_lt_succ hlt

/-- An offset past the end is found on the last line. -/
theorem lineOf_past (h : (utf8Bytes text).length < offset) :
    (LineIndex.ofText text).lineOf offset + 1 = (ofText text).starts.length := by
  obtain ⟨before, line, after, hlines, hlen, -, hnext⟩ :=
    (Excerpt.whole text).exists_lineOf (Nat.zero_le offset)
  rw [LineIndex.ofText, hlen, length_starts, hlines]
  cases after with
  | nil => rw [List.length_append, List.length_singleton]
  | cons next after =>
    -- a line below would start in the text, and so before the offset
    have hlt := hnext next rfl
    have hstop : next.span.stop ≤ (utf8Bytes text).length := stop_le_size (by simp [hlines])
    simp only [Excerpt.span] at hstop
    omega

theorem next_start {next : Nat} (hline : (Excerpt.whole text).lines[i]? = some line)
    (hnext : (ofText text).starts[i + 1]? = some next) : next = line.span.stop + 1 := by
  obtain ⟨below, hbelow, rfl⟩ := exists_of_getElem?_starts hnext
  obtain ⟨before, after, hlines, rfl⟩ := exists_append_of_getElem? hline
  rw [hlines, List.getElem?_append_right (Nat.le_add_right _ 1), Nat.add_sub_cancel_left,
    List.getElem?_cons_succ] at hbelow
  cases after with
  | nil => cases hbelow
  | cons l after =>
    obtain rfl := Option.some.inj hbelow
    exact Excerpt.start_of_next hlines

theorem stop_of_no_next (hline : (Excerpt.whole text).lines[i]? = some line)
    (hnext : (ofText text).starts[i + 1]? = none) : line.span.stop = (utf8Bytes text).length := by
  obtain ⟨before, after, hlines, rfl⟩ := exists_append_of_getElem? hline
  have hlen := List.getElem?_eq_none_iff.1 hnext
  rw [length_starts, hlines, List.length_append, List.length_cons] at hlen
  have hnone : after = [] := List.length_eq_zero_iff.1 (by omega)
  exact stop_of_last (hnone ▸ hlines)

theorem bisect_starts (text : String) (offset : Nat) :
    bisect offset (ofText text).starts 0 (ofText text).starts.length =
      (LineIndex.ofText text).lineOf offset + 1 := by
  have hline := lineOf?_eq text offset
  rw [lineOf?, Nat.psub_eq_some] at hline
  rw [hline]
  exact bisect_eq (pairwise_starts text) (Nat.zero_le _) (List.takeWhile_sublist _).length_le le_rfl

/-- Offsets and positions correspond. The lines make up the text and start one byte after each
other, each offset of the text is on one line, which a bisection of the starts finds, and an offset
past the end is found on the last line. -/
theorem positions (text : String) :
    let index := ofText text
    let size := (utf8Bytes text).length
    index.starts = 0 :: ((utf8Bytes text).idxsOf 10).map (· + 1) ∧
    (∃ lines, index.lines? (.whole text) = some lines ∧
      "\n".intercalate (lines.map fun l => String.ofList l.chars) = text ∧
      (∀ l ∈ lines, '\n' ∉ l.chars) ∧
      lines.map (·.start) = index.starts ∧ lines.map (·.span) = (LineIndex.ofText text).spans) ∧
    index.starts.Pairwise (· < ·) ∧
    (∀ line start, index.starts[line]? = some start → ∃ n, index.lineSize? line = some n ∧
      (∀ next, index.starts[line + 1]? = some next → next = start + n + 1) ∧
      (index.starts[line + 1]? = none → start + n = size) ∧
      ∀ column ≤ n, start + column ≤ size ∧ index.lineOf? (start + column) = some line) ∧
    ∀ offset, ∃ line, index.lineOf? offset = some line ∧
      (LineIndex.ofText text).lineOf offset = line ∧
      bisect offset index.starts 0 index.starts.length = line + 1 ∧
      (offset ≤ size → ∀ other, index.Has other offset ↔ other = line) ∧
      (size < offset → line + 1 = index.starts.length) := by
  intro index size
  refine ⟨starts_eq text, ⟨_, lines?_eq text, Excerpt.intercalate_lines text,
    (Excerpt.whole text).lines_eq_layOut.2, (starts_ofText text).symm, rfl⟩, pairwise_starts text,
    fun i start hstart => ?_, fun offset => ⟨_, lineOf?_eq text offset, rfl,
      bisect_starts text offset, fun hle other => ⟨fun h => (lineOf_of_has h).symm, ?_⟩,
      lineOf_past⟩⟩
  · obtain ⟨line, hline, rfl⟩ := exists_of_getElem?_starts hstart
    refine ⟨_, lineSize?_eq hline, fun next hnext => next_start hline hnext,
      stop_of_no_next hline, fun column hcolumn => ?_⟩
    have hhas : index.Has i (line.start + column) :=
      has_iff.2 ⟨line, hline, Nat.le_add_right _ _, Nat.add_le_add_left hcolumn _⟩
    refine ⟨?_, (lineOf?_eq text _).trans (congrArg some (lineOf_of_has hhas))⟩
    exact (Nat.add_le_add_left hcolumn _).trans (stop_le_size (List.mem_of_getElem? hline))
  · rintro rfl
    exact has_lineOf hle

example : (LineIndex.ofText "a\n\nb").lineOf 3 = 2 := by decide

end LineStarts

end ShapeAssembly
