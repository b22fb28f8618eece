import Mathlib.Data.Nat.PSub
import ShapeAssembly.LineIndex
import ShapeAssembly.Proofs.Slices

namespace ShapeAssembly

section

variable {α β : Type}

/-- The items from one index up to another, which have to be in range and in this order. -/
def cut? (start stop : Nat) (xs : List α) : Option (List α) :=
  if start ≤ stop ∧ stop ≤ xs.length then some ((xs.take stop).drop start) else none

theorem cut?_map_append (f : α → β) (before inner after : List α) :
    cut? before.length (before.length + inner.length) ((before ++ inner ++ after).map f) =
      some (inner.map f) := by
  rw [cut?, if_pos (by simp), ← List.length_append, ← List.map_take, ← List.map_drop,
    List.take_left, List.drop_left]

theorem cut?_map_length (f : α → β) (before after : List α) :
    cut? before.length ((before ++ after).map f).length ((before ++ after).map f) =
      some (after.map f) := by
  have h := cut?_map_append f before after []
  rwa [List.append_nil, ← List.length_append, ← (before ++ after).length_map f] at h

theorem cut?_map_cons (f : α → β) (a : α) (as : List α) :
    cut? 1 ((a :: as).map f).length ((a :: as).map f) = some (as.map f) :=
  cut?_map_length f [a] as

theorem mapM_of_forall₂ {f : α → Option β} {as : List α} {bs : List β}
    (h : List.Forall₂ (fun a b => f a = some b) as bs) : as.mapM f = some bs := by
  induction h with
  | nil => rfl
  | cons ha _ ih => rw [List.mapM_cons, ha, ih]; rfl

theorem mapM_of_forall {f : α → Option β} {g : α → β} {as : List α}
    (h : ∀ a ∈ as, f a = some (g a)) : as.mapM f = some (as.map g) := by
  induction as with
  | nil => rfl
  | cons a as ih =>
    obtain ⟨ha, has⟩ := List.forall_mem_cons.1 h
    rw [List.mapM_cons, ha, ih has]
    rfl

theorem exists_append_of_getElem? {xs : List α} {i : Nat} {x : α} (h : xs[i]? = some x) :
    ∃ before after, xs = before ++ x :: after ∧ before.length = i := by
  obtain ⟨hlt, rfl⟩ := List.getElem?_eq_some_iff.1 h
  refine ⟨xs.take i, xs.drop (i + 1), ?_, List.length_take_of_le hlt.le⟩
  rw [← List.drop_eq_getElem_cons hlt, List.take_append_drop]

end

/-- The bytes after the newlines of a text from byte `offset` on. -/
def afterNewlines (offset : Nat) : List Char → List Nat
  | [] => []
  | c :: cs =>
    let rest := afterNewlines (offset + c.utf8Size) cs
    if c = '\n' then (offset + c.utf8Size) :: rest else rest

structure LineStarts where
  starts : List Nat
  size : Nat

namespace LineStarts

def ofText (text : String) : LineStarts :=
  ⟨0 :: afterNewlines 0 text.toList, byteSize text.toList⟩

def lineStop? (index : LineStarts) (line : Nat) : Option Nat :=
  match index.starts[line + 1]? with
  | some next => Nat.psub next 1
  | none => some index.size

def lineSize? (index : LineStarts) (line : Nat) : Option Nat := do
  let stop ← index.lineStop? line
  let start ← index.starts[line]?
  Nat.psub stop start

def lineSpan? (index : LineStarts) (line : Nat) : Option Span := do
  let start ← index.starts[line]?
  let size ← index.lineSize? line
  return ⟨start, start + size⟩

def lines? (index : LineStarts) (source : Excerpt) : Option (List Excerpt) :=
  (List.range index.starts.length).mapM fun line => do
    let span ← index.lineSpan? line
    let text ← source.slice? span
    return ⟨span.start, text.toList⟩

def lineOf? (index : LineStarts) (offset : Nat) : Option Nat :=
  Nat.psub (index.starts.takeWhile (· ≤ offset)).length 1

/-- A span in the columns of a line; none if it is empty or leaves the line. -/
def within? (index : LineStarts) (line : Nat) (s : Span) : Option (Option LocalRange) := do
  let base ← index.starts[line]?
  if s.isEmpty ∨ s.start < base then some none
  else do
    let start ← Nat.psub s.start base
    let stop ← Nat.psub s.stop base
    let size ← index.lineSize? line
    if size < stop then some none else some (some ⟨line, start, stop⟩)

def toLocal? (index : LineStarts) (s : Span) : Option (Option LocalRange) :=
  if s.isEmpty ∨ index.size < s.stop then some none
  else do
    let line ← index.lineOf? s.start
    index.within? line s

def toLocals? (index : LineStarts) (spans : List Span) : Option (List LocalRange) :=
  List.reduceOption <$> spans.mapM index.toLocal?

def rangesOnLine? (index : LineStarts) (line : Nat) (spans : List Span) :
    Option (List LocalRange) :=
  if index.starts.length ≤ line then some []
  else List.reduceOption <$> spans.mapM (index.within? line)

end LineStarts

theorem map_start_lines (start : Nat) (cs : List Char) :
    (Excerpt.lines ⟨start, cs⟩).map (·.start) = start :: afterNewlines start cs := by
  induction cs generalizing start with
  | nil => rfl
  | cons c cs ih =>
    rw [afterNewlines]
    by_cases hc : c = '\n'
    · subst hc
      rw [Excerpt.lines_newline, List.map_cons, if_pos rfl]
      exact congrArg _ (ih _)
    · obtain ⟨line, more, hl, hcons⟩ := Excerpt.lines_cons hc start cs
      have ih := ih (start + c.utf8Size)
      rw [hl, List.map_cons, List.cons.injEq] at ih
      rw [hcons, List.map_cons, if_neg hc]
      exact congrArg _ ih.2

namespace Excerpt

variable {e line : Excerpt} {before after : List Excerpt}

theorem start_of_lines_eq (h : e.lines = before ++ line :: after) :
    line.start = e.start + extent (before.map chars) ∧
      layOut (line.span.stop + 1) (after.map chars) = after := by
  have hlay := e.lines_eq_layOut.1
  rw [h] at hlay
  obtain ⟨-, hrest⟩ := layOut_eq_append hlay.symm
  rw [List.map_cons, layOut, List.cons.injEq] at hrest
  obtain ⟨hline, hafter⟩ := hrest
  have hstart : line.start = e.start + extent (before.map chars) :=
    (congrArg Excerpt.start hline).symm
  rw [← hstart] at hafter
  exact ⟨hstart, hafter⟩

/-- A line starts after the newline that ends the line above. -/
theorem start_of_next {next : Excerpt} (h : e.lines = before ++ line :: next :: after) :
    next.start = line.span.stop + 1 := by
  have hlay := (start_of_lines_eq h).2
  rw [List.map_cons, layOut, List.cons.injEq] at hlay
  exact (congrArg Excerpt.start hlay.1).symm

/-- The last line ends with the text. -/
theorem stop_of_last (h : e.lines = before ++ [line]) : line.span.stop = e.span.stop := by
  have hstart := (start_of_lines_eq h).1
  have hextent := e.extent_lines
  rw [h, List.map_append, extent_append, List.map_singleton, extent, extent] at hextent
  simp only [span] at hstart ⊢
  omega

end Excerpt

namespace LineStarts

variable {text : String} {line : Excerpt} {i : Nat}

theorem starts_ofText (text : String) :
    (ofText text).starts = (Excerpt.whole text).lines.map (·.start) :=
  (map_start_lines 0 text.toList).symm

theorem getElem?_starts (h : (Excerpt.whole text).lines[i]? = some line) :
    (ofText text).starts[i]? = some line.start := by
  rw [starts_ofText, List.getElem?_map, h]
  rfl

theorem lineStop?_eq (h : (Excerpt.whole text).lines[i]? = some line) :
    (ofText text).lineStop? i = some line.span.stop := by
  obtain ⟨before, after, hlines, hi⟩ := exists_append_of_getElem? h
  rw [lineStop?, starts_ofText, List.getElem?_map, hlines, ← hi,
    List.getElem?_append_right (Nat.le_add_right _ 1), Nat.add_sub_cancel_left,
    List.getElem?_cons_succ]
  cases after with
  | nil =>
    rw [Excerpt.stop_of_last hlines, Excerpt.span, Excerpt.whole, Nat.zero_add]
    rfl
  | cons next after => exact Nat.psub_eq_some.2 (Excerpt.start_of_next hlines).symm

theorem lineSize?_eq (h : (Excerpt.whole text).lines[i]? = some line) :
    (ofText text).lineSize? i = some (byteSize line.chars) := by
  rw [lineSize?, lineStop?_eq h, getElem?_starts h]
  exact Nat.psub_eq_some.2 (Nat.add_comm _ _)

theorem lineSpan?_eq (h : (Excerpt.whole text).lines[i]? = some line) :
    (ofText text).lineSpan? i = some line.span := by
  rw [lineSpan?, getElem?_starts h, lineSize?_eq h]
  rfl

theorem length_starts (text : String) :
    (ofText text).starts.length = (Excerpt.whole text).lines.length := by
  rw [starts_ofText, List.length_map]

/-- Every line can be cut out of the text. -/
theorem lines?_eq (text : String) :
    (ofText text).lines? (.whole text) = some (Excerpt.whole text).lines := by
  refine mapM_of_forall₂ (List.forall₂_iff_get.2 ⟨?_, fun i hi hlt => ?_⟩)
  · rw [List.length_range, length_starts]
  have hline : (Excerpt.whole text).lines[i]? = some ((Excerpt.whole text).lines.get ⟨i, hlt⟩) :=
    List.getElem?_eq_getElem hlt
  generalize (Excerpt.whole text).lines.get ⟨i, hlt⟩ = line at hline
  have hslice : (Excerpt.whole text).slice? line.span = some (String.ofList line.chars) := by
    rw [Excerpt.slice?_eq_some, String.toList_ofList]
    exact ⟨Excerpt.isPart_of_mem_lines (List.mem_of_getElem? hline), rfl⟩
  rw [List.get_eq_getElem, List.getElem_range, lineSpan?_eq hline]
  show ((Excerpt.whole text).slice? line.span).bind _ = _
  rw [hslice]
  exact congrArg (fun cs => some (Excerpt.mk line.start cs)) String.toList_ofList

theorem within?_eq (h : (Excerpt.whole text).lines[i]? = some line) (s : Span) :
    (ofText text).within? i s = some (LocalRange.within? i line.span s) := by
  rw [within?, getElem?_starts h, lineSize?_eq h, LocalRange.within?]
  show (if s.isEmpty = true ∨ s.start < line.start then _ else _) = _
  by_cases hout : s.isEmpty = true ∨ s.start < line.start
  · rw [if_pos hout, if_pos (hout.imp_right .inl)]
  · obtain ⟨hne, hge⟩ := not_or.1 hout
    have hlt : s.start < s.stop := by simpa [Span.isEmpty] using hne
    have hstart : Nat.psub s.start line.start = some (s.start - line.start) :=
      Nat.psub_eq_sub (not_lt.1 hge)
    have hstop : Nat.psub s.stop line.start = some (s.stop - line.start) :=
      Nat.psub_eq_sub ((not_lt.1 hge).trans hlt.le)
    rw [if_neg hout, hstart, hstop]
    show (if byteSize line.chars < s.stop - line.start then _ else _) = _
    by_cases hlong : line.span.stop < s.stop
    · rw [if_pos (by simp only [Excerpt.span] at hlong; omega), if_pos (.inr (.inr hlong))]
    · rw [if_neg (by simp only [Excerpt.span] at hlong; omega), if_neg]
      · rfl
      · exact fun h => h.elim hne fun h => h.elim hge hlong

theorem lineOf?_eq (text : String) (offset : Nat) :
    (ofText text).lineOf? offset = some ((LineIndex.ofText text).lineOf offset) := by
  have hstarts : (ofText text).starts.takeWhile (· ≤ offset) =
      ((LineIndex.ofText text).spans.takeWhile (·.start ≤ offset)).map Span.start := by
    rw [starts_ofText, LineIndex.ofText, LineIndex.ofExcerpt, List.takeWhile_map,
      List.takeWhile_map, List.map_map]
    rfl
  rw [lineOf?, LineIndex.lineOf, ← List.length_map Span.start, ← hstarts]
  -- the first line starts with the text
  apply Nat.psub_eq_sub
  rw [ofText, List.takeWhile_cons_of_pos (by simp)]
  exact Nat.succ_le_succ (Nat.zero_le _)

/-- Every offset has a line. -/
theorem exists_line (text : String) (offset : Nat) :
    ∃ line, (Excerpt.whole text).lines[(LineIndex.ofText text).lineOf offset]? = some line := by
  have hpos : 0 < (Excerpt.whole text).lines.length := by
    rw [← length_starts]
    exact Nat.succ_pos _
  have hle : ((LineIndex.ofText text).spans.takeWhile (·.start ≤ offset)).length ≤
      (Excerpt.whole text).lines.length := by
    rw [← List.length_map Excerpt.span]
    exact (List.takeWhile_sublist _).length_le
  have hlt : (LineIndex.ofText text).lineOf offset < (Excerpt.whole text).lines.length := by
    rw [LineIndex.lineOf]
    omega
  exact ⟨_, List.getElem?_eq_getElem hlt⟩

theorem toLocal?_eq (text : String) (s : Span) :
    (ofText text).toLocal? s = some ((LineIndex.ofText text).toLocal? s) := by
  obtain ⟨line, hline⟩ := exists_line text s.start
  have hspan : (LineIndex.ofText text).span? ((LineIndex.ofText text).lineOf s.start) =
      some line.span := by
    rw [LineIndex.span?, LineIndex.ofText, LineIndex.ofExcerpt, List.getElem?_map]
    exact congrArg _ hline
  have hlocal : (LineIndex.ofText text).toLocal? s =
      LocalRange.within? ((LineIndex.ofText text).lineOf s.start) line.span s := by
    rw [LineIndex.toLocal?, hspan]
    rfl
  rw [toLocal?, hlocal]
  by_cases hout : s.isEmpty = true ∨ (ofText text).size < s.stop
  · -- a span that leaves the text leaves the line
    have hwithin : line.span.stop ≤ (ofText text).size := by
      have h := (Excerpt.within_of_mem_lines (List.mem_of_getElem? hline)).stop
      exact h.trans (Nat.zero_add _).le
    rw [if_pos hout, LocalRange.within?,
      if_pos (hout.imp_right fun h => .inr (hwithin.trans_lt h))]
  · rw [if_neg hout, lineOf?_eq]
    exact within?_eq hline s

theorem toLocals?_eq (text : String) (spans : List Span) :
    (ofText text).toLocals? spans = some ((LineIndex.ofText text).toLocals spans) := by
  rw [toLocals?, mapM_of_forall fun s _ => toLocal?_eq text s]
  exact congrArg some List.filterMap_map

theorem rangesOnLine?_eq (text : String) (i : Nat) (spans : List Span) :
    (ofText text).rangesOnLine? i spans = some ((LineIndex.ofText text).rangesOnLine i spans) := by
  have hspan : (LineIndex.ofText text).span? i = (Excerpt.whole text).lines[i]?.map (·.span) :=
    List.getElem?_map
  rw [rangesOnLine?, LineIndex.rangesOnLine, hspan, length_starts]
  cases hline : (Excerpt.whole text).lines[i]? with
  | none => exact if_pos (List.getElem?_eq_none_iff.1 hline)
  | some line =>
    obtain ⟨hlt, -⟩ := List.getElem?_eq_some_iff.1 hline
    rw [if_neg (not_le.2 hlt), mapM_of_forall fun s _ => within?_eq hline s]
    exact congrArg some List.filterMap_map

end LineStarts

end ShapeAssembly
