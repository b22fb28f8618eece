import ShapeAssembly.Proofs.CheckedLines

namespace ShapeAssembly

def utf8Bytes (text : String) : List UInt8 := text.toUTF8.data.toList

theorem utf8Bytes_eq (text : String) :
    utf8Bytes text = text.toList.flatMap String.utf8EncodeChar := by
  have h : text.toByteArray = text.toList.utf8Encode := by
    rw [← String.toByteArray_ofList, String.ofList_toList]
  show text.toByteArray.data.toList = _
  rw [h, List.utf8Encode, List.data_toByteArray, List.toList_toArray]

theorem length_flatMap_utf8EncodeChar (cs : List Char) :
    (cs.flatMap String.utf8EncodeChar).length = byteSize cs := by
  induction cs with
  | nil => rfl
  | cons c cs ih =>
    rw [List.flatMap_cons, List.length_append, String.length_utf8EncodeChar, ih, byteSize_cons]

theorem newline_mem_utf8EncodeChar {c : Char} : 10 ∈ String.utf8EncodeChar c ↔ c = '\n' := by
  constructor
  · intro h
    have hbyte : ∀ n, n < 256 → (10 : UInt8) = UInt8.ofNat n → n = 10 := fun n hlt heq =>
      (UInt8.toNat_ofNat_of_lt' hlt).symm.trans (congrArg UInt8.toNat heq).symm
    rw [String.utf8EncodeChar] at h
    split at h
    · have hn := hbyte _ (by omega) (List.mem_singleton.1 h)
      exact Char.ext (UInt32.toNat_inj.1 hn)
    · -- every byte of a longer encoding has its high bit set
      exfalso
      split_ifs at h <;> simp only [List.mem_cons, List.not_mem_nil, or_false] at h
      · rcases h with h | h <;> have hn := hbyte _ (by omega) h <;> omega
      · rcases h with h | h | h <;> have hn := hbyte _ (by omega) h <;> omega
      · rcases h with h | h | h | h <;> have hn := hbyte _ (by omega) h <;> omega
  · rintro rfl
    decide

theorem afterNewlines_eq (offset : Nat) (cs : List Char) :
    afterNewlines offset cs =
      ((cs.flatMap String.utf8EncodeChar).idxsOf 10 offset).map (· + 1) := by
  induction cs generalizing offset with
  | nil => rfl
  | cons c cs ih =>
    rw [afterNewlines, List.flatMap_cons, List.idxsOf_append, List.map_append,
      String.length_utf8EncodeChar, ← ih]
    by_cases hc : c = '\n'
    · subst hc
      rfl
    · have hnone : (String.utf8EncodeChar c).idxsOf 10 offset = [] := by
        refine List.idxsOf_eq_nil_iff.2 fun b hb => beq_eq_false_iff_ne.2 ?_
        rintro rfl
        exact hc (newline_mem_utf8EncodeChar.1 hb)
      rw [if_neg hc, hnone]
      rfl

theorem mem_slice {bytes : List UInt8} {b : UInt8} {start stop : Nat} :
    b ∈ (bytes.take stop).drop start ↔ ∃ i ∈ bytes.idxsOf b, start ≤ i ∧ i < stop := by
  have hmem : ∀ i, i ∈ bytes.idxsOf b ↔ bytes[i]? = some b := fun i => by
    rw [List.mem_idxsOf_iff_exists_getElem_pos, List.getElem?_eq_some_iff]
    simp only [beq_iff_eq]
  simp only [List.mem_iff_getElem?, List.getElem?_drop, List.getElem?_take, hmem]
  constructor
  · rintro ⟨j, h⟩
    split at h
    · exact ⟨start + j, h, Nat.le_add_right _ _, ‹_›⟩
    · cases h
  · rintro ⟨i, h, hstart, hstop⟩
    refine ⟨i - start, ?_⟩
    rw [Nat.add_sub_cancel' hstart, if_pos hstop, h]

theorem exists_last_of_takeWhile {α : Type} {p : α → Bool} {a : α} (h : p a = true) (as : List α) :
    ∃ before b after, a :: as = before ++ b :: after ∧
      ((a :: as).takeWhile p).length - 1 = before.length ∧ p b = true ∧
      ∀ c ∈ after.head?, p c = false := by
  induction as generalizing a with
  | nil =>
    rw [List.takeWhile_cons_of_pos h]
    exact ⟨[], a, [], rfl, rfl, h, fun c hc => by cases hc⟩
  | cons b as ih =>
    rw [List.takeWhile_cons_of_pos h]
    cases hb : p b with
    | true =>
      obtain ⟨before, c, after, heq, hlen, hc, hafter⟩ := ih hb
      refine ⟨a :: before, c, after, congrArg _ heq, ?_, hc, hafter⟩
      rw [List.takeWhile_cons_of_pos hb] at hlen ⊢
      simp only [List.length_cons] at hlen ⊢
      omega
    | false =>
      rw [List.takeWhile_cons_of_neg (by simp [hb])]
      exact ⟨[], a, b :: as, rfl, rfl, h, fun c hc => Option.some.inj hc ▸ hb⟩

namespace LineStarts

/-- The lines after the first start behind the newline bytes. -/
theorem starts_eq (text : String) :
    (ofText text).starts = 0 :: ((utf8Bytes text).idxsOf 10).map (· + 1) := by
  rw [ofText, afterNewlines_eq, ← utf8Bytes_eq]

/-- Bisection finds the line of an offset, since the lines start one after the other. -/
theorem pairwise_starts (text : String) : (ofText text).starts.Pairwise (· < ·) := by
  rw [starts_ofText, List.pairwise_map]
  exact (Excerpt.whole text).pairwise_lines.imp fun h => (Nat.le_add_right _ _).trans_lt h

theorem size_eq (text : String) : (ofText text).size = (utf8Bytes text).length := by
  rw [ofText, utf8Bytes_eq, length_flatMap_utf8EncodeChar]

theorem stop_whole (text : String) :
    (Excerpt.whole text).span.stop = (utf8Bytes text).length := by
  rw [← size_eq]
  exact Nat.zero_add _

end LineStarts

namespace Excerpt

/-- The newline bytes stand between the lines. -/
theorem newline_iff {text : String} {i : Nat} :
    i ∈ (utf8Bytes text).idxsOf 10 ↔ ∃ before line next after,
      (whole text).lines = before ++ line :: next :: after ∧ line.span.stop = i := by
  obtain ⟨first, more, hlines⟩ : ∃ first more, (whole text).lines = first :: more := ⟨_, _, rfl⟩
  have hmore : i ∈ (utf8Bytes text).idxsOf 10 ↔ ∃ next ∈ more, next.start = i + 1 := by
    have hstarts := (LineStarts.starts_ofText text).symm.trans (LineStarts.starts_eq text)
    rw [hlines, List.map_cons, List.cons.injEq] at hstarts
    rw [← List.mem_map_of_injective Nat.succ_injective, ← List.mem_map]
    exact iff_of_eq (congrArg (i + 1 ∈ ·) hstarts.2.symm)
  rw [hmore]
  constructor
  · rintro ⟨next, hnext, hstart⟩
    obtain ⟨as, after, rfl⟩ := List.append_of_mem hnext
    have hne : first :: as ≠ [] := List.cons_ne_nil _ _
    have hsplit : (whole text).lines =
        (first :: as).dropLast ++ (first :: as).getLast hne :: next :: after := by
      rw [hlines, ← List.cons_append]
      nth_rewrite 1 [← List.dropLast_append_getLast hne]
      rw [List.append_assoc, List.singleton_append]
    exact ⟨_, _, next, after, hsplit, by have h := start_of_next hsplit; omega⟩
  · rintro ⟨before, line, next, after, hsplit, rfl⟩
    refine ⟨next, ?_, start_of_next hsplit⟩
    rw [hlines] at hsplit
    cases before with
    | nil => simp [(List.cons.inj hsplit).2]
    | cons l before => simp [(List.cons.inj hsplit).2]

/-- An offset is found at the last line that starts no later. -/
theorem exists_lineOf (e : Excerpt) {offset : Nat} (h : e.start ≤ offset) :
    ∃ before line after, e.lines = before ++ line :: after ∧
      (LineIndex.ofExcerpt e).lineOf offset = before.length ∧ line.start ≤ offset ∧
      ∀ next ∈ after.head?, offset < next.start := by
  obtain ⟨first, more, hlines⟩ : ∃ first more, e.lines = first :: more := ⟨_, _, rfl⟩
  have hfirst : first.start = e.start := by
    have hbefore : e.lines = [] ++ first :: more := hlines
    exact (start_of_lines_eq hbefore).1
  obtain ⟨before, line, after, heq, hlen, hline, hafter⟩ :=
    exists_last_of_takeWhile (p := fun l => l.start ≤ offset)
      (decide_eq_true (hfirst.le.trans h)) more
  refine ⟨before, line, after, hlines.trans heq, ?_, of_decide_eq_true hline,
    fun next hnext => not_le.1 (of_decide_eq_false (hafter next hnext))⟩
  rw [LineIndex.lineOf, LineIndex.ofExcerpt, List.takeWhile_map, List.length_map, hlines]
  exact hlen

end Excerpt

theorem LocalRange.within?_eq_some {i : Nat} {whole s : Span} {r : LocalRange} :
    LocalRange.within? i whole s = some r ↔
      s.start < s.stop ∧ whole.start ≤ s.start ∧ s.stop ≤ whole.stop ∧
        r = ⟨i, s.start - whole.start, s.stop - whole.start⟩ := by
  simp only [within?, Span.isEmpty, decide_eq_true_eq]
  split
  · rename_i hout
    constructor
    · intro h
      cases h
    · rintro ⟨hlt, hstart, hstop, -⟩
      omega
  · rename_i hin
    obtain ⟨hne, hin⟩ := not_or.1 hin
    obtain ⟨hstart, hstop⟩ := not_or.1 hin
    rw [Option.some.injEq, eq_comm]
    exact ⟨fun h => ⟨not_le.1 hne, not_lt.1 hstart, not_lt.1 hstop, h⟩, fun h => h.2.2.2⟩

/-- A range of columns at the place of a span: the line of the range has the span in its bounds,
and there is at least one byte in it. -/
def LocalRange.Locates (r : LocalRange) (source : Excerpt) (s : Span) : Prop :=
  ∃ line, source.lines[r.line]? = some line ∧ line.start + r.start = s.start ∧
    line.start + r.stop = s.stop ∧ r.start < r.stop ∧ r.stop ≤ byteSize line.chars

theorem LocalRange.exists_locates {source line : Excerpt} {s : Span} (h : line ∈ source.lines)
    (hlt : s.start < s.stop) (hstart : line.start ≤ s.start) (hstop : s.stop ≤ line.span.stop) :
    ∃ r : LocalRange, r.Locates source s := by
  obtain ⟨i, hi⟩ := List.mem_iff_getElem?.1 h
  refine ⟨⟨i, s.start - line.start, s.stop - line.start⟩, line, hi, ?_⟩
  simp only [Excerpt.span] at hstop ⊢
  omega

namespace LineIndex

/-- Among lines that lie one below the other, an offset in one is found there. -/
theorem lineOf_of_within {before after : List Excerpt} {line : Excerpt}
    (h : (before ++ line :: after).Pairwise fun a b => a.span.stop < b.start) {offset : Nat}
    (hstart : line.start ≤ offset) (hstop : offset ≤ line.span.stop) :
    lineOf ⟨(before ++ line :: after).map (·.span)⟩ offset = before.length := by
  obtain ⟨-, hafter, hbefore⟩ := List.pairwise_append.1 h
  have hearly : ∀ s ∈ before.map (·.span), decide (s.start ≤ offset) = true := by
    refine List.forall_mem_map.2 fun l hl => decide_eq_true ?_
    have hlt := hbefore l hl line List.mem_cons_self
    exact (Nat.le_add_right _ _).trans (hlt.le.trans hstart)
  have hlate : ∀ l ∈ after, ¬ l.span.start ≤ offset := fun l hl =>
    not_le.2 (hstop.trans_lt ((List.pairwise_cons.1 hafter).1 l hl))
  have hline : decide (line.span.start ≤ offset) = true := decide_eq_true hstart
  rw [lineOf, List.map_append, List.map_cons, List.takeWhile_append_of_pos hearly,
    List.takeWhile_cons, if_pos hline]
  have hnone : (after.map (·.span)).takeWhile (·.start ≤ offset) = [] := by
    cases after with
    | nil => rfl
    | cons l after =>
      exact List.takeWhile_cons_of_neg (by simpa using hlate l List.mem_cons_self)
  rw [hnone, List.length_append, List.length_map]
  rfl

variable {source : Excerpt} {s : Span} {r : LocalRange}

theorem span?_ofExcerpt (source : Excerpt) (i : Nat) :
    (ofExcerpt source).span? i = source.lines[i]?.map (·.span) :=
  List.getElem?_map

/-- A span lies on a line if it is drawn there, whichever way the line was found. -/
theorem toLocal?_eq_some :
    (ofExcerpt source).toLocal? s = some r ↔
      ∃ whole, (ofExcerpt source).span? r.line = some whole ∧
        LocalRange.within? r.line whole s = some r := by
  rw [toLocal?, Option.bind_eq_some_iff]
  constructor
  · rintro ⟨whole, hwhole, hr⟩
    obtain ⟨-, -, -, rfl⟩ := LocalRange.within?_eq_some.1 hr
    exact ⟨whole, hwhole, hr⟩
  · rintro ⟨whole, hwhole, hr⟩
    obtain ⟨hlt, hstart, hstop, -⟩ := LocalRange.within?_eq_some.1 hr
    have hline : (ofExcerpt source).lineOf s.start = r.line := by
      rw [span?_ofExcerpt] at hwhole
      obtain ⟨line, hline, rfl⟩ := Option.map_eq_some_iff.1 hwhole
      obtain ⟨before, after, hlines, hlen⟩ := exists_append_of_getElem? hline
      have hpairwise := source.pairwise_lines
      rw [hlines] at hpairwise
      rw [ofExcerpt, hlines, ← hlen]
      exact lineOf_of_within hpairwise hstart (hlt.le.trans hstop)
    rw [hline]
    exact ⟨whole, hwhole, hr⟩

/-- The columns of a line count the bytes from its start. -/
theorem toLocal?_iff_locates :
    (ofExcerpt source).toLocal? s = some r ↔ r.Locates source s := by
  simp only [toLocal?_eq_some, span?_ofExcerpt, Option.map_eq_some_iff,
    LocalRange.within?_eq_some]
  constructor
  · rintro ⟨_, ⟨line, hline, rfl⟩, hlt, hstart, hstop, heq⟩
    have hfirst := congrArg LocalRange.start heq
    have hlast := congrArg LocalRange.stop heq
    simp only [Excerpt.span] at hstart hstop hfirst hlast
    exact ⟨line, hline, by omega, by omega, by omega, by omega⟩
  · rintro ⟨line, hline, hstart, hstop, hlt, hle⟩
    refine ⟨_, ⟨line, hline, rfl⟩, by omega, ?_, ?_, ?_⟩
    · exact hstart ▸ Nat.le_add_right _ _
    · exact hstop ▸ Nat.add_le_add_left hle _
    · rw [Excerpt.span, ← hstart, ← hstop, Nat.add_sub_cancel_left, Nat.add_sub_cancel_left]

theorem isSome_toLocal? (source : Excerpt) (s : Span) :
    ((ofExcerpt source).toLocal? s).isSome = true ↔
      s.start < s.stop ∧ ∃ l ∈ source.lines, l.start ≤ s.start ∧ s.stop ≤ l.span.stop := by
  simp only [Option.isSome_iff_exists, toLocal?_iff_locates]
  constructor
  · rintro ⟨r, line, hline, hstart, hstop, hlt, hle⟩
    refine ⟨by omega, line, List.mem_of_getElem? hline, by omega, ?_⟩
    exact hstop ▸ Nat.add_le_add_left hle _
  · rintro ⟨hlt, l, hl, hstart, hstop⟩
    exact LocalRange.exists_locates hl hlt hstart hstop

/-- A stretch of bytes lies on a line if no newline is among them. -/
theorem exists_line_iff (text : String) (s : Span) :
    (∃ l ∈ (Excerpt.whole text).lines, l.start ≤ s.start ∧ s.stop ≤ l.span.stop) ↔
      s.stop ≤ (utf8Bytes text).length ∧ 10 ∉ ((utf8Bytes text).take s.stop).drop s.start := by
  simp only [mem_slice, Excerpt.newline_iff]
  constructor
  · rintro ⟨l, hl, hstart, hstop⟩
    refine ⟨?_, ?_⟩
    · rw [← LineStarts.stop_whole]
      exact hstop.trans (Excerpt.within_of_mem_lines hl).stop
    · -- a line is on one side of the newline or the other
      rintro ⟨i, ⟨before, line, next, after, hlines, rfl⟩, hle, hlt⟩
      have hpairwise := (Excerpt.whole text).pairwise_lines
      rw [hlines] at hpairwise hl
      obtain ⟨-, hafter, hbefore⟩ := List.pairwise_append.1 hpairwise
      rcases List.mem_append.1 hl with hb | ha
      · have habove := hbefore l hb line List.mem_cons_self
        simp only [Excerpt.span] at habove hlt hstop
        omega
      · rcases List.mem_cons.1 ha with rfl | ha
        · omega
        · have hbelow := (List.pairwise_cons.1 hafter).1 l ha
          omega
  · rintro ⟨hle, hno⟩
    obtain ⟨before, line, after, hlines, -, hstart, hnext⟩ :=
      (Excerpt.whole text).exists_lineOf (Nat.zero_le s.start)
    refine ⟨line, by simp [hlines], hstart, ?_⟩
    cases after with
    | nil =>
      rw [Excerpt.stop_of_last hlines, LineStarts.stop_whole]
      exact hle
    | cons next after =>
      have hbelow := Excerpt.start_of_next hlines
      have hlt := hnext next rfl
      refine not_lt.1 fun hlong => hno ⟨_, ⟨before, line, next, after, hlines, rfl⟩, ?_, hlong⟩
      omega

end LineIndex

/-- Any span can be asked for its columns. It has some if there is a byte in it, and neither the end
of the text nor a newline before its own end, and then they are on a line of the text. -/
theorem LineStarts.toLocal?_classified (text : String) (s : Span) :
    let index := ofText text
    let bytes := utf8Bytes text
    index.starts.Pairwise (· < ·) ∧
    ∃ columns, index.toLocal? s = some columns ∧ (LineIndex.ofText text).toLocal? s = columns ∧
      (columns.isSome = true ↔
        s.start < s.stop ∧ s.stop ≤ bytes.length ∧ 10 ∉ (bytes.take s.stop).drop s.start) ∧
      ∀ r, columns = some r → ∃ start size,
        index.starts[r.line]? = some start ∧ index.lineSize? r.line = some size ∧
          start + r.start = s.start ∧ start + r.stop = s.stop ∧ r.stop ≤ size := by
  intro index bytes
  refine ⟨pairwise_starts text, _, toLocal?_eq text s, rfl, ?_, fun r hr => ?_⟩
  · rw [LineIndex.ofText, LineIndex.isSome_toLocal?, LineIndex.exists_line_iff]
  · obtain ⟨line, hline, hstart, hstop, -, hle⟩ := LineIndex.toLocal?_iff_locates.1 hr
    exact ⟨_, _, getElem?_starts hline, lineSize?_eq hline, hstart, hstop, hle⟩

end ShapeAssembly
