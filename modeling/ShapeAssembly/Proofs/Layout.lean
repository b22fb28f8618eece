import ShapeAssembly.Proofs.RelocatedLines

namespace ShapeAssembly

def layOut (start : Nat) : List (List Char) → List Excerpt
  | [] => []
  | cs :: rest => ⟨start, cs⟩ :: layOut (start + byteSize cs + 1) rest

def joinLines (ls : List (List Char)) : String := String.ofList (['\n'].intercalate ls)

/-- The bytes of some lines with a newline each. -/
def extent : List (List Char) → Nat
  | [] => 0
  | cs :: rest => byteSize cs + 1 + extent rest

theorem layOut_append (start : Nat) (ls more : List (List Char)) :
    layOut start (ls ++ more) = layOut start ls ++ layOut (start + extent ls) more := by
  induction ls generalizing start with
  | nil => rfl
  | cons cs ls ih =>
    rw [List.cons_append, layOut, layOut, ih, extent, List.cons_append, Nat.add_assoc,
      Nat.add_assoc, Nat.add_assoc]

theorem layOut_shift (n start : Nat) (ls : List (List Char)) :
    layOut (shift n start) ls = (layOut start ls).map (·.relocate (shift n)) := by
  induction ls generalizing start with
  | nil => rfl
  | cons cs ls ih =>
    have hnext : shift n start + byteSize cs + 1 = shift n (start + byteSize cs + 1) := by
      simp only [shift]
      omega
    rw [layOut, layOut, hnext, ih, List.map_cons]
    rfl

/-- Lines can be laid out at the start of a text and then moved. -/
theorem layOut_eq_map (start : Nat) (ls : List (List Char)) :
    layOut start ls = (layOut 0 ls).map (·.relocate (shift start)) := by
  rw [← layOut_shift, shift, Nat.zero_add]

theorem map_chars_layOut (start : Nat) (ls : List (List Char)) :
    (layOut start ls).map Excerpt.chars = ls := by
  induction ls generalizing start with
  | nil => rfl
  | cons cs ls ih => exact congrArg (List.cons cs) (ih _)

theorem extent_append (ls more : List (List Char)) :
    extent (ls ++ more) = extent ls + extent more := by
  induction ls with
  | nil => exact (Nat.zero_add _).symm
  | cons cs ls ih => rw [List.cons_append, extent, extent, ih, Nat.add_assoc _ (extent ls)]

/-- Of lines that lie one below the other, so do the first ones and the others. -/
theorem layOut_eq_append {start : Nat} {lines more : List Excerpt}
    (h : layOut start ((lines ++ more).map Excerpt.chars) = lines ++ more) :
    layOut start (lines.map Excerpt.chars) = lines ∧
      layOut (start + extent (lines.map Excerpt.chars)) (more.map Excerpt.chars) = more := by
  rw [List.map_append, layOut_append] at h
  apply List.append_inj h
  rw [← List.length_map Excerpt.chars, map_chars_layOut, List.length_map]

theorem within_of_mem_layOut {start : Nat} {ls : List (List Char)} {l : Excerpt}
    (h : l ∈ layOut start ls) : start ≤ l.start ∧ l.span.stop < start + extent ls := by
  induction ls generalizing start with
  | nil => cases h
  | cons cs ls ih =>
    rw [extent]
    rcases List.mem_cons.1 h with rfl | h
    · exact ⟨Nat.le_refl _, by simp only [Excerpt.span]; omega⟩
    · obtain ⟨hstart, hstop⟩ := ih h
      exact ⟨by omega, by omega⟩

theorem pairwise_layOut (start : Nat) (ls : List (List Char)) :
    (layOut start ls).Pairwise fun a b => a.span.stop < b.start := by
  induction ls generalizing start with
  | nil => exact .nil
  | cons cs ls ih =>
    exact .cons (fun l hl => Nat.lt_of_succ_le (within_of_mem_layOut hl).1) (ih _)

namespace Excerpt

theorem lines_eq (start : Nat) (cs : List Char) :
    lines ⟨start, cs⟩ = (linesFrom start cs).1 :: (linesFrom start cs).2 := rfl

theorem lines_newline (start : Nat) (cs : List Char) :
    lines ⟨start, '\n' :: cs⟩ = ⟨start, []⟩ :: lines ⟨start + 1, cs⟩ :=
  lines_append (List.not_mem_nil : '\n' ∉ []) start cs

theorem lines_cons {c : Char} (hc : c ≠ '\n') (start : Nat) (cs : List Char) :
    ∃ line more, lines ⟨start + c.utf8Size, cs⟩ = line :: more ∧
      lines ⟨start, c :: cs⟩ = ⟨start, c :: line.chars⟩ :: more := by
  refine ⟨_, _, rfl, ?_⟩
  rw [lines_eq, linesFrom]
  simp only [if_neg hc]

/-- A text that goes on after a newline has the lines of both parts. -/
theorem lines_append_newline (start : Nat) (as bs : List Char) :
    lines ⟨start, as ++ '\n' :: bs⟩ =
      lines ⟨start, as⟩ ++ lines ⟨start + byteSize as + 1, bs⟩ := by
  induction as generalizing start with
  | nil => exact lines_newline start bs
  | cons c as ih =>
    by_cases hc : c = '\n'
    · subst hc
      rw [List.cons_append, lines_newline, lines_newline, ih, byteSize_cons, List.cons_append,
        Nat.add_assoc start, show ('\n' : Char).utf8Size = 1 from rfl]
    · obtain ⟨line, more, hl, hcons⟩ := lines_cons hc start as
      obtain ⟨line', more', hl', hcons'⟩ := lines_cons hc start (as ++ '\n' :: bs)
      rw [ih, hl, List.cons_append] at hl'
      obtain ⟨rfl, rfl⟩ := List.cons.inj hl'
      rw [List.cons_append, hcons', hcons, byteSize_cons, Nat.add_assoc start]
      rfl

theorem lines_of_not_mem {cs : List Char} (h : '\n' ∉ cs) (start : Nat) :
    lines ⟨start, cs⟩ = [⟨start, cs⟩] := by
  have hline := lines_append h start []
  rw [lines_append_newline] at hline
  exact List.append_cancel_right hline

/-- Lines joined by newlines are the lines of the text. -/
theorem lines_intercalate {ls : List (List Char)} (hne : ls ≠ []) (hn : ∀ cs ∈ ls, '\n' ∉ cs)
    (start : Nat) : lines ⟨start, ['\n'].intercalate ls⟩ = layOut start ls := by
  induction ls generalizing start with
  | nil => exact absurd rfl hne
  | cons cs ls ih =>
    obtain ⟨hcs, hls⟩ := List.forall_mem_cons.1 hn
    cases ls with
    | nil =>
      have hone : ['\n'].intercalate [cs] = cs := by simp [List.intercalate]
      rw [hone, lines_of_not_mem hcs]
      rfl
    | cons ds ls =>
      have hjoin : ['\n'].intercalate (cs :: ds :: ls) =
          cs ++ '\n' :: ['\n'].intercalate (ds :: ls) := by
        simp [List.intercalate]
      rw [hjoin, lines_append hcs, ih (List.cons_ne_nil _ _) hls]
      rfl

theorem lines_joinLines {ls : List (List Char)} (hne : ls ≠ []) (hn : ∀ cs ∈ ls, '\n' ∉ cs) :
    (whole (joinLines ls)).lines = layOut 0 ls := by
  rw [whole, joinLines, String.toList_ofList]
  exact lines_intercalate hne hn 0

/-- The lines of a text lie one below the other, and there is no newline in them. -/
theorem lines_eq_layOut (e : Excerpt) :
    e.lines = layOut e.start (e.lines.map chars) ∧ ∀ l ∈ e.lines, '\n' ∉ l.chars := by
  obtain ⟨start, cs⟩ := e
  induction cs generalizing start with
  | nil => exact ⟨rfl, List.forall_mem_singleton.2 List.not_mem_nil⟩
  | cons c cs ih =>
    by_cases hc : c = '\n'
    · subst hc
      obtain ⟨hlines, hn⟩ := ih (start + 1)
      rw [lines_newline]
      exact ⟨congrArg (List.cons _) hlines, List.forall_mem_cons.2 ⟨List.not_mem_nil, hn⟩⟩
    · -- the character makes the first line longer by its size, and the others lie where they did
      obtain ⟨line, more, hl, hcons⟩ := lines_cons hc start cs
      obtain ⟨hlines, hn⟩ := ih (start + c.utf8Size)
      rw [hl, List.map_cons, layOut] at hlines
      rw [hl, List.forall_mem_cons] at hn
      obtain ⟨-, hmore⟩ := List.cons.inj hlines
      rw [hcons]
      refine ⟨congrArg (List.cons _) ?_, List.forall_mem_cons.2 ⟨?_, hn.2⟩⟩
      · simpa only [byteSize_cons, Nat.add_assoc] using hmore
      · rw [List.mem_cons, not_or]
        exact ⟨Ne.symm hc, hn.1⟩

/-- The lines of a text lie one below the other. -/
theorem pairwise_lines (e : Excerpt) :
    e.lines.Pairwise fun a b => a.span.stop < b.start := by
  rw [e.lines_eq_layOut.1]
  exact pairwise_layOut _ _

theorem extent_lines (e : Excerpt) : extent (e.lines.map chars) = byteSize e.chars + 1 := by
  obtain ⟨start, cs⟩ := e
  induction cs generalizing start with
  | nil => rfl
  | cons c cs ih =>
    by_cases hc : c = '\n'
    · subst hc
      rw [lines_newline, List.map_cons, extent, ih, byteSize_cons]
      rfl
    · obtain ⟨line, more, hl, hcons⟩ := lines_cons hc start cs
      have hrest := ih (start + c.utf8Size)
      rw [hl, List.map_cons, extent] at hrest
      rw [hcons, List.map_cons, extent, byteSize_cons, byteSize_cons]
      simp only at hrest ⊢
      omega

/-- The lines of a text lie in it. -/
theorem within_of_mem_lines {e l : Excerpt} (h : l ∈ e.lines) : l.span.Within e.span := by
  rw [e.lines_eq_layOut.1] at h
  obtain ⟨hstart, hstop⟩ := within_of_mem_layOut h
  rw [extent_lines] at hstop
  exact ⟨hstart, Nat.le_add_right _ _, by simp only [span] at hstop ⊢; omega⟩

theorem linesFrom_shift (n start : Nat) (cs : List Char) :
    linesFrom (shift n start) cs =
      ((linesFrom start cs).1.relocate (shift n),
        (linesFrom start cs).2.map (·.relocate (shift n))) := by
  induction cs generalizing start with
  | nil => rfl
  | cons c cs ih =>
    have hnext : shift n start + c.utf8Size = shift n (start + c.utf8Size) :=
      Nat.add_right_comm start n _
    simp only [linesFrom, hnext, ih]
    split <;> rfl

/-- A text that stands somewhere else has its lines there. -/
theorem lines_below (n : Nat) (text : String) :
    lines ⟨n, text.toList⟩ = (whole text).lines.map (·.relocate (shift n)) := by
  have h := linesFrom_shift n 0 text.toList
  rw [shift, Nat.zero_add] at h
  rw [lines_eq, h]
  rfl

theorem lines_whole_append (a b : String) :
    (whole (a ++ "\n" ++ b)).lines =
      (whole a).lines ++ lines ⟨byteSize a.toList + 1, b.toList⟩ := by
  have htext : (a ++ "\n" ++ b).toList = a.toList ++ '\n' :: b.toList := by simp
  rw [whole, htext, lines_append_newline, Nat.zero_add]
  rfl

end Excerpt

end ShapeAssembly
