import ShapeAssembly.Proofs.Appending

namespace ShapeAssembly

namespace Context

/-- The lines of a body leave no names for headers. -/
theorem names_after_append (lines : List Excerpt) {body : List Excerpt}
    (hb : ∀ l ∈ body, l.isHeader = false) :
    (after (lines ++ body)).names = (after lines).names := by
  induction body using List.reverseRecOn with
  | nil => rw [List.append_nil]
  | append_singleton body line ih =>
    rw [List.forall_mem_append, List.forall_mem_singleton] at hb
    rw [← List.append_assoc, after_append_singleton, next_body _ hb.2]
    exact ih hb.1

theorem isNone_scope?_of_header {lines : List Excerpt} (h : ∃ line ∈ lines, line.isHeader) :
    (after lines).scope?.isNone = false := by
  obtain ⟨line, hl, hh⟩ := h
  rw [isNone_scope?_after, List.all_eq_false]
  exact ⟨line, hl, by simp [hh]⟩

end Context

section

variable {top body body' low : List Excerpt} {n m : Nat} {g : Nat → Nat}

/-- What is reported of the lines from the next header on does not depend on the lines of a body,
and what is reported above does not either. -/
theorem Context.diagnostics_replace (hmove : ∀ offset, g (shift n offset) = shift m offset)
    (htop : ∃ line ∈ top, line.isHeader) (hb : ∀ l ∈ body, l.isHeader = false)
    (hb' : ∀ l ∈ body', l.isHeader = false) (hlow : ∀ l ∈ low.head?, l.isHeader)
    (hplaces : (top ++ body ++ low.map (·.relocate (shift n))).Pairwise
      fun a b => a.span.stop < b.start)
    (hplaces' : (top ++ body' ++ low.map (·.relocate (shift m))).Pairwise
      fun a b => a.span.stop < b.start) :
    (after []).diagnostics (top ++ body ++ low.map (·.relocate (shift n))) =
        (after []).diagnostics top ++ (after top).diagnostics body ++
          (after (top ++ body)).diagnostics (low.map (·.relocate (shift n))) ∧
      (after []).diagnostics (top ++ body' ++ low.map (·.relocate (shift m))) =
        (after []).diagnostics top ++ (after top).diagnostics body' ++
          ((after (top ++ body)).diagnostics (low.map (·.relocate (shift n)))).map
            (·.relocate g) := by
  -- all that a body leaves for the next header: that there is a block, and the names so far
  have hnone : (after (top ++ body')).scope?.isNone = (after (top ++ body)).scope?.isNone := by
    rw [isNone_scope?_of_header (Excerpt.exists_header_append htop _),
      isNone_scope?_of_header (Excerpt.exists_header_append htop _)]
  have hnames : (after (top ++ body')).names = (after (top ++ body)).names := by
    rw [names_after_append top hb, names_after_append top hb']
  constructor
  · rw [diagnostics_append [] hplaces, diagnostics_append [] (List.pairwise_append.1 hplaces).1,
      List.nil_append, List.nil_append]
  · rw [diagnostics_append [] hplaces', diagnostics_append [] (List.pairwise_append.1 hplaces').1,
      List.nil_append, List.nil_append, diagnostics_header_shift hmove hnone hnames hlow]

/-- The definitions of the blocks above and below do not depend on the lines of a body, and the
header of its own block is read alike. -/
theorem Program.blockDefinitions_replace
    (hmove : ∀ offset, g (shift n offset) = shift m offset) (before : List Excerpt)
    {header : Excerpt} (hh : header.isHeader) (hb : ∀ l ∈ body, l.isHeader = false)
    (hb' : ∀ l ∈ body', l.isHeader = false) (low : List Excerpt) :
    ∃ o o' vs,
      blockDefinitions (before ++ header :: body ++ low.map (·.relocate (shift n))) =
        blockDefinitions before ++ o :: vs ∧
      blockDefinitions (before ++ header :: body' ++ low.map (·.relocate (shift m))) =
        blockDefinitions before ++ o' :: vs.map (Option.map (·.relocate g)) ∧
      Option.Rel (fun d d' => d'.name = d.name ∧ d'.parameters = d.parameters) o o' := by
  obtain ⟨op, isEntry, earlier, -, hblocks⟩ := exists_blockDefinitions_append before hh
  have hold := hblocks body (low.map (·.relocate (shift n))) hb
  have hnew := hblocks body' (low.map (·.relocate (shift m))) hb'
  rw [Excerpt.map_ofExcerpt_relocate, Block.group_relocate] at hold hnew
  rw [Block.definitions?_shift hmove] at hnew
  exact ⟨_, _, _, hold, hnew, Block.rel_definition? ⟨rfl, rfl⟩⟩

end

/-- Of lines that lie one below the other from the start, the last one ends where the others have
their end. -/
theorem extent_append_singleton {before : List Excerpt} {line : Excerpt}
    (h : layOut 0 ((before ++ [line]).map Excerpt.chars) = before ++ [line]) :
    extent ((before ++ [line]).map Excerpt.chars) = line.span.stop + 1 := by
  have hline : [(⟨0 + extent (before.map Excerpt.chars), line.chars⟩ : Excerpt)] = [line] :=
    (layOut_eq_append h).2
  have hstart : extent (before.map Excerpt.chars) = line.start := by
    rw [← List.head_eq_of_cons_eq hline, Nat.zero_add]
  rw [List.map_append, extent_append, hstart]
  rfl

/-- Lines between others that are replaced by lines of other sizes. -/
theorem layOut_replace {top body low : List Excerpt}
    (h : layOut 0 ((top ++ body ++ low).map Excerpt.chars) = top ++ body ++ low)
    (body' : List (List Char)) :
    let size := extent (top.map Excerpt.chars)
    let low' := layOut 0 (low.map Excerpt.chars)
    low = low'.map (·.relocate (shift (size + extent (body.map Excerpt.chars)))) ∧
      layOut 0 (top.map Excerpt.chars ++ body' ++ low.map Excerpt.chars) =
        top ++ layOut size body' ++ low'.map (·.relocate (shift (size + extent body'))) := by
  intro size low'
  obtain ⟨hupper, hlower⟩ := layOut_eq_append h
  obtain ⟨htop, -⟩ := layOut_eq_append hupper
  constructor
  · rw [List.map_append, extent_append, Nat.zero_add, layOut_eq_map] at hlower
    exact hlower.symm
  · rw [layOut_append, layOut_append, htop, extent_append, Nat.zero_add, Nat.zero_add,
      layOut_eq_map (size + extent body')]

theorem Excerpt.isHeader_of_mem_layOut {start : Nat} {ls : List (List Char)}
    (h : ∀ cs ∈ ls, isHeader ⟨0, cs⟩ = false) : ∀ l ∈ layOut start ls, l.isHeader = false := by
  intro l hl
  have hmem : l.chars ∈ ls := by
    rw [← map_chars_layOut start ls]
    exact List.mem_map_of_mem hl
  exact (isHeader_mk l.start 0 l.chars).trans (h l.chars hmem)

namespace Section

theorem countP_isHeader {sections : List Section} (hh : ∀ s ∈ sections, s.header.isHeader)
    (hb : ∀ s ∈ sections, ∀ l ∈ s.body, l.isHeader = false) :
    (sections.flatMap lines).countP (·.isHeader) = sections.length := by
  induction sections with
  | nil => rfl
  | cons s rest ih =>
    obtain ⟨hheader, hheaders⟩ := List.forall_mem_cons.1 hh
    obtain ⟨hbody, hbodies⟩ := List.forall_mem_cons.1 hb
    rw [List.flatMap_cons, List.countP_append, ih hheaders hbodies, lines,
      List.countP_cons_of_pos hheader, Excerpt.countP_isHeader hbody, List.length_cons,
      Nat.zero_add, Nat.add_comm]

theorem isHeader_head? {sections : List Section} (hh : ∀ s ∈ sections, s.header.isHeader)
    (start : Nat) :
    ∀ l ∈ (layOut start ((sections.flatMap lines).map Excerpt.chars)).head?, l.isHeader := by
  cases sections with
  | nil => exact fun l hl => by cases hl
  | cons s rest =>
    rintro l ⟨⟩
    exact (Excerpt.isHeader_mk _ s.header.start _).trans (hh s List.mem_cons_self)

namespace Divides

variable {lines loose : List Excerpt} {earlier later : List Section} {s : Section}

/-- The lines of a text around the body of a section. -/
theorem eq_append (h : Divides lines loose (earlier ++ s :: later)) :
    lines = loose ++ earlier.flatMap Section.lines ++ [s.header] ++ s.body ++
      later.flatMap Section.lines := by
  rw [h.lines, List.flatMap_append, List.flatMap_cons, Section.lines]
  simp only [List.append_assoc, List.cons_append, List.nil_append]

theorem length_blockDefinitions (h : Divides lines loose (earlier ++ later)) :
    (Program.blockDefinitions (loose ++ earlier.flatMap Section.lines)).length =
      earlier.length := by
  rw [Program.length_blockDefinitions, List.countP_append, Excerpt.countP_isHeader h.loose,
    countP_isHeader, Nat.zero_add]
  · exact fun t ht => h.header t (List.mem_append_left _ ht)
  · exact fun t ht => h.body t (List.mem_append_left _ ht)

/-- The lines of a text and of that with another body, those below which are moved. -/
theorem lines_replace {text : String}
    (h : Divides (Excerpt.whole text).lines loose (earlier ++ s :: later))
    {body : List (List Char)} (hn : ∀ cs ∈ body, '\n' ∉ cs) :
    let top := loose ++ earlier.flatMap Section.lines ++ [s.header]
    let start := s.header.span.stop + 1
    let low := (later.flatMap Section.lines).map Excerpt.chars
    later.flatMap Section.lines =
        (layOut 0 low).map (·.relocate (shift (start + extent (s.body.map Excerpt.chars)))) ∧
      (Excerpt.whole (joinLines (top.map Excerpt.chars ++ body ++ low))).lines =
        top ++ layOut start body ++
          (layOut 0 low).map (·.relocate (shift (start + extent body))) := by
  intro top start low
  obtain ⟨hlay, hfree⟩ := (Excerpt.whole text).lines_eq_layOut
  rw [h.eq_append] at hlay hfree
  obtain ⟨hlow, htext⟩ := layOut_replace hlay.symm body
  have hstart : extent (top.map Excerpt.chars) = start :=
    extent_append_singleton (layOut_eq_append (layOut_eq_append hlay.symm).1).1
  have hchars : ∀ cs ∈ top.map Excerpt.chars ++ body ++ low, '\n' ∉ cs := by
    simp only [low, top, List.forall_mem_append, List.forall_mem_map] at hfree ⊢
    exact ⟨⟨hfree.1.1, hn⟩, hfree.2⟩
  rw [hstart] at hlow htext
  exact ⟨hlow, (Excerpt.lines_joinLines (by simp [top]) hchars).trans htext⟩

end Divides

end Section

namespace Program

/-- Blocks do not depend on each other's bodies. With other lines in the body of one block, all that
is reported elsewhere and all other definitions stay, moved below it by as much as the lines are
longer, and the block itself keeps its name and parameters. -/
theorem parse_replace_body {text : String} {loose : List Excerpt} {earlier later : List Section}
    {s : Section}
    (h : Section.Divides (Excerpt.whole text).lines loose (earlier ++ s :: later))
    {body : List (List Char)} (hn : ∀ cs ∈ body, '\n' ∉ cs)
    (hb : ∀ cs ∈ body, Excerpt.isHeader ⟨0, cs⟩ = false) :
    let top := loose ++ earlier.flatMap Section.lines ++ [s.header]
    let low := later.flatMap Section.lines
    let text' := joinLines (top.map Excerpt.chars ++ body ++ low.map Excerpt.chars)
    let moved := fun offset => offset + extent body - extent (s.body.map Excerpt.chars)
    (∃ ds ms ms' es,
      (parse text).diagnostics = ds ++ ms ++ es ∧
      (parse text').diagnostics = ds ++ ms' ++ es.map (·.relocate moved) ∧
      (∀ d ∈ ds, ∃ line ∈ top, d.span.Within line.span) ∧
      (∀ d ∈ ms, ∃ line ∈ s.body, d.span.Within line.span) ∧
      (∀ d ∈ ms', ∃ line ∈ layOut (s.header.span.stop + 1) body, d.span.Within line.span) ∧
      ∀ d ∈ es, ∃ line ∈ low, d.span.Within line.span) ∧
    (parse text).program.definitions =
      (blockDefinitions (Excerpt.whole text).lines).reduceOption ∧
    (parse text').program.definitions =
      (blockDefinitions (Excerpt.whole text').lines).reduceOption ∧
    ∃ us o o' vs,
      blockDefinitions (Excerpt.whole text).lines = us ++ o :: vs ∧
      blockDefinitions (Excerpt.whole text').lines =
        us ++ o' :: vs.map (Option.map (·.relocate moved)) ∧
      us.length = earlier.length ∧
      Option.Rel (fun d d' => d'.name = d.name ∧ d'.parameters = d.parameters) o o' := by
  intro top low text' moved
  have hlow : low = (layOut 0 (low.map Excerpt.chars)).map _ := (h.lines_replace hn).1
  have hlines' : (Excerpt.whole text').lines = top ++ _ ++ _ := (h.lines_replace hn).2
  have hlines : (Excerpt.whole text).lines = top ++ s.body ++ low := h.eq_append
  rw [hlow] at hlines
  have hheader : s.header.isHeader := h.header s (List.mem_append_right _ List.mem_cons_self)
  have hbody : ∀ l ∈ s.body, l.isHeader = false :=
    h.body s (List.mem_append_right _ List.mem_cons_self)
  have hbody' : ∀ l ∈ layOut (s.header.span.stop + 1) body, l.isHeader = false :=
    Excerpt.isHeader_of_mem_layOut hb
  have htop : ∃ line ∈ top, line.isHeader :=
    ⟨s.header, List.mem_append_right _ (List.mem_singleton_self _), hheader⟩
  have hhead : ∀ l ∈ (layOut 0 (low.map Excerpt.chars)).head?, l.isHeader :=
    Section.isHeader_head?
      (fun t ht => h.header t (List.mem_append_right _ (List.mem_cons_of_mem s ht))) 0
  have hmove : ∀ offset,
      moved (shift (s.header.span.stop + 1 + extent (s.body.map Excerpt.chars)) offset) =
        shift (s.header.span.stop + 1 + extent body) offset := by
    intro offset
    simp only [moved, shift]
    omega
  have hin : ∃ line ∈ (Excerpt.whole text).lines, line.isHeader := by
    rw [hlines, List.append_assoc]
    exact Excerpt.exists_header_append htop _
  have hin' : ∃ line ∈ (Excerpt.whole text').lines, line.isHeader := by
    rw [hlines', List.append_assoc]
    exact Excerpt.exists_header_append htop _
  refine ⟨?_, definitions_parse hin, definitions_parse hin', ?_⟩
  · obtain ⟨hdiag, hdiag'⟩ := Context.diagnostics_replace hmove htop hbody hbody' hhead
      (hlines ▸ Excerpt.pairwise_lines _) (hlines' ▸ Excerpt.pairwise_lines _)
    rw [← hlines, ← hlow, ← diagnostics_of_header hin] at hdiag
    rw [← hlines', ← hlow, ← diagnostics_of_header hin'] at hdiag'
    exact ⟨_, _, _, _, hdiag, hdiag', fun d => Context.exists_of_mem_diagnostics,
      fun d => Context.exists_of_mem_diagnostics, fun d => Context.exists_of_mem_diagnostics,
      fun d => Context.exists_of_mem_diagnostics⟩
  · obtain ⟨o, o', vs, hold, hnew, hrel⟩ := blockDefinitions_replace hmove
      (loose ++ earlier.flatMap Section.lines) hheader hbody hbody'
      (layOut 0 (low.map Excerpt.chars))
    have hcons : ∀ ls, top ++ ls = loose ++ earlier.flatMap Section.lines ++ s.header :: ls :=
      fun ls => List.append_assoc _ [s.header] ls
    rw [← hcons] at hold hnew
    exact ⟨_, o, o', vs, hlines ▸ hold, hlines' ▸ hnew, h.length_blockDefinitions, hrel⟩

/-- In a text without a fault, all that is reported after the replacement is in the new lines. -/
theorem parse_replace_body_two :
    let text := "def main():\n  x = Cuboid(1, 1, 1)\ndef f():\n  y = Cuboid(2, 2, 2)"
    let main : Section := ⟨⟨0, "def main():".toList⟩, [⟨12, "  x = Cuboid(1, 1, 1)".toList⟩]⟩
    let f : Section := ⟨⟨34, "def f():".toList⟩, [⟨43, "  y = Cuboid(2, 2, 2)".toList⟩]⟩
    let body := ["  x = Cuboid(1".toList, "  def".toList, []]
    let text' := joinLines (main.header.chars :: body ++ f.lines.map Excerpt.chars)
    Section.Divides (Excerpt.whole text).lines [] [main, f] ∧
      (∀ cs ∈ body, '\n' ∉ cs ∧ Excerpt.isHeader ⟨0, cs⟩ = false) ∧
      (parse text).diagnostics = [] ∧
      ∀ d ∈ (parse text').diagnostics, ∃ line ∈ layOut 12 body, d.span.Within line.span := by
  intro text main f body text'
  have hdivides : Section.Divides (Excerpt.whole text).lines [] ([] ++ main :: [f]) :=
    ⟨by decide +kernel, by decide +kernel, by decide +kernel, by decide +kernel⟩
  have hbody : ∀ cs ∈ body, '\n' ∉ cs ∧ Excerpt.isHeader ⟨0, cs⟩ = false := by decide +kernel
  have hnone : (parse text).diagnostics = [] := by decide +kernel
  obtain ⟨⟨ds, ms, ms', es, hold, hnew, -, -, hms', -⟩, -⟩ :=
    parse_replace_body hdivides (fun cs hcs => (hbody cs hcs).1) fun cs hcs => (hbody cs hcs).2
  rw [hnone, eq_comm, List.append_eq_nil_iff, List.append_eq_nil_iff] at hold
  obtain ⟨⟨rfl, rfl⟩, rfl⟩ := hold
  refine ⟨hdivides, hbody, hnone, fun d hd => hms' d ?_⟩
  have htext : (parse text').diagnostics = [] ++ ms' ++ [] := hnew
  rwa [htext, List.append_nil] at hd

end Program

end ShapeAssembly
