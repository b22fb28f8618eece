import ShapeAssembly.Proofs.BodyStatements
import ShapeAssembly.Proofs.LineDiagnostics

namespace ShapeAssembly

theorem Excerpt.exists_header_append {lines : List Excerpt} (h : ∃ line ∈ lines, line.isHeader)
    (more : List Excerpt) : ∃ line ∈ lines ++ more, line.isHeader := by
  obtain ⟨line, hl, hh⟩ := h
  exact ⟨line, List.mem_append_left more hl, hh⟩

namespace Program

theorem definitions_parse {text : String}
    (h : ∃ line ∈ (Excerpt.whole text).lines, line.isHeader) :
    (parse text).program.definitions =
      (blockDefinitions (Excerpt.whole text).lines).reduceOption :=
  definitions_ofLines h

/-- Lines below the last header of a text go on with its block, and the blocks above it stay as
they are. -/
theorem exists_blockDefinitions_more {lines : List Excerpt}
    (h : ∃ line ∈ lines, line.isHeader) {more : List Excerpt} {whole : Span}
    (hmore : ∀ l ∈ more, l.span.Within whole) :
    ∃ above o o' below,
      blockDefinitions lines = above ++ [o] ∧
      blockDefinitions (lines ++ more) = above ++ o' :: below ∧
      Option.Rel
        (fun d d' => ∃ ss, d' = d.extend ss ∧ ∀ s ∈ ss, s.AllSpans (·.Within whole)) o o' := by
  obtain ⟨before, header, body, rfl, hh, hb⟩ := Excerpt.exists_last_header h
  obtain ⟨op, isEntry, earlier, -, hblocks⟩ := exists_blockDefinitions_append before hh
  have hlines := hblocks body [] hb
  rw [List.append_nil] at hlines
  refine ⟨_, _, _, _, hlines, hblocks body more hb, ?_⟩
  apply Block.rel_definition?
  -- the lines above the first header of `more` come after those of the body
  rw [List.map_nil, Block.group, List.append_nil, BodyLine.statements_append,
    Definition.withStatements_append]
  exact ⟨_, rfl, BodyLine.allSpans_statements hmore _⟩

/-- A text that goes on leaves everything above as it is. What is reported there stays, in its
order, before what is reported below, and every function stays where it is. Only the block that is
open at the end may get further statements. -/
theorem parse_append (a b : String) :
    (∃ more,
      (parse (a ++ "\n" ++ b)).diagnostics.filter (!·.isMissingEntry) =
        (parse a).diagnostics.filter (!·.isMissingEntry) ++ more ∧
      ∀ d ∈ more, byteSize a.toList < d.span.start) ∧
    ((∃ line ∈ (Excerpt.whole a).lines, line.isHeader) →
      (parse a).program.definitions =
        (blockDefinitions (Excerpt.whole a).lines).reduceOption ∧
      (parse (a ++ "\n" ++ b)).program.definitions =
        (blockDefinitions (Excerpt.whole (a ++ "\n" ++ b)).lines).reduceOption ∧
      ∃ above o o' below,
        blockDefinitions (Excerpt.whole a).lines = above ++ [o] ∧
        blockDefinitions (Excerpt.whole (a ++ "\n" ++ b)).lines = above ++ o' :: below ∧
        Option.Rel
          (fun d d' => ∃ more, d' = d.extend more ∧ ∀ s ∈ more, byteSize a.toList < s.span.start)
          o o') := by
  have hlines := Excerpt.lines_whole_append a b
  have hbelow : ∀ l ∈ Excerpt.lines ⟨byteSize a.toList + 1, b.toList⟩,
      l.span.Within (Excerpt.span ⟨byteSize a.toList + 1, b.toList⟩) :=
    fun l hl => Excerpt.within_of_mem_lines hl
  constructor
  · have hplaces := Excerpt.pairwise_lines (.whole (a ++ "\n" ++ b))
    rw [hlines] at hplaces
    rw [filter_diagnostics, filter_diagnostics, hlines, Context.diagnostics_append [] hplaces]
    refine ⟨_, rfl, fun d hd => ?_⟩
    obtain ⟨l, hl, hd⟩ := Context.exists_of_mem_diagnostics hd
    exact (hbelow l hl).start.trans hd.start
  · intro h
    have h' : ∃ line ∈ (Excerpt.whole (a ++ "\n" ++ b)).lines, line.isHeader :=
      hlines ▸ Excerpt.exists_header_append h _
    obtain ⟨above, o, o', below, ha, hb, hrel⟩ := exists_blockDefinitions_more h hbelow
    refine ⟨definitions_parse h, definitions_parse h', above, o, o', below, ha, ?_, ?_⟩
    · rw [hlines, hb]
    · cases hrel with
      | none => exact .none
      | some hd =>
        obtain ⟨more, hd, hs⟩ := hd
        exact .some ⟨more, hd, fun s hmem => (hs s hmem).span.start⟩

end Program

end ShapeAssembly
