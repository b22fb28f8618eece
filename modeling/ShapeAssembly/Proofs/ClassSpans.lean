import ShapeAssembly.Proofs.MissingEntry
import ShapeAssembly.Proofs.StatementPlaces

namespace ShapeAssembly

/-- The names that a header gives to its block hold characters of its line. -/
theorem Excerpt.holds_headerName? {line : Excerpt} {n : Name} (h : n ∈ line.headerName?) :
    line.Holds n.span := by
  obtain ⟨header, hh, hn⟩ := Option.bind_eq_some_iff.1 h
  exact (placed_of_header? line.merges_holds line.placed_holds hh).2.1 n hn

theorem Excerpt.holds_of_mem_parameters {line : Excerpt} {n : Name} (h : n ∈ line.parameters) :
    line.Holds n.span := by
  rw [parameters] at h
  split at h
  · rename_i header hh
    have hplaced := (placed_of_header? line.merges_holds line.placed_holds hh).2.2
    rw [Header.parameters] at h
    split at h
    · rename_i hr
      exact hplaced.value hr n h
    · cases h
  · cases h

theorem Statement.StandsIn.holds_of_mem {s : Statement} {line : Excerpt} (h : s.StandsIn line)
    {n : Name} (hn : n ∈ s.references) : line.Holds n.span := by
  obtain ⟨t, ts, ht, hs, -⟩ := h
  have hnames : n ∈ s.names := by
    rw [names, List.mem_append]
    rcases List.mem_append.1 hn with hn | hn
    · exact .inl hn
    · obtain ⟨a, ha, rfl⟩ := List.mem_map.1 hn
      exact .inr (List.mem_cons_of_mem _ (List.mem_map_of_mem (List.mem_filter.1 ha).1))
  obtain ⟨u, hu, rfl⟩ := List.mem_map.1 (hs.subset hnames)
  exact Excerpt.holds_of_mem ht hu

namespace Section

variable {s : Section} {d : Definition}

theorem IsReadAs.holds_headerName (h : s.IsReadAs d) {n : Name} (hn : n ∈ d.name) :
    s.header.Holds n.span := by
  rw [h.name] at hn
  exact Excerpt.holds_headerName? hn

theorem IsReadAs.holds_parameter (h : s.IsReadAs d) {n : Name} (hn : n ∈ d.parameters) :
    s.header.Holds n.span := by
  rw [h.parameters] at hn
  exact Excerpt.holds_of_mem_parameters hn

theorem IsReadAs.exists_standsIn (h : s.IsReadAs d) {st : Statement} (hst : st ∈ d.statements) :
    ∃ l ∈ s.body, st.StandsIn l := by
  obtain ⟨chosen, hsub, hall⟩ := BodyLine.exists_standsIn s.header.headerScope s.body
  rw [h.statements, outcomes, ← BodyLine.statements_readAll] at hst
  obtain ⟨l, hmem, hin⟩ := exists_of_mem_forall₂ hall.flip hst
  exact ⟨l, hsub.subset hmem, hin⟩

theorem kept_sublist (earlier sections : List Section) :
    (kept earlier sections).Sublist sections := by
  induction sections generalizing earlier with
  | nil => exact .slnil
  | cons s rest ih =>
    rw [kept]
    split
    · exact (ih _).cons_cons s
    · exact (ih _).cons s

end Section

namespace Program

/-- A definition without anything in it, or what one of some sections is read as. -/
theorem IsReadFrom.exists_of_mem {p : Program} {sections : List Section} (h : p.IsReadFrom sections)
    {d : Definition} (hd : d ∈ p.definitions) :
    (d.name = none ∧ d.parameters = [] ∧ d.statements = []) ∨ ∃ s ∈ sections, s.IsReadAs d := by
  match sections with
  | [] =>
    obtain ⟨hname, hparams, hstatements, hsubs⟩ := h
    rw [definitions, hsubs, List.mem_singleton] at hd
    subst hd
    exact .inl ⟨hname, hparams, hstatements⟩
  | first :: later =>
    obtain ⟨hentry, hsubs⟩ := h
    rcases List.mem_cons.1 hd with rfl | hd
    · exact .inr ⟨first, List.mem_cons_self, hentry⟩
    · obtain ⟨s, hs, hread⟩ := exists_of_mem_forall₂ hsubs.flip hd
      exact .inr ⟨s, List.mem_cons_of_mem _ ((Section.kept_sublist _ _).subset hs), hread⟩

end Program

def Excerpt.LineHolds (e : Excerpt) (s : Span) : Prop := ∃ line ∈ e.lines, line.Holds s

namespace Program

variable {text : String}

theorem lineHolds_of_mem_definitions {d : Definition}
    (hd : d ∈ (parse text).program.definitions) :
    (∀ n ∈ d.name, (Excerpt.whole text).LineHolds n.span) ∧
      (∀ n ∈ d.parameters, (Excerpt.whole text).LineHolds n.span) ∧
      ∀ st ∈ d.statements, ∀ n ∈ st.references, (Excerpt.whole text).LineHolds n.span := by
  obtain ⟨loose, sections, hdiv⟩ := Section.exists_divides (Excerpt.whole text).lines
  rcases (isReadFrom_parse hdiv).exists_of_mem hd with ⟨hname, hparams, hstatements⟩ | ⟨s, hs, h⟩
  · rw [hname, hparams, hstatements]
    exact ⟨fun n hn => (by cases hn), fun n hn => (by cases hn), fun s hs => (by cases hs)⟩
  · have hlines : ∀ l ∈ s.lines, l ∈ (Excerpt.whole text).lines := by
      intro l hl
      rw [hdiv.lines]
      exact List.mem_append_right _ (List.mem_flatMap.2 ⟨s, hs, hl⟩)
    have hheader := hlines s.header List.mem_cons_self
    refine ⟨fun n hn => ⟨_, hheader, h.holds_headerName hn⟩,
      fun n hn => ⟨_, hheader, h.holds_parameter hn⟩, fun st hst n hn => ?_⟩
    obtain ⟨l, hl, hin⟩ := h.exists_standsIn hst
    exact ⟨l, hlines l (List.mem_cons_of_mem _ hl), hin.holds_of_mem hn⟩

theorem isError_of_mem_diagnostics {d : Diagnostic} (h : d ∈ (parse text).diagnostics) :
    d.isError = true := by
  obtain ⟨f, -, rfl⟩ := List.mem_map.1 h
  rfl

/-- A diagnostic holds characters of a line. Only that of a missing entry has no place if there is
no token in any line that lexes. -/
theorem lineHolds_of_mem_diagnostics {d : Diagnostic} (h : d ∈ (parse text).diagnostics) :
    (Excerpt.whole text).LineHolds d.span ∨ d.isMissingEntry ∧ d.span = default ∧
      ∀ line ∈ (Excerpt.whole text).lines, ∀ ts, line.tokens = .ok ts → ts = [] := by
  obtain ⟨f, hf, rfl⟩ := List.mem_map.1 ((diagnostics_perm text).mem_iff.1 h)
  rcases List.mem_append.1 hf with hf | hf
  · obtain ⟨before, line, hl, report, hreport, hf⟩ := (reports_after [] _).exists_isReport hf
    exact .inl ⟨line, hl, hreport.placed line.merges_holds line.placed_holds f hf⟩
  · rw [missingEntry] at hf
    split at hf
    · cases hf
    · rename_i hno
      obtain rfl := List.mem_singleton.1 hf
      cases hfind : ((Excerpt.whole text).lines.map Excerpt.bodyLine).findSome?
          BodyLine.contentSpan? with
      | some span =>
        obtain ⟨b, hb, hspan⟩ := List.exists_of_findSome?_eq_some hfind
        obtain ⟨l, hl, rfl⟩ := List.mem_map.1 hb
        exact .inl ⟨l, hl, Excerpt.holds_of_contentSpan? hspan⟩
      | none =>
        rw [List.findSome?_eq_none_iff, List.forall_mem_map] at hfind
        refine .inr ⟨rfl, rfl, fun line hl ts ht => ?_⟩
        cases ts with
        | nil => rfl
        | cons t ts =>
          have hspan := hfind line hl
          rw [Excerpt.bodyLine_of_cons ht] at hspan
          cases hspan

end Program

end ShapeAssembly
