import ShapeAssembly.Proofs.LineDiagnostics
import ShapeAssembly.Proofs.StatementPlaces

namespace ShapeAssembly

namespace Definition

def headerNames (d : Definition) : List Name := d.name.toList ++ d.parameters

def parts (d : Definition) : List Span :=
  d.headerNames.map (·.span) ++ d.statements.map (·.span)

/-- The names in a definition are the text at their places, its parts follow one another in its
place, and so do the parts of its statements. -/
structure IsFaithful (source : Excerpt) (d : Definition) : Prop where
  header : ∀ n ∈ d.headerNames, source.Shows n
  parts : Span.InTurn d.parts d.span
  statements : ∀ s ∈ d.statements, s.IsFaithful source
  within : d.span.Within source.span

end Definition

namespace Span

theorem within_merge_left {a : Span} (b : Span) (h : a.start ≤ a.stop) : a.Within (a.merge b) :=
  ⟨min_le_left _ _, h, le_max_left _ _⟩

theorem within_merge_right (a : Span) {b : Span} (h : b.start ≤ b.stop) : b.Within (a.merge b) :=
  ⟨min_le_right _ _, h, le_max_right _ _⟩

theorem Within.refl {s : Span} (h : s.start ≤ s.stop) : s.Within s :=
  ⟨Nat.le_refl _, h, Nat.le_refl _⟩

end Span

namespace Definition

/-- A definition covers its header and its statements. -/
theorem within_withStatements {d : Definition} (hd : d.span.start ≤ d.span.stop)
    {ss : List Statement} (hs : ∀ s ∈ ss, s.span.start ≤ s.span.stop) :
    d.span.Within (d.withStatements ss).span ∧
      ∀ s ∈ ss, s.span.Within (d.withStatements ss).span := by
  rw [withStatements]
  generalize d.span = span at hd
  induction ss generalizing span with
  | nil => exact ⟨.refl hd, fun s hs => (by cases hs)⟩
  | cons s ss ih =>
    obtain ⟨hfirst, hrest⟩ := List.forall_mem_cons.1 hs
    have hleft := Span.within_merge_left s.span hd
    have hright := Span.within_merge_right span hfirst
    obtain ⟨hspan, hall⟩ := ih hrest _ (hleft.start.trans (hd.trans hleft.stop))
    exact ⟨hleft.trans hspan, List.forall_mem_cons.2 ⟨hright.trans hspan, hall⟩⟩

end Definition

/-- What a header line is read as stands in the line. -/
theorem Opening.showsInTurn_read {line : Excerpt} {o : Opening}
    (ho : Line.ofExcerpt line = .opening o) (isEntry : Bool) (earlier : List String) :
    line.ShowsInTurn (o.read isEntry earlier).definition.headerNames
        (o.read isEntry earlier).definition.span ∧
      line.Holds (o.read isEntry earlier).definition.span := by
  have hc := line.classified_ofExcerpt
  rw [ho] at hc
  cases hc with
  | unreadable hl ht =>
    have hplaced := line.placed_holds
    rw [ht] at hplaced
    refine ⟨⟨fun n hn => (by cases hn), .nil _⟩, ?_⟩
    -- the line has at least the characters of the open string
    have hlt := hplaced.within.start.trans_lt (hplaced.nonempty.trans_le hplaced.within.stop)
    exact ⟨⟨[], line.chars, rfl, rfl⟩, ⟨line.chars, [], (List.append_nil _).symm, rfl⟩, hlt⟩
  | @readable h hl hh =>
    obtain ⟨ts, ht, hts⟩ := Excerpt.exists_tokens_of_header? hh
    obtain ⟨hsub, hspan⟩ := Header.sublist_of_ofTokens? hts
    cases ts with
    | nil => cases hts
    | cons t ts =>
      have hnames := ((h.sublist_parameters line).append_left h.name.toList).trans hsub
      rw [Opening.read_readable]
      dsimp only
      rw [hspan]
      exact Excerpt.showsInTurn_of_sublist ht hnames

theorem pairwise_of_forall₂ {α β : Type} {R : α → β → Prop} {S : α → α → Prop} {T : β → β → Prop}
    (hT : ∀ a b x y, S a b → R a x → R b y → T x y) {as : List α} {xs : List β}
    (h : List.Forall₂ R as xs) (hs : as.Pairwise S) : xs.Pairwise T := by
  induction h with
  | nil => exact .nil
  | @cons a x as xs hr hall ih =>
    rw [List.pairwise_cons] at hs ⊢
    refine ⟨fun y hy => ?_, ih hs.2⟩
    obtain ⟨b, hb, hby⟩ := exists_of_mem_forall₂ hall.flip hy
    exact hT a b x y (hs.1 b hb) hr hby

namespace Section

structure IsBelow (source : Excerpt) (lines : List Excerpt) : Prop where
  part : ∀ l ∈ lines, l.IsPart source
  newline : ∀ l ∈ lines, '\n' ∉ l.chars
  pairwise : lines.Pairwise fun a b => a.span.stop < b.start

theorem isBelow_lines (source : Excerpt) : IsBelow source source.lines :=
  ⟨fun _ hl => Excerpt.isPart_of_mem_lines hl, source.lines_eq_layOut.2, source.pairwise_lines⟩

theorem IsBelow.sublist {source : Excerpt} {lines more : List Excerpt} (h : IsBelow source lines)
    (hs : more.Sublist lines) : IsBelow source more :=
  ⟨fun l hl => h.part l (hs.subset hl), fun l hl => h.newline l (hs.subset hl),
    h.pairwise.sublist hs⟩

structure Covers (source : Excerpt) (s : Section) (d : Definition) : Prop where
  faithful : d.IsFaithful source
  start : s.header.start ≤ d.span.start
  stop : ∀ offset, (∀ l ∈ s.lines, l.span.stop < offset) → d.span.stop < offset

theorem IsBlock.covers {source : Excerpt} {s : Section} {b : Block} (h : s.IsBlock b)
    (hl : IsBelow source s.lines) (isEntry : Bool) (earlier : List String) :
    s.Covers source (b.read isEntry earlier).definition := by
  obtain ⟨hshow, hhead⟩ := Opening.showsInTurn_read h.opening isEntry earlier
  have hread : (b.read isEntry earlier).definition =
      (b.opening.read isEntry earlier).definition.withStatements
        (BodyLine.statements (b.opening.read isEntry earlier).scope b.body) := rfl
  rw [hread, h.body]
  obtain ⟨chosen, hsub, hall⟩ :=
    BodyLine.exists_standsIn (b.opening.read isEntry earlier).scope s.body
  generalize (b.opening.read isEntry earlier).definition = d at *
  generalize BodyLine.statements _ _ = ss at *
  obtain ⟨hparts, hbelow⟩ := List.forall_mem_cons.1 hl.part
  obtain ⟨-, hnewlines⟩ := List.forall_mem_cons.1 hl.newline
  obtain ⟨hlow, hpairwise⟩ := List.pairwise_cons.1 hl.pairwise
  have hstands : ∀ st ∈ ss, ∃ l ∈ s.body, st.StandsIn l := by
    intro st hst
    obtain ⟨l, hmem, hin⟩ := exists_of_mem_forall₂ hall.flip hst
    exact ⟨l, hsub.subset hmem, hin⟩
  -- what holds of the header and of the lines of the statements holds of the whole
  have hspan : ∀ {P : Span → Prop}, Span.Merges P → P d.span →
      (∀ l ∈ s.body, ∀ x, l.Holds x → P x) → P (d.withStatements ss).span := by
    intro P hP hd hbody
    refine Definition.span_withStatements hP hd fun st hst => ?_
    obtain ⟨l, hmem, hin⟩ := hstands st hst
    exact hbody l hmem _ hin.holds
  have hordered : ∀ st ∈ ss, st.span.start < st.span.stop := by
    intro st hst
    obtain ⟨l, -, hin⟩ := hstands st hst
    exact hin.holds.nonempty
  obtain ⟨hcover, hcovers⟩ := Definition.within_withStatements hhead.nonempty.le
    fun st hst => (hordered st hst).le
  have hholds : source.Holds (d.withStatements ss).span :=
    hspan source.merges_holds (hhead.of_isPart hparts) fun l hmem x hx =>
      hx.of_isPart (hbelow l hmem)
  refine ⟨⟨?_, ?_, ?_, hholds.within⟩, ?_, ?_⟩
  · exact fun n hn => (hshow.of_isPart hparts).shows n hn
  · refine (hshow.inTurn.mono fun x hx => (hshow.inTurn.within x hx).trans hcover).append
      ⟨List.forall_mem_map.2 hcovers, List.forall_mem_map.2 hordered, ?_⟩ ?_
    · rw [List.pairwise_map]
      refine pairwise_of_forall₂ (fun a b x y hab hx hy => ?_) hall (hpairwise.sublist hsub)
      exact (hx.holds.within.stop.trans_lt hab).le.trans hy.holds.within.start
    · intro x hx y hy
      obtain ⟨st, hst, rfl⟩ := List.mem_map.1 hy
      obtain ⟨l, hmem, hin⟩ := hstands st hst
      have hstop := (hshow.inTurn.within x hx).stop.trans hhead.within.stop
      exact (hstop.trans_lt (hlow l hmem)).le.trans hin.holds.within.start
  · intro st hst
    obtain ⟨l, hmem, hin⟩ := hstands st hst
    exact hin.isFaithful (hbelow l hmem) (hnewlines l hmem)
  · apply hspan (P := fun x => s.header.start ≤ x.start) (fun a b ha hb => le_min ha hb)
      hhead.within.start
    exact fun l hmem x hx =>
      ((Nat.le_add_right _ _).trans (hlow l hmem).le).trans hx.within.start
  · intro offset hoffset
    obtain ⟨hfirst, hrest⟩ := List.forall_mem_cons.1 hoffset
    apply hspan (P := fun x => x.stop < offset) (fun a b ha hb => max_lt ha hb)
      (hhead.within.stop.trans_lt hfirst)
    exact fun l hmem x hx => hx.within.stop.trans_lt (hrest l hmem)

/-- The definitions of the blocks after the entry are read from some of the sections. -/
theorem exists_sublist_readLater {R : Section → Definition → Prop} {sections : List Section}
    {blocks : List Block} (h : List.Forall₂ IsBlock sections blocks)
    (hR : ∀ s ∈ sections, ∀ b, s.IsBlock b → ∀ earlier, R s (b.read false earlier).definition)
    (earlier : List String) :
    ∃ chosen, chosen.Sublist sections ∧
      List.Forall₂ R chosen (Block.readLater earlier blocks).1 := by
  induction h generalizing earlier with
  | nil => exact ⟨[], .slnil, .nil⟩
  | @cons s b sections blocks hb hall ih =>
    obtain ⟨hfirst, hrest⟩ := List.forall_mem_cons.1 hR
    obtain ⟨chosen, hsub, hchosen⟩ := ih hrest (b.opening.nameText?.toList ++ earlier)
    rw [Block.readLater_cons]
    split
    · exact ⟨s :: chosen, hsub.cons_cons s, .cons (hfirst b hb earlier) hchosen⟩
    · exact ⟨chosen, hsub.cons s, hchosen⟩

end Section

namespace Program

theorem exists_sublist_definitions {R : Section → Definition → Prop} {sections : List Section}
    {blocks : List Block} (h : List.Forall₂ Section.IsBlock sections blocks) (hne : blocks ≠ [])
    (hR : ∀ s ∈ sections, ∀ b, s.IsBlock b → ∀ isEntry earlier,
      R s (b.read isEntry earlier).definition) (loose : List BodyLine) :
    ∃ chosen, chosen.Sublist sections ∧
      List.Forall₂ R chosen (readBlocks loose blocks).1.definitions := by
  cases h with
  | nil => exact absurd rfl hne
  | @cons s b sections blocks hb hall =>
    obtain ⟨hfirst, hrest⟩ := List.forall_mem_cons.1 hR
    obtain ⟨chosen, hsub, hchosen⟩ := Section.exists_sublist_readLater hall
      (fun s hs b hb => hrest s hs b hb false) b.opening.nameText?.toList
    exact ⟨s :: chosen, hsub.cons_cons s, .cons (hfirst b hb true []) hchosen⟩

theorem isFaithful_empty {source : Excerpt} {offset : Nat} (h : source.IsBoundary offset) :
    (Definition.empty ⟨offset, offset⟩).IsFaithful source :=
  ⟨fun n hn => (by cases hn), .nil _, fun s hs => (by cases hs),
    ⟨h.within.1, Nat.le_refl _, h.within.2⟩⟩

/-- The program of a text is the text: every name in it is what stands at its place, the parts of
statements and definitions follow one another in them, and so do the definitions in the text. -/
theorem faithful_parse (text : String) :
    let source := Excerpt.whole text
    let p := (parse text).program
    (∀ d ∈ p.definitions, d.IsFaithful source) ∧
      (p.definitions.map (·.span)).Pairwise fun a b => a.stop < b.start := by
  intro source p
  obtain ⟨loose, sections, hdiv⟩ := Section.exists_divides source.lines
  obtain ⟨blocks, hgroup, hall⟩ := hdiv.group
  have hp : p = (readBlocks (loose.map Excerpt.bodyLine) blocks).1 := by
    show (parse text).program = _
    rw [parse, ofLines, hgroup]
  have hbelow := Section.isBelow_lines source
  rw [hdiv.lines] at hbelow
  by_cases hne : blocks = []
  · subst hne
    rw [hp]
    refine ⟨List.forall_mem_singleton.2 (isFaithful_empty ?_), List.pairwise_singleton _ _⟩
    cases hfind : (loose.map Excerpt.bodyLine).findSome? BodyLine.contentSpan? with
    | none => exact ⟨[], source.chars, rfl, rfl⟩
    | some span =>
      obtain ⟨b, hb, hspan⟩ := List.exists_of_findSome?_eq_some hfind
      obtain ⟨l, hl, rfl⟩ := List.mem_map.1 hb
      exact (Excerpt.holds_of_contentSpan? hspan).start.of_isPart
        (hbelow.part l (List.mem_append_left _ hl))
  · have hsections := hbelow.sublist (List.sublist_append_right loose _)
    have hcovers : ∀ s ∈ sections, ∀ b, s.IsBlock b → ∀ isEntry earlier,
        s.Covers source (b.read isEntry earlier).definition := fun s hs b hb =>
      hb.covers (hsections.sublist (List.sublist_flatten_of_mem (List.mem_map_of_mem hs)))
    obtain ⟨chosen, hsub, hchosen⟩ :=
      exists_sublist_definitions hall hne hcovers (loose.map Excerpt.bodyLine)
    rw [hp, List.pairwise_map]
    refine ⟨fun d hd => ?_, pairwise_of_forall₂ (fun s s' d d' hlt hd hd' => ?_) hchosen
      ((List.pairwise_flatMap.1 hsections.pairwise).2.sublist hsub)⟩
    · obtain ⟨s, -, hs⟩ := exists_of_mem_forall₂ hchosen.flip hd
      exact hs.faithful
    · have hstop := hd.stop s'.header.start fun l hl => hlt l hl s'.header List.mem_cons_self
      exact hstop.trans_le hd'.start

end Program

end ShapeAssembly
