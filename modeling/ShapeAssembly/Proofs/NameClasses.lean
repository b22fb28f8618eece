import Mathlib.Data.List.Flatten
import ShapeAssembly.Proofs.ClassSpans
import ShapeAssembly.Proofs.Identifiers
import ShapeAssembly.Proofs.Nesting
import ShapeAssembly.Proofs.WholeText

namespace ShapeAssembly

open Token (idents)

theorem perm_append_swap {α : Type} (a b c d : List α) :
    ((a ++ b) ++ (c ++ d)).Perm ((a ++ c) ++ (b ++ d)) := by
  rw [List.append_assoc, List.append_assoc]
  apply List.Perm.append_left
  exact List.perm_append_comm_assoc b c d

namespace Span

def Apart (a b : Span) : Prop := a.stop ≤ b.start ∨ b.stop ≤ a.start

theorem Apart.symm {a b : Span} (h : a.Apart b) : b.Apart a := Or.symm h

/-- One of some spans, with all others apart from it. -/
def IsOneOf (s : Span) (spans : List Span) : Prop :=
  ∃ before after, spans = before ++ s :: after ∧ ∀ other ∈ before ++ after, other.Apart s

theorem isOneOf_of_mem {s : Span} {spans : List Span} (hs : s ∈ spans)
    (hp : spans.Pairwise Apart) : s.IsOneOf spans := by
  obtain ⟨before, after, rfl⟩ := List.append_of_mem hs
  obtain ⟨-, hright, hleft⟩ := List.pairwise_append.1 hp
  refine ⟨before, after, rfl, List.forall_mem_append.2 ⟨fun a ha => ?_, fun a ha => ?_⟩⟩
  · exact hleft a ha s List.mem_cons_self
  · exact (List.rel_of_pairwise_cons hright ha).symm

end Span

namespace Excerpt

theorem inTurn_identifiers (line : Excerpt) :
    Span.InTurn (line.identifiers.map (·.span)) line.span := by
  cases ht : line.tokens with
  | error string =>
    rw [identifiers_of_error ht]
    exact .nil _
  | ok ts =>
    rw [identifiers_of_tokens ht]
    exact (inTurn_tokens ht).sublist (List.filter_sublist.map _)

/-- The identifiers of a text follow one another. -/
theorem pairwise_identifiers (source : Excerpt) :
    ((source.lines.flatMap identifiers).map (·.span)).Pairwise fun a b => a.stop ≤ b.start := by
  rw [List.map_flatMap, List.pairwise_flatMap]
  refine ⟨fun line _ => line.inTurn_identifiers.ordered, ?_⟩
  refine source.pairwise_lines.imp fun hlt a ha b hb => ?_
  have hstop := ((inTurn_identifiers _).within a ha).stop
  have hstart := ((inTurn_identifiers _).within b hb).start
  exact (hstop.trans hlt.le).trans hstart

theorem nonempty_of_mem_identifiers {lines : List Excerpt} {s : Span}
    (hs : s ∈ (lines.flatMap identifiers).map (·.span)) : s.start < s.stop := by
  rw [List.map_flatMap, List.mem_flatMap] at hs
  obtain ⟨line, -, hs⟩ := hs
  exact line.inTurn_identifiers.nonempty s hs

theorem flatMap_identifiers {lines : List Excerpt} {tss : List (List Token)}
    (h : List.Forall₂ (fun l ts => tokens l = .ok ts) lines tss) :
    lines.flatMap identifiers = idents tss.flatten := by
  induction h with
  | nil => rfl
  | cons ht _ ih =>
    rw [List.flatMap_cons, ih, identifiers_of_tokens ht, List.flatten_cons, idents, idents, idents,
      List.filter_append]

theorem idents_filter_isNewline (ts : List Token) :
    idents (ts.filter (!·.isNewline)) = idents ts := by
  rw [idents, List.filter_filter]
  refine List.filter_congr fun t _ => ?_
  rw [Token.isNewline]
  cases t.kind <;> rfl

/-- If a text lexes as a whole, the identifiers of its lines are all of its identifiers. -/
theorem flatMap_identifiers_lines {source : Excerpt} {ts : List Token}
    (h : source.tokens = .ok ts) : source.lines.flatMap identifiers = idents ts := by
  have hlines := lineTokens_eq_filter source
  rw [h] at hlines
  obtain ⟨tss, htss, hflat⟩ := map_eq_ok.1 hlines
  rw [flatMap_identifiers (mapM_eq_ok.1 htss), hflat, idents_filter_isNewline]

/-- A line that is not out of place outside of all blocks has no identifiers. -/
theorem identifiers_of_looseFault? {line : Excerpt} (hf : line.bodyLine.looseFault? = none) :
    line.identifiers = [] := by
  cases ht : line.tokens with
  | error string =>
    rw [bodyLine_of_error ht] at hf
    cases hf
  | ok ts =>
    rw [identifiers_of_tokens ht]
    cases ts with
    | nil => rfl
    | cons t ts =>
      rw [bodyLine_of_cons ht] at hf
      cases hf

def define? (line : Excerpt) : Option Span := line.header?.map (·.define)

theorem filterMap_define? {lines : List Excerpt} (h : ∀ l ∈ lines, l.isHeader = false) :
    lines.filterMap define? = [] := by
  rw [List.filterMap_eq_nil_iff]
  intro l hl
  rw [define?, header?_eq_none (h l hl)]
  rfl

/-- The identifiers of a header without a fault are its `def` and the names that it gives. -/
theorem identifiers_of_opening {line : Excerpt} {o : Opening} {isEntry : Bool}
    {earlier : List String} (ho : Line.ofExcerpt line = .opening o)
    (hname : (o.read isEntry earlier).nameFault? = none)
    (hlist : (o.read isEntry earlier).listFaults = []) :
    ∃ define : Name, line.define? = some define.span ∧
      line.identifiers.map Token.name =
        define :: (line.headerName?.toList ++ line.parameters) := by
  have hc := line.classified_ofExcerpt
  rw [ho] at hc
  cases hc with
  | unreadable => cases hname
  | @readable h hl hh =>
    have hfaults : (h.parameters line).2 = [] := (List.append_eq_nil_iff.1 hlist).1
    rw [Header.faults_parameters, Option.toList_eq_nil_iff] at hfaults
    obtain ⟨text, hidents⟩ := identifiers_of_listFault? hh hfaults
    refine ⟨⟨text, h.define⟩, ?_, hidents⟩
    rw [define?, hh]
    rfl

end Excerpt

namespace Definition

/-- The names in the header of a definition and the variables in its statements. -/
def classNames (d : Definition) : List Name := d.headerNames ++ d.statements.flatMap (·.references)

def otherNames (d : Definition) : List Name := d.statements.flatMap (·.otherNames)

def identNames (d : Definition) : List Name := d.headerNames ++ d.statements.flatMap (·.identNames)

theorem identNames_perm {d : Definition}
    (h : ∀ s ∈ d.statements, ∀ a ∈ s.arguments, a.kind.InStatement) :
    d.identNames.Perm (d.classNames ++ d.otherNames) := by
  have hstatements := List.Perm.flatMap_left d.statements fun s hs =>
    Statement.identNames_perm (h s hs)
  rw [identNames, classNames, otherNames, List.append_assoc]
  apply List.Perm.append_left
  exact hstatements.trans (List.flatMap_append_perm _ _ _).symm

end Definition

/-- The spans of the three classes are those of the names of the definitions. -/
theorem ParseResult.classSpans_perm (r : ParseResult) :
    ((r.program.definitions.flatMap (·.classNames)).map (·.span)).Perm
      (r.nameSpans ++ r.parameterSpans ++ r.variableSpans) := by
  have hclass : ∀ d : Definition, d.classNames.map (·.span) =
      ((d.name.map (·.span)).toList ++ d.parameters.map (·.span)) ++
        d.statements.flatMap fun s => s.references.map (·.span) := by
    intro d
    rw [Definition.classNames, Definition.headerNames, List.map_append, List.map_append,
      List.map_flatMap, Option.toList_map]
  rw [List.map_flatMap, List.flatMap_congr fun d _ => hclass d, nameSpans,
    List.filterMap_eq_flatMap_toList]
  refine (List.flatMap_append_perm _ _ _).symm.trans ?_
  apply List.Perm.append_right
  exact (List.flatMap_append_perm _ _ _).symm

namespace Section

variable {s : Section} {d : Definition} {b : Block} {sections : List Section}
  {definitions : List Definition} {blocks : List Block}

/-- The names of a definition are identifiers of its lines, in their order. -/
theorem IsReadAs.sublist (h : s.IsReadAs d) :
    d.classNames.Sublist ((s.lines.flatMap Excerpt.identifiers).map Token.name) := by
  rw [Definition.classNames, Definition.headerNames, h.name, h.parameters, h.statements, outcomes,
    ← BodyLine.statements_readAll, lines, List.flatMap_cons, List.map_append]
  exact s.header.headerNames_sublist.append (BodyLine.references_sublist _ _)

theorem classNames_sublist (h : List.Forall₂ IsReadAs sections definitions) :
    (definitions.flatMap (·.classNames)).Sublist
      (((sections.flatMap lines).flatMap Excerpt.identifiers).map Token.name) := by
  induction h with
  | nil => exact .slnil
  | cons hd _ ih =>
    rw [List.flatMap_cons, List.flatMap_cons, List.flatMap_append, List.map_append]
    exact hd.sublist.append ih

/-- The identifiers of a section are its `def` and the names of a definition. -/
structure IsReadWhole (s : Section) (d : Definition) : Prop where
  idents : ∃ define : Name, s.header.define? = some define.span ∧
    (s.lines.flatMap Excerpt.identifiers).map Token.name = define :: d.identNames
  inStatement : ∀ st ∈ d.statements, ∀ a ∈ st.arguments, a.kind.InStatement

/-- A block without a fault leaves out nothing. -/
theorem IsBlock.isReadWhole (h : s.IsBlock b) {isEntry : Bool} {earlier : List String}
    (hf : (b.read isEntry earlier).faults = []) :
    s.IsReadWhole (b.read isEntry earlier).definition ∧
      (b.read isEntry earlier).named = true := by
  obtain ⟨hheading, hbody⟩ := List.append_eq_nil_iff.1 hf
  obtain ⟨hname, hlist⟩ := List.append_eq_nil_iff.1 hheading
  have hname := Option.toList_eq_nil_iff.1 hname
  refine ⟨?_, Block.named_eq_true.2 hname⟩
  have hread := h.isReadAs isEntry earlier
  obtain ⟨-, -, hscope, -⟩ := Excerpt.read_opening h.opening isEntry earlier
  have hstatements : (b.read isEntry earlier).definition.statements =
      BodyLine.statements s.header.headerScope (s.body.map Excerpt.bodyLine) := by
    rw [← hscope, ← h.body]
    rfl
  rw [hscope, h.body] at hbody
  obtain ⟨hidents, hkinds⟩ := BodyLine.identNames_eq _ hbody
  rw [← hstatements] at hidents hkinds
  obtain ⟨define, hdefine, hheader⟩ := Excerpt.identifiers_of_opening h.opening hname hlist
  refine ⟨⟨define, hdefine, ?_⟩, hkinds⟩
  rw [lines, List.flatMap_cons, List.map_append, hheader, hidents, Definition.identNames,
    Definition.headerNames, hread.name, hread.parameters]
  rfl

/-- Blocks without a fault are all kept. -/
theorem isReadWhole_readLater (h : List.Forall₂ IsBlock sections blocks) {earlier : List String}
    (hf : (Block.readLater earlier blocks).2 = []) :
    List.Forall₂ IsReadWhole sections (Block.readLater earlier blocks).1 := by
  induction h generalizing earlier with
  | nil => exact .nil
  | @cons s b sections blocks hb _ ih =>
    rw [Block.readLater_cons] at hf ⊢
    obtain ⟨hfirst, hrest⟩ := List.append_eq_nil_iff.1 hf
    obtain ⟨hread, hnamed⟩ := hb.isReadWhole hfirst
    rw [if_pos hnamed]
    exact .cons hread (ih hrest)

/-- The identifiers of a section are the names in the classes, its `def` and the others. -/
theorem IsReadWhole.perm (h : s.IsReadWhole d) :
    ((s.lines.flatMap Excerpt.identifiers).map (·.span)).Perm
      (d.classNames.map (·.span) ++ (s.header.define?.toList ++ d.otherNames.map (·.span))) := by
  obtain ⟨define, hdefine, hidents⟩ := h.idents
  have hspans := congrArg (List.map (·.span)) hidents
  rw [List.map_map, List.map_cons] at hspans
  have hnames := ((Definition.identNames_perm h.inStatement).map (·.span)).cons define.span
  rw [List.map_append] at hnames
  rw [hdefine]
  refine (List.Perm.of_eq hspans).trans (hnames.trans ?_)
  exact List.perm_middle.symm

theorem identifiers_perm (h : List.Forall₂ IsReadWhole sections definitions) :
    (((sections.flatMap lines).flatMap Excerpt.identifiers).map (·.span)).Perm
      ((definitions.flatMap (·.classNames)).map (·.span) ++
        (sections.filterMap (·.header.define?) ++
          (definitions.flatMap (·.otherNames)).map (·.span))) := by
  induction h with
  | nil => exact .refl _
  | cons hd _ ih =>
    rw [filterMap_cons_toList]
    simp only [List.flatMap_cons, List.flatMap_append, List.map_append]
    refine (hd.perm.append ih).trans ((perm_append_swap _ _ _ _).trans ?_)
    apply List.Perm.append_left
    exact perm_append_swap _ _ _ _

/-- Only the headers have a `def`. -/
theorem Divides.filterMap_define? {lines loose : List Excerpt} (h : Divides lines loose sections) :
    lines.filterMap Excerpt.define? = sections.filterMap (·.header.define?) := by
  rw [h.lines, List.filterMap_append, Excerpt.filterMap_define? h.loose, List.nil_append,
    List.filterMap_flatMap, List.filterMap_eq_flatMap_toList]
  refine List.flatMap_congr fun s hs => ?_
  rw [Section.lines, filterMap_cons_toList, Excerpt.filterMap_define? (h.body s hs),
    List.append_nil]

end Section

/-- The `def` of a header, the keyword of a statement, or a literal in its list. -/
inductive Token.IsOther (text : String) (t : Token) : Prop
  | define {line : Excerpt} {h : Header} (hl : line ∈ (Excerpt.whole text).lines)
    (hh : line.header? = some h) (ht : t.span = h.define) : IsOther text t
  | keyword {d : Definition} {s : Statement} (hd : d ∈ (Program.parse text).program.definitions)
    (hs : s ∈ d.statements) (ht : t.span = s.keyword.span) : IsOther text t
  | literal {d : Definition} {s : Statement} {a : Argument}
    (hd : d ∈ (Program.parse text).program.definitions) (hs : s ∈ d.statements)
    (ha : a ∈ s.arguments) (hk : a.kind = .bool ∨ a.kind = .axis ∨ a.kind = .face)
    (ht : t.span = a.raw.span) : IsOther text t

namespace Program

open Section (IsReadAs IsReadWhole)

variable {p : Program} {sections : List Section} {text : String}

theorem IsReadFrom.classNames_sublist (h : p.IsReadFrom sections) :
    (p.definitions.flatMap (·.classNames)).Sublist
      (((sections.flatMap Section.lines).flatMap Excerpt.identifiers).map Token.name) := by
  cases sections with
  | nil =>
    obtain ⟨hname, hparams, hstatements, hsubs⟩ := h
    rw [definitions, hsubs, List.flatMap_singleton, Definition.classNames, Definition.headerNames,
      hname, hparams, hstatements]
    exact List.nil_sublist _
  | cons first later =>
    have hall : List.Forall₂ IsReadAs (first :: Section.kept [first] later) p.definitions :=
      .cons h.1 h.2
    have hkept := ((Section.kept_sublist [first] later).cons_cons first).flatMap Section.lines
    exact (Section.classNames_sublist hall).trans ((hkept.flatMap Excerpt.identifiers).map _)

/-- The spans of the classes are spans of identifiers of the text. -/
theorem exists_classSpans_perm (text : String) :
    let r := parse text
    ∃ spans : List Span,
      spans.Sublist (((Excerpt.whole text).lines.flatMap Excerpt.identifiers).map (·.span)) ∧
      spans.Perm (r.nameSpans ++ r.parameterSpans ++ r.variableSpans) := by
  intro r
  obtain ⟨loose, sections, hdiv⟩ := Section.exists_divides (Excerpt.whole text).lines
  have hnames := (isReadFrom_parse hdiv).classNames_sublist.map (·.span)
  rw [List.map_map] at hnames
  refine ⟨_, hnames.trans ?_, r.classSpans_perm⟩
  rw [hdiv.lines, List.flatMap_append, List.map_append]
  exact List.sublist_append_right _ _

def otherSpans (p : Program) (lines : List Excerpt) : List Span :=
  lines.filterMap Excerpt.define? ++ (p.definitions.flatMap (·.otherNames)).map (·.span)

theorem isReadWhole_readBlocks {blocks : List Block} {loose : List BodyLine}
    (h : List.Forall₂ Section.IsBlock sections blocks) (hf : (readBlocks loose blocks).2 = []) :
    List.Forall₂ IsReadWhole sections (readBlocks loose blocks).1.definitions := by
  cases h with
  | nil => cases hf
  | @cons s b sections blocks hb hall =>
    obtain ⟨hfirst, hlater⟩ := List.append_eq_nil_iff.1 hf
    exact .cons (hb.isReadWhole hfirst).1 (Section.isReadWhole_readLater hall hlater)

theorem mem_otherSpans {t : Token} :
    t.span ∈ (parse text).program.otherSpans (Excerpt.whole text).lines ↔ t.IsOther text := by
  simp only [otherSpans, List.mem_append, List.mem_filterMap, List.mem_map, List.mem_flatMap,
    Definition.otherNames, Statement.otherNames, Statement.literals, List.mem_cons,
    List.mem_filter, Excerpt.define?, Option.map_eq_some_iff]
  constructor
  · rintro (⟨line, hl, h, hh, ht⟩ | ⟨n, ⟨d, hd, s, hs, rfl | ⟨a, ⟨ha, hk⟩, rfl⟩⟩, ht⟩)
    · exact .define hl hh ht.symm
    · exact .keyword hd hs ht.symm
    · exact .literal hd hs ha (Kind.isLiteral_iff.1 hk) ht.symm
  · rintro (⟨hl, hh, ht⟩ | ⟨hd, hs, ht⟩ | ⟨hd, hs, ha, hk, ht⟩)
    · exact .inl ⟨_, hl, _, hh, ht.symm⟩
    · exact .inr ⟨_, ⟨_, hd, _, hs, .inl rfl⟩, ht.symm⟩
    · exact .inr ⟨_, ⟨_, hd, _, hs, .inr ⟨_, ⟨ha, Kind.isLiteral_iff.2 hk⟩, rfl⟩⟩, ht.symm⟩

/-- Without a diagnostic every identifier of the text is in one of the classes or one of the
others. -/
theorem identifiers_perm (h : (parse text).diagnostics = []) :
    let r := parse text
    let lines := (Excerpt.whole text).lines
    ((lines.flatMap Excerpt.identifiers).map (·.span)).Perm
      ((r.nameSpans ++ r.parameterSpans ++ r.variableSpans) ++ r.program.otherSpans lines) := by
  intro r lines
  obtain ⟨loose, sections, hdiv⟩ := Section.exists_divides lines
  obtain ⟨blocks, hgroup, hall, hp⟩ := exists_blocks hdiv
  have hfaults := diagnostics_eq_nil.1 h
  rw [ofLines_faults_eq_nil, hgroup, ← BodyLine.looseFaults_eq_nil] at hfaults
  obtain ⟨hloose, hblocks⟩ := hfaults
  have hnone : loose.flatMap Excerpt.identifiers = [] := by
    rw [List.flatMap_eq_nil_iff]
    intro line hl
    rw [List.filterMap_eq_nil_iff, List.forall_mem_map] at hloose
    exact Excerpt.identifiers_of_looseFault? (hloose line hl)
  have hread := Section.identifiers_perm (isReadWhole_readBlocks hall hblocks)
  rw [← hp, ← hdiv.filterMap_define?] at hread
  rw [hdiv.lines, List.flatMap_append, hnone, List.nil_append, ← hdiv.lines]
  exact hread.trans (r.classSpans_perm.append_right _)

/-- A text for which nothing is reported lexes as a whole. -/
theorem exists_tokens_of_diagnostics (h : (parse text).diagnostics = []) :
    ∃ ts, (Excerpt.whole text).tokens = .ok ts := by
  obtain ⟨-, ls, hcontent, -⟩ := isTextOf_parse h
  have hlines := Excerpt.lineTokens_eq_filter (.whole text)
  cases ht : (Excerpt.whole text).tokens with
  | ok ts => exact ⟨ts, rfl⟩
  | error string =>
    rw [ht] at hlines
    obtain ⟨before, line, after, hl, -, hline⟩ := mapM_eq_error.1 (map_eq_error.1 hlines)
    have hnone : none ∈ (Excerpt.whole text).content := by
      rw [Excerpt.content, hl, List.mem_filter]
      refine ⟨List.mem_map.2 ⟨line, List.mem_append_right _ List.mem_cons_self, ?_⟩, rfl⟩
      rw [Excerpt.words?, hline]
      rfl
    rw [hcontent] at hnone
    obtain ⟨ws, -, hws⟩ := List.mem_map.1 hnone
    cases hws

/-- The spans of the names of definitions, of parameters and of variables are apart from one
another, and each is that of one identifier of the text. If nothing is reported, every identifier
is one of them, but for the `def` of the headers, the keywords and the literals, and these are apart
from all of them. -/
theorem name_classes (text : String) :
    let source := Excerpt.whole text
    let r := parse text
    let classes := r.nameSpans ++ r.parameterSpans ++ r.variableSpans
    let identifiers := source.lines.flatMap Excerpt.identifiers
    (∀ ts, source.tokens = .ok ts → identifiers = idents ts) ∧
      classes.Pairwise Span.Apart ∧
      (∀ s ∈ classes, s.start < s.stop ∧ s.IsOneOf (identifiers.map (·.span))) ∧
      (r.diagnostics = [] → (∃ ts, source.tokens = .ok ts) ∧ ∀ t ∈ identifiers,
        (¬ t.IsOther text → t.span.IsOneOf classes) ∧
          (t.IsOther text → ∀ s ∈ classes, s.Apart t.span)) := by
  intro source r classes identifiers
  obtain ⟨spans, hsub, hperm⟩ := exists_classSpans_perm text
  have hidents : (identifiers.map (·.span)).Pairwise Span.Apart :=
    source.pairwise_identifiers.imp .inl
  have hclasses : classes.Pairwise Span.Apart :=
    hperm.pairwise (hidents.sublist hsub) Span.Apart.symm
  refine ⟨fun ts ht => Excerpt.flatMap_identifiers_lines ht, hclasses, fun s hs => ?_,
    fun hd => ⟨exists_tokens_of_diagnostics hd, fun t ht => ?_⟩⟩
  · have hmem := hsub.subset (hperm.mem_iff.2 hs)
    exact ⟨Excerpt.nonempty_of_mem_identifiers hmem, Span.isOneOf_of_mem hmem hidents⟩
  · have hall := identifiers_perm hd
    obtain ⟨-, -, hothers⟩ := List.pairwise_append.1 (hall.pairwise hidents Span.Apart.symm)
    have hmem := List.mem_append.1 (hall.mem_iff.1 (List.mem_map_of_mem ht))
    refine ⟨fun hno => ?_, fun ho s hs => hothers s hs _ (mem_otherSpans.2 ho)⟩
    exact Span.isOneOf_of_mem (hmem.resolve_right fun ho => hno (mem_otherSpans.1 ho)) hclasses

/-- In the list of `reflect` the first `X` is a variable and the second one an axis. -/
theorem name_classes_axis :
    let text := "def X():\n    X = Cuboid(1, 1, 1)\n    reflect(X, X)"
    let r := parse text
    let classes := r.nameSpans ++ r.parameterSpans ++ r.variableSpans
    r.diagnostics = [] ∧ Span.IsOneOf ⟨45, 46⟩ classes ∧ ∀ s ∈ classes, s.Apart ⟨48, 49⟩ := by
  intro text r classes
  have hd : r.diagnostics = [] := by decide +kernel
  obtain ⟨-, -, -, h⟩ := name_classes text
  obtain ⟨-, hall⟩ := h hd
  obtain ⟨hvariable, -⟩ := hall ⟨.ident, "X", ⟨45, 46⟩⟩ (by decide +kernel)
  obtain ⟨-, haxis⟩ := hall ⟨.ident, "X", ⟨48, 49⟩⟩ (by decide +kernel)
  refine ⟨hd, hvariable fun ho => ?_, haxis (mem_otherSpans.1 (by decide +kernel))⟩
  exact absurd (mem_otherSpans.2 ho) (by decide +kernel)

end Program

end ShapeAssembly
