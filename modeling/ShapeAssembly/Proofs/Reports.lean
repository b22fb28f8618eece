import ShapeAssembly.Proofs.Contexts
import ShapeAssembly.Proofs.Places

namespace ShapeAssembly

/-- The names in a list that stand there or among some others before. -/
def repeatedNames (earlier : List String) : List Name → List Name
  | [] => []
  | n :: rest => (if n.val ∈ earlier then [n] else []) ++ repeatedNames (earlier ++ [n.val]) rest

theorem mem_of_mem_repeatedNames {earlier : List String} {names : List Name} {n : Name}
    (h : n ∈ repeatedNames earlier names) : n ∈ names := by
  induction names generalizing earlier with
  | nil => exact h
  | cons m rest ih =>
    rw [repeatedNames, List.mem_append] at h
    rcases h with h | h
    · split at h
      · exact List.mem_cons.2 (.inl (List.mem_singleton.1 h))
      · cases h
    · exact List.mem_cons_of_mem m (ih h)

def Fault.duplicate (n : Name) : Fault := ⟨.duplicateDefinition n.val, n.span⟩

namespace Scope

/-- Binding names raises one fault for each that is repeated. -/
theorem faults_defineAll {scope : Scope} (origin : Origin) {earlier : List String}
    (he : ∀ x, x ∈ scope.names ↔ x ∈ earlier) (names : List Name) :
    (scope.defineAll origin names).2 = (repeatedNames earlier names).map .duplicate := by
  induction names generalizing scope earlier with
  | nil => rfl
  | cons n rest ih =>
    rw [defineAll, repeatedNames]
    rcases define_eq scope n origin with ⟨hmem, h⟩ | ⟨hfree, h⟩
    · have hsame : ∀ x, x ∈ scope.names ↔ x ∈ earlier ++ [n.val] := by
        intro x
        rw [he, List.mem_append, List.mem_singleton]
        exact ⟨.inl, fun h => h.elim id fun hx => by rwa [hx, ← he]⟩
      simp only [h, ih hsame]
      rw [if_pos ((he _).1 hmem)]
      rfl
    · have hmore : ∀ x, x ∈ (Scope.mk (scope.bindings ++ [⟨n, origin⟩])).names ↔
          x ∈ earlier ++ [n.val] := by
        intro x
        rw [names_append, List.mem_append, List.mem_append, he]
      simp only [h, ih hmore]
      rw [if_neg fun hmem => hfree ((he _).2 hmem)]
      rfl

end Scope

namespace Header

def listFault? (source : Excerpt) (h : Header) : Option Fault :=
  match h.readParameters source with
  | .ok _ => none
  | .error fault => some fault

theorem faults_parameters (source : Excerpt) (h : Header) :
    (h.parameters source).2 = (h.listFault? source).toList := by
  rw [parameters, listFault?]
  cases h.readParameters source <;> rfl

theorem nameFault?_congr {isEntry : Bool} {earlier earlier' : List String} (h : Header)
    (he : ∀ n, n ∈ earlier ↔ n ∈ earlier') :
    h.nameFault? isEntry earlier = h.nameFault? isEntry earlier' := by
  rw [nameFault?, nameFault?]
  simp only [List.contains_iff_mem, he]

end Header

/-- What is reported for a line that comes after others. -/
inductive IsReport (before : List Excerpt) (line : Excerpt) : List Fault → Prop
  | unreadable {string : UnterminatedString} (ht : line.tokens = .error string) :
    IsReport before line [string.fault]
  | blank (ht : line.tokens = .ok []) : IsReport before line []
  | loose {t : Token} {ts : List Token} (ht : line.tokens = .ok (t :: ts))
    (hl : line.isHeader = false) (hb : ∀ l ∈ before, l.isHeader = false) :
    IsReport before line [.ofStructure .outsideBlock (t.reach ts)]
  | statement {t : Token} {ts : List Token} {scope : Scope} (ht : line.tokens = .ok (t :: ts))
    (hl : line.isHeader = false) (hb : ∃ l ∈ before, l.isHeader)
    (hs : (Context.after before).scope? = some scope) :
    IsReport before line (Statement.parse line scope (t :: ts)).1.fault?.toList
  | header {h : Header} (hh : line.header? = some h) :
    IsReport before line
      ((h.nameFault? (before.all (!·.isHeader)) (before.filterMap Excerpt.nameText?)).toList ++
        (h.listFault? line).toList ++ (repeatedNames [] line.parameters).map .duplicate)

/-- One report for each line, all of which lie in the line. -/
inductive Reports : List Excerpt → List Excerpt → List (List Fault) → Prop
  | nil {before : List Excerpt} : Reports before [] []
  | cons {before lines : List Excerpt} {line : Excerpt} {report : List Fault}
    {reports : List (List Fault)} (h : IsReport before line report)
    (hin : ∀ f ∈ report, f.span.Within line.span) (hs : Reports (before ++ [line]) lines reports) :
    Reports before (line :: lines) (report :: reports)

def missingEntry (lines : List Excerpt) : List Fault :=
  if lines.any (·.isHeader) then []
  else [.ofStructure .missingEntry
    (((lines.map Excerpt.bodyLine).findSome? BodyLine.contentSpan?).getD default)]

theorem isReport_faults (before : List Excerpt) (line : Excerpt) :
    IsReport before line ((Context.after before).faults (Line.ofExcerpt line)) := by
  have hnone := Context.isNone_scope?_after before
  have hc := line.classified_ofExcerpt
  generalize Line.ofExcerpt line = l at hc
  cases hc with
  | @readable h hl hh =>
    have hempty : ∀ x, x ∈ Scope.empty.names ↔ x ∈ [] := fun _ => Iff.rfl
    have hparams : line.parameters = (h.parameters line).1 := by rw [Excerpt.parameters, hh]
    have hreport : IsReport before line _ := .header hh
    rw [← h.nameFault?_congr fun n => Context.mem_names_after, ← hnone, ← h.faults_parameters,
      ← Scope.faults_defineAll .parameter hempty, hparams, List.append_assoc] at hreport
    exact hreport
  | unreadable hl ht => exact .unreadable ht
  | body hl =>
    cases ht : line.tokens with
    | error string =>
      rw [Excerpt.bodyLine_of_error ht, Context.faults]
      split <;> exact .unreadable ht
    | ok ts =>
      cases ts with
      | nil =>
        rw [Excerpt.bodyLine_of_nil ht, Context.faults]
        split <;> exact .blank ht
      | cons t ts =>
        rw [Excerpt.bodyLine_of_cons ht, Context.faults]
        split
        · rename_i hs
          rw [hs, Option.isNone_none, eq_comm, List.all_eq_true] at hnone
          exact .loose ht hl fun l hmem => by simpa using hnone l hmem
        · rename_i scope hs
          rw [hs, Option.isNone_some, eq_comm, List.all_eq_false] at hnone
          obtain ⟨l, hmem, hl'⟩ := hnone
          exact .statement ht hl ⟨l, hmem, by simpa using hl'⟩ hs

/-- The parts of a header, and its parameters, are made of the tokens of its line. -/
theorem Excerpt.placed_of_header? {P : Span → Prop} (hP : Span.Merges P) {line : Excerpt}
    {h : Header} (hplaced : Token.Placed P line.tokens) (hh : line.header? = some h) :
    P h.define ∧ (∀ n ∈ h.name, P n.span) ∧
      Ends (h.readParameters line) (fun names => ∀ n ∈ names, P n.span)
        (Fault.Fits P fun _ => True) := by
  obtain ⟨ts, ht, hts⟩ := Excerpt.exists_tokens_of_header? hh
  rw [ht] at hplaced
  obtain ⟨hd, hn, hl⟩ := Header.forall_of_ofTokens? (P := P) hplaced hts
  exact ⟨hd, hn, Header.ends_readParameters hP hd hn hl⟩

/-- The places of what is reported for a line are made of those of its tokens. -/
theorem IsReport.placed {P : Span → Prop} (hP : Span.Merges P) {before : List Excerpt}
    {line : Excerpt} {report : List Fault} (h : IsReport before line report)
    (hplaced : Token.Placed P line.tokens) : ∀ f ∈ report, P f.span := by
  intro f hf
  cases h with
  | unreadable ht =>
    rw [ht] at hplaced
    obtain rfl := List.mem_singleton.1 hf
    exact hplaced
  | blank ht => cases hf
  | loose ht =>
    rw [ht] at hplaced
    obtain ⟨hfirst, hrest⟩ := List.forall_mem_cons.1 hplaced
    obtain rfl := List.mem_singleton.1 hf
    exact Token.reach_of_forall hP hfirst hrest
  | statement ht =>
    rw [ht] at hplaced
    exact (Statement.fits_of_parse hP hplaced (List.cons_ne_nil _ _) (Option.mem_toList.1 hf)).span
  | @header h hh =>
    obtain ⟨hd, hn, hlist⟩ := Excerpt.placed_of_header? hP hplaced hh
    rw [List.mem_append, List.mem_append] at hf
    rcases hf with (hf | hf) | hf
    · exact (Header.fits_of_nameFault? (P := P) hd hn (Option.mem_toList.1 hf)).span
    · have hf := Option.mem_toList.1 hf
      rw [Header.listFault?] at hf
      split at hf
      · cases hf
      · rename_i hr
        cases hf
        exact (hlist.fault hr).span
    · obtain ⟨n, hmem, rfl⟩ := List.mem_map.1 hf
      have hmem := mem_of_mem_repeatedNames hmem
      rw [Excerpt.parameters, hh] at hmem
      dsimp only at hmem
      rw [Header.parameters] at hmem
      split at hmem
      · rename_i hr
        exact hlist.value hr n hmem
      · cases hmem

theorem IsReport.within {before : List Excerpt} {line : Excerpt} {report : List Fault}
    (h : IsReport before line report) : ∀ f ∈ report, f.span.Within line.span :=
  h.placed (Span.merges_within line.span) line.placed_tokens

theorem reports_after (before lines : List Excerpt) :
    Reports before lines ((Context.after before).reports (lines.map Line.ofExcerpt)) := by
  induction lines generalizing before with
  | nil => exact .nil
  | cons line rest ih =>
    have h := isReport_faults before line
    have hrest := ih (before ++ [line])
    rw [Context.after_append_singleton] at hrest
    exact .cons h h.within hrest

theorem Reports.exists_of_mem {before lines more : List Excerpt} {line : Excerpt}
    {reports : List (List Fault)} (h : Reports before (lines ++ line :: more) reports) :
    ∃ report ∈ reports, IsReport (before ++ lines) line report := by
  induction lines generalizing before reports with
  | nil =>
    cases h with
    | cons h =>
      rw [List.append_nil]
      exact ⟨_, List.mem_cons_self, h⟩
  | cons l lines ih =>
    cases h with
    | cons _ _ hs =>
      obtain ⟨report, hmem, hreport⟩ := ih hs
      rw [List.append_assoc] at hreport
      exact ⟨report, List.mem_cons_of_mem _ hmem, hreport⟩

namespace Program

theorem faults_readBlocks (loose : List BodyLine) (blocks : List Block) :
    (readBlocks loose blocks).2 = Context.blockFaults blocks ++
      if blocks = [] then
        [.ofStructure .missingEntry ((loose.findSome? BodyLine.contentSpan?).getD default)]
      else [] := by
  cases blocks with
  | nil => rfl
  | cons entry rest => exact (List.append_nil _).symm

/-- The faults of lines in the order of their places, and among those of one place as they are
found: line after line, and the missing entry last. -/
theorem faults_ofLines (lines : List Excerpt) :
    (ofLines (lines.map Line.ofExcerpt)).2 =
      stableSort (fun a b => a.span.start ≤ b.span.start)
        ((Context.start.reports (lines.map Line.ofExcerpt)).flatten ++ missingEntry lines) := by
  obtain ⟨loose, sections, h⟩ := Section.exists_divides lines
  obtain ⟨blocks, hgroup, hall⟩ := h.group
  have hmissing : missingEntry lines = if blocks = [] then
      [.ofStructure .missingEntry
        (((loose.map Excerpt.bodyLine).findSome? BodyLine.contentSpan?).getD default)]
      else [] := by
    cases hall with
    | nil =>
      have hlines : lines = loose := by simpa using h.lines
      have hno : loose.any (·.isHeader) = false := by simpa using h.loose
      rw [missingEntry, hlines, hno]
      rfl
    | @cons first entry later rest =>
      have hmem : first.header ∈ lines := by
        rw [h.lines]
        simp [Section.lines]
      have hyes := List.any_eq_true.2 ⟨first.header, hmem, h.header first List.mem_cons_self⟩
      rw [missingEntry, if_pos hyes, if_neg (List.cons_ne_nil _ _)]
  rw [ofLines, Context.flatten_reports_start, hmissing, hgroup, List.append_assoc,
    ← faults_readBlocks]

/-- The diagnostics are those of the lines, in another order. -/
theorem diagnostics_perm (text : String) :
    (parse text).diagnostics.Perm
      (((Context.start.reports ((Excerpt.whole text).lines.map Line.ofExcerpt)).flatten ++
        missingEntry (Excerpt.whole text).lines).map Fault.diagnostic) := by
  have h : (parse text).diagnostics =
      (ofLines ((Excerpt.whole text).lines.map Line.ofExcerpt)).2.map Fault.diagnostic := rfl
  rw [h, faults_ofLines]
  exact (stableSort_perm _ _).map _

end Program

namespace Section

/-- A section is kept if its name is not among those before it. -/
theorem mem_kept {earlier between later : List Section} {s : Section}
    (h : s.isKept (between.reverse ++ earlier)) : s ∈ kept earlier (between ++ s :: later) := by
  induction between generalizing earlier with
  | nil =>
    have hkept : s.isKept earlier := h
    rw [List.nil_append, kept, if_pos hkept]
    exact List.mem_append_left _ List.mem_cons_self
  | cons t between ih =>
    rw [List.reverse_cons, List.append_assoc] at h
    exact List.mem_append_right _ (ih h)

theorem filterMap_nameText?_eq_nil {lines : List Excerpt} (h : ∀ l ∈ lines, l.isHeader = false) :
    lines.filterMap Excerpt.nameText? = [] := by
  rw [List.filterMap_eq_nil_iff]
  intro l hl
  rw [Excerpt.nameText?, Excerpt.headerName?, Excerpt.header?_eq_none (h l hl)]
  rfl

theorem filterMap_nameText?_lines {sections : List Section}
    (hb : ∀ s ∈ sections, ∀ l ∈ s.body, l.isHeader = false) :
    (sections.flatMap lines).filterMap Excerpt.nameText? = sections.filterMap nameText? := by
  induction sections with
  | nil => rfl
  | cons s rest ih =>
    obtain ⟨hbody, hbodies⟩ := List.forall_mem_cons.1 hb
    rw [List.flatMap_cons, lines, List.filterMap_append, filterMap_cons_toList,
      filterMap_nameText?_eq_nil hbody, List.append_nil, ih hbodies, filterMap_cons_toList]
    rfl

/-- A section whose header has nothing reported is read as a definition. -/
theorem exists_definition {p : Program} {loose : List Excerpt} {earlier later : List Section}
    {s : Section} (hp : p.IsReadFrom (earlier ++ s :: later))
    (hl : ∀ l ∈ loose, l.isHeader = false)
    (hb : ∀ t ∈ earlier, ∀ l ∈ t.body, l.isHeader = false) (hh : ∀ t ∈ earlier, t.header.isHeader)
    (hs : s.header.isHeader) (hr : IsReport (loose ++ earlier.flatMap lines) s.header []) :
    ∃ d ∈ p.definitions, s.IsReadAs d := by
  match earlier with
  | [] => exact ⟨p.entry, List.mem_cons_self, hp.1⟩
  | first :: between =>
    generalize hreport : ([] : List Fault) = report at hr
    cases hr with
    | unreadable | loose => cases hreport
    | blank ht =>
      rw [Excerpt.isHeader_of_tokens ht, Excerpt.header?_of_tokens ht] at hs
      cases hs
    | statement ht hno =>
      rw [hno] at hs
      cases hs
    | @header h hhead =>
      obtain ⟨hname, -⟩ := List.append_eq_nil_iff.1 (List.append_eq_nil_iff.1 hreport.symm).1
      obtain ⟨hfresh, hentry⟩ := Header.nameFault?_eq_none.1 (Option.toList_eq_nil_iff.1 hname)
      rw [List.filterMap_append, filterMap_nameText?_eq_nil hl, List.nil_append,
        filterMap_nameText?_lines hb] at hfresh
      have hkept : s.isKept (between.reverse ++ [first]) := by
        cases hn : h.name with
        | none =>
          -- only the entry goes without a name
          have hall := List.all_eq_true.1 (hentry hn) first.header (by simp [lines])
          rw [hh first List.mem_cons_self] at hall
          cases hall
        | some n =>
          obtain ⟨hres, hnew⟩ := hfresh n hn
          refine isKept_iff.2 ⟨n.val, ?_, hres, ?_⟩
          · rw [nameText?, Excerpt.nameText?, Excerpt.headerName?, hhead, Option.bind_some, hn]
            rfl
          · rw [← List.reverse_cons, List.filterMap_reverse, List.mem_reverse]
            exact hnew
      obtain ⟨d, hd, hread⟩ := exists_of_mem_forall₂ hp.2 (mem_kept hkept)
      exact ⟨d, List.mem_cons_of_mem _ hd, hread⟩

end Section

def ParseResult.Marks (r : ParseResult) (line : Excerpt) : Prop :=
  ∃ d ∈ r.diagnostics, d.span.Within line.span

def Statement.IsOf (s : Statement) (line : Excerpt) : Prop :=
  ∃ ts, line.tokens = .ok ts ∧ ts.map Token.word = s.words ∧ s.span = Token.spanOf ts

/-- A line of a section is in its definition, as the header or as a complete statement. -/
def Section.Keeps (s : Section) (d : Definition) (line : Excerpt) : Prop :=
  s.IsReadAs d ∧
    (line = s.header ∨ line ∈ s.body ∧ ∃ st ∈ d.statements, st.arguments ≠ [] ∧ st.IsOf line)

/-- A line with content in a body, if nothing is reported for it, is a complete statement. -/
theorem Section.exists_statement {s : Section} {d : Definition} (hd : s.IsReadAs d)
    (hh : s.header.isHeader) (hb : ∀ l ∈ s.body, l.isHeader = false)
    {before body rest : List Excerpt} {line : Excerpt} (hs : s.body = body ++ line :: rest)
    (hw : line.words? ≠ some []) (hr : IsReport (before ++ s.header :: body) line []) :
    ∃ st ∈ d.statements, st.arguments ≠ [] ∧ st.IsOf line := by
  rw [hs, List.forall_mem_append] at hb
  have hline := hb.2 line List.mem_cons_self
  generalize hreport : ([] : List Fault) = report at hr
  cases hr with
  | unreadable | loose => cases hreport
  | blank ht =>
    rw [Excerpt.words?_of_tokens ht] at hw
    exact absurd rfl hw
  | header hhead =>
    rw [Excerpt.header?_eq_none hline] at hhead
    cases hhead
  | @statement t ts scope ht _ _ hscope =>
    rw [Context.scope?_after hh hb.1, Option.some.injEq] at hscope
    have hnone := Option.toList_eq_nil_iff.1 hreport.symm
    obtain ⟨st, hst, hsound, hwords⟩ :=
      Statement.sound_of_parse (fun t hmem => Excerpt.isLexed_of_mem ht hmem) hnone
    refine ⟨st, ?_, hsound.arguments_ne_nil, _, ht, hwords, Statement.span_of_parse hst⟩
    rw [hd.statements, outcomes, hs, List.map_append, BodyLine.outcomes_append, List.map_cons,
      BodyLine.outcomes, Excerpt.bodyLine_of_cons ht, hscope]
    exact List.mem_filterMap.2 ⟨_, List.mem_append_right _ List.mem_cons_self, hst⟩

namespace Program

theorem isReport_nil_of_not_marks {text : String} {before rest : List Excerpt} {line : Excerpt}
    (hl : (Excerpt.whole text).lines = before ++ line :: rest) (hm : ¬ (parse text).Marks line) :
    IsReport before line [] := by
  have hperm := diagnostics_perm text
  have hreports := reports_after [] (Excerpt.whole text).lines
  rw [hl] at hreports
  obtain ⟨report, hmem, hreport⟩ := hreports.exists_of_mem
  rw [← hl] at hmem
  match report with
  | [] => exact hreport
  | f :: fs =>
    have hdiag : f.diagnostic ∈ (parse text).diagnostics := by
      apply hperm.mem_iff.2
      apply List.mem_map_of_mem
      exact List.mem_append_left _ (List.mem_flatten.2 ⟨_, hmem, List.mem_cons_self⟩)
    exact absurd ⟨_, hdiag, hreport.within f List.mem_cons_self⟩ hm

theorem marks_of_mem_loose {text : String} {loose : List Excerpt} {sections : List Section}
    (hdiv : Section.Divides (Excerpt.whole text).lines loose sections) {line : Excerpt}
    (hmem : line ∈ loose) (hw : line.words? ≠ some []) : (parse text).Marks line := by
  by_contra hm
  obtain ⟨before, rest, hsplit⟩ := List.append_of_mem hmem
  have hlines : (Excerpt.whole text).lines =
      before ++ line :: (rest ++ sections.flatMap Section.lines) := by
    rw [hdiv.lines, hsplit, List.append_assoc]
    rfl
  have hloose := hdiv.loose
  rw [hsplit, List.forall_mem_append] at hloose
  have hr := isReport_nil_of_not_marks hlines hm
  generalize hreport : ([] : List Fault) = report at hr
  cases hr with
  | unreadable | loose => cases hreport
  | blank ht =>
    rw [Excerpt.words?_of_tokens ht] at hw
    exact hw rfl
  | statement ht hl hb =>
    obtain ⟨l, hmem, hl⟩ := hb
    rw [hloose.1 l hmem] at hl
    cases hl
  | header hhead =>
    rw [Excerpt.header?_eq_none (hloose.2 line List.mem_cons_self)] at hhead
    cases hhead

theorem exists_keeps {text : String} {loose : List Excerpt} {earlier later : List Section}
    {s : Section} (hdiv : Section.Divides (Excerpt.whole text).lines loose (earlier ++ s :: later))
    (hs : ¬ (parse text).Marks s.header) {line : Excerpt} (hmem : line ∈ s.lines)
    (hw : line.words? ≠ some []) (hm : ¬ (parse text).Marks line) :
    ∃ d ∈ (parse text).program.definitions, s.Keeps d line := by
  have hsections : s ∈ earlier ++ s :: later := List.mem_append_right _ List.mem_cons_self
  have hlines : (Excerpt.whole text).lines = (loose ++ earlier.flatMap Section.lines) ++
      s.header :: (s.body ++ later.flatMap Section.lines) := by
    rw [hdiv.lines, List.flatMap_append, List.flatMap_cons, ← List.append_assoc]
    rfl
  obtain ⟨d, hd, hread⟩ := Section.exists_definition (isReadFrom_parse hdiv) hdiv.loose
    (fun t ht => hdiv.body t (List.mem_append_left _ ht))
    (fun t ht => hdiv.header t (List.mem_append_left _ ht)) (hdiv.header s hsections)
    (isReport_nil_of_not_marks hlines hs)
  rcases List.mem_cons.1 hmem with rfl | hmem
  · exact ⟨d, hd, hread, .inl rfl⟩
  · obtain ⟨body, rest, hsplit⟩ := List.append_of_mem hmem
    have hline : (Excerpt.whole text).lines =
        (loose ++ earlier.flatMap Section.lines ++ s.header :: body) ++
          line :: (rest ++ later.flatMap Section.lines) := by
      rw [hlines, hsplit]
      simp only [List.append_assoc, List.cons_append]
    exact ⟨d, hd, hread, .inr ⟨hmem, Section.exists_statement hread (hdiv.header s hsections)
      (hdiv.body s hsections) hsplit hw (isReport_nil_of_not_marks hline hm)⟩⟩

/-- The diagnostics of a text are those that its lines call for, each of which lies in its line, and
the one of a missing entry. A line with content in which no diagnostic lies is in the program, or
one lies in the header of its section. -/
theorem reports_parse (text : String) :
    let lines := (Excerpt.whole text).lines
    let result := parse text
    ∃ loose sections reports, Section.Divides lines loose sections ∧ Reports [] lines reports ∧
      result.diagnostics.Perm ((reports.flatten ++ missingEntry lines).map Fault.diagnostic) ∧
      ∀ line ∈ lines, line.words? ≠ some [] → ¬ result.Marks line →
        (∃ s ∈ sections, ∃ d ∈ result.program.definitions, s.Keeps d line) ∨
          ∃ s ∈ sections, line ∈ s.body ∧ result.Marks s.header := by
  intro lines result
  obtain ⟨loose, sections, hdiv⟩ := Section.exists_divides lines
  refine ⟨loose, sections, _, hdiv, reports_after [] lines, diagnostics_perm text, ?_⟩
  intro line hmem hw hm
  rw [hdiv.lines, List.mem_append, List.mem_flatMap] at hmem
  rcases hmem with hmem | ⟨s, hs, hmem⟩
  · exact absurd (marks_of_mem_loose hdiv hmem hw) hm
  · by_cases hmark : result.Marks s.header
    · rcases List.mem_cons.1 hmem with rfl | hmem
      · exact absurd hmark hm
      · exact .inr ⟨s, hs, hmem, hmark⟩
    · obtain ⟨earlier, later, rfl⟩ := List.append_of_mem hs
      exact .inl ⟨s, hs, exists_keeps hdiv hmark hmem hw hm⟩

end Program

end ShapeAssembly
