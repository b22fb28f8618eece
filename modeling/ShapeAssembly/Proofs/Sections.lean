import ShapeAssembly.Proofs.Programs

namespace ShapeAssembly

theorem filterMap_cons_toList {α β : Type} (f : α → Option β) (a : α) (as : List α) :
    (a :: as).filterMap f = (f a).toList ++ as.filterMap f := by
  cases h : f a with
  | none => rw [List.filterMap_cons_none h]; rfl
  | some b => rw [List.filterMap_cons_some h]; rfl

namespace Excerpt

def header? (line : Excerpt) : Option Header := line.tokens.toOption.bind Header.ofTokens?

/-- A line that starts a block: a header, or a line that does not lex and whose first word is
`def`. -/
def isHeader (line : Excerpt) : Bool :=
  match line.words? with
  | some ws => Word.isHeader ws
  | none => Line.startsWithDef line.chars

/-- The name that a header gives to its block. One that does not lex gives none. -/
def headerName? (line : Excerpt) : Option Name := line.header?.bind (·.name)

def nameText? (line : Excerpt) : Option String := line.headerName?.map (·.val)

/-- The parameters that a header gives to its block: those in its list if that is accepted. -/
def parameters (line : Excerpt) : List Name :=
  match line.header? with
  | some h => (h.parameters line).1
  | none => []

def headerScope (line : Excerpt) : Scope :=
  (Scope.empty.defineAll .parameter line.parameters).1

def bodyLine (line : Excerpt) : BodyLine :=
  match line.tokens with
  | .error string => .unreadable string
  | .ok [] => .blank
  | .ok (t :: ts) => .content line t ts

inductive Classified (line : Excerpt) : Line → Prop
  | readable {h : Header} (hl : line.isHeader) (hh : line.header? = some h) :
    Classified line (.opening (.readable line h))
  | unreadable {string : UnterminatedString} (hl : line.isHeader)
    (ht : line.tokens = .error string) : Classified line (.opening (.unreadable line string))
  | body (hl : line.isHeader = false) : Classified line (.body line.bodyLine)

theorem bodyLine_of_error {line : Excerpt} {string : UnterminatedString}
    (h : line.tokens = .error string) : line.bodyLine = .unreadable string := by
  rw [bodyLine, h]

theorem bodyLine_of_nil {line : Excerpt} (h : line.tokens = .ok []) : line.bodyLine = .blank := by
  rw [bodyLine, h]

theorem bodyLine_of_cons {line : Excerpt} {t : Token} {ts : List Token}
    (h : line.tokens = .ok (t :: ts)) : line.bodyLine = .content line t ts := by
  rw [bodyLine, h]

theorem header?_of_tokens {line : Excerpt} {ts : List Token} (h : line.tokens = .ok ts) :
    line.header? = Header.ofTokens? ts := by
  rw [header?, h]
  rfl

theorem header?_of_error {line : Excerpt} {string : UnterminatedString}
    (h : line.tokens = .error string) : line.header? = none := by
  rw [header?, h]
  rfl

theorem exists_tokens_of_header? {line : Excerpt} {h : Header} (hh : line.header? = some h) :
    ∃ ts, line.tokens = .ok ts ∧ Header.ofTokens? ts = some h := by
  cases ht : line.tokens with
  | error string =>
    rw [header?_of_error ht] at hh
    cases hh
  | ok ts => exact ⟨ts, rfl, by rwa [header?_of_tokens ht] at hh⟩

theorem isHeader_of_tokens {line : Excerpt} {ts : List Token} (h : line.tokens = .ok ts) :
    line.isHeader = line.header?.isSome := by
  rw [isHeader, words?_of_tokens h, header?_of_tokens h]
  exact Header.isHeader_words ts

theorem isHeader_of_error {line : Excerpt} {string : UnterminatedString}
    (h : line.tokens = .error string) : line.isHeader = Line.startsWithDef line.chars := by
  rw [isHeader, words?, h]
  rfl

theorem header?_eq_none {line : Excerpt} (h : line.isHeader = false) : line.header? = none := by
  cases ht : line.tokens with
  | error string => exact header?_of_error ht
  | ok ts => rwa [isHeader_of_tokens ht, Option.isSome_eq_false_iff, Option.isNone_iff_eq_none] at h

theorem classified_ofExcerpt (line : Excerpt) : line.Classified (Line.ofExcerpt line) := by
  rw [Line.ofExcerpt]
  split
  · rename_i string ht
    split
    · exact .unreadable (by rwa [isHeader_of_error ht]) ht
    · rename_i hno
      rw [← bodyLine_of_error ht]
      exact .body (by rw [isHeader_of_error ht]; simpa using hno)
  · rename_i ht
    rw [← bodyLine_of_nil ht]
    exact .body (by rw [isHeader_of_tokens ht, header?_of_tokens ht]; rfl)
  · rename_i t ts ht
    have hh := header?_of_tokens ht
    split
    · rename_i h hsome
      rw [hsome] at hh
      exact .readable (by rw [isHeader_of_tokens ht, hh]; rfl) hh
    · rename_i hnone
      rw [hnone] at hh
      rw [← bodyLine_of_cons ht]
      exact .body (by rw [isHeader_of_tokens ht, hh]; rfl)

theorem ofExcerpt_of_not_isHeader {line : Excerpt} (h : line.isHeader = false) :
    Line.ofExcerpt line = .body line.bodyLine := by
  have hc := classified_ofExcerpt line
  generalize Line.ofExcerpt line = l at hc
  cases hc with
  | readable hl | unreadable hl => rw [h] at hl; cases hl
  | body => rfl

theorem exists_opening {line : Excerpt} (h : line.isHeader) :
    ∃ o, Line.ofExcerpt line = .opening o := by
  have hc := classified_ofExcerpt line
  generalize Line.ofExcerpt line = l at hc
  cases hc with
  | readable | unreadable => exact ⟨_, rfl⟩
  | body hl => rw [h] at hl; cases hl

/-- What a header line is read as, up to the faults that its place in the text decides. -/
theorem read_opening {line : Excerpt} {o : Opening} (ho : Line.ofExcerpt line = .opening o)
    (isEntry : Bool) (earlier : List String) :
    (o.read isEntry earlier).definition.name = line.headerName? ∧
      (o.read isEntry earlier).definition.parameters = line.parameters ∧
      (o.read isEntry earlier).scope = line.headerScope ∧
      o.nameText? = line.nameText? := by
  have hc := classified_ofExcerpt line
  rw [ho] at hc
  cases hc with
  | @readable h hl hh =>
    rw [headerScope, parameters, nameText?, headerName?, hh]
    exact ⟨rfl, rfl, rfl, rfl⟩
  | unreadable hl ht =>
    rw [headerScope, parameters, nameText?, headerName?, header?_of_error ht]
    exact ⟨rfl, rfl, rfl, rfl⟩

end Excerpt

namespace BodyLine

def outcome? (scope : Scope) : BodyLine → Option Outcome
  | content source first rest => some (Statement.parse source scope (first :: rest)).1
  | _ => none

/-- What becomes of the statements among some lines, each read in the scope that the lines before
it leave. -/
def outcomes (scope : Scope) : List BodyLine → List Outcome
  | [] => []
  | line :: rest => (line.outcome? scope).toList ++ outcomes (line.read scope).2 rest

def scopeAfter (scope : Scope) (lines : List BodyLine) : Scope :=
  lines.foldl (fun scope line => (line.read scope).2) scope

theorem outcomes_append (scope : Scope) (lines more : List BodyLine) :
    outcomes scope (lines ++ more) =
      outcomes scope lines ++ outcomes (scopeAfter scope lines) more := by
  induction lines generalizing scope with
  | nil => rfl
  | cons line lines ih =>
    rw [List.cons_append, outcomes, ih, ← List.append_assoc]
    rfl

theorem statements_readAll (scope : Scope) (lines : List BodyLine) :
    (readAll scope lines).filterMap (·.statement?) =
      (outcomes scope lines).filterMap Outcome.statement? := by
  induction lines generalizing scope with
  | nil => rfl
  | cons line rest ih =>
    cases line with
    | blank | unreadable => exact ih scope
    | content source first more =>
      rw [readAll_content, outcomes, outcome?, Option.toList_some, List.singleton_append,
        List.filterMap_cons, List.filterMap_cons, ih]
      rfl

end BodyLine

structure Section where
  header : Excerpt
  body : List Excerpt

namespace Section

def lines (s : Section) : List Excerpt := s.header :: s.body

def nameText? (s : Section) : Option String := s.header.nameText?

/-- What becomes of the statements in the body. -/
def outcomes (s : Section) : List Outcome :=
  BodyLine.outcomes s.header.headerScope (s.body.map Excerpt.bodyLine)

/-- Lines cut before every header: the lines before the first one, and the sections. -/
structure Divides (lines loose : List Excerpt) (sections : List Section) : Prop where
  lines : lines = loose ++ sections.flatMap Section.lines
  loose : ∀ l ∈ loose, l.isHeader = false
  header : ∀ s ∈ sections, s.header.isHeader
  body : ∀ s ∈ sections, ∀ l ∈ s.body, l.isHeader = false

/-- A definition has the name and the parameters of the header and, in order, what the lines of the
body leave of their statements. -/
structure IsReadAs (s : Section) (d : Definition) : Prop where
  name : d.name = s.header.headerName?
  parameters : d.parameters = s.header.parameters
  statements : d.statements = s.outcomes.filterMap Outcome.statement?

/-- Whether a section has a usable name that none of the sections before it has. -/
def isKept (earlier : List Section) (s : Section) : Bool :=
  s.nameText?.any fun n => !isReserved n && earlier.all (·.nameText? ≠ some n)

def kept (earlier : List Section) : List Section → List Section
  | [] => []
  | s :: rest => (if s.isKept earlier then [s] else []) ++ kept (s :: earlier) rest

structure IsBlock (s : Section) (b : Block) : Prop where
  opening : Line.ofExcerpt s.header = .opening b.opening
  body : b.body = s.body.map Excerpt.bodyLine

theorem exists_divides (lines : List Excerpt) : ∃ loose sections, Divides lines loose sections := by
  induction lines with
  | nil => exact ⟨[], [], rfl, by simp, by simp, by simp⟩
  | cons line rest ih =>
    obtain ⟨loose, sections, hlines, hloose, hheader, hbody⟩ := ih
    cases hl : line.isHeader with
    | true =>
      refine ⟨[], ⟨line, loose⟩ :: sections, ?_, by simp, List.forall_mem_cons.2 ⟨hl, hheader⟩,
        List.forall_mem_cons.2 ⟨hloose, hbody⟩⟩
      rw [hlines]
      rfl
    | false =>
      refine ⟨line :: loose, sections, ?_, List.forall_mem_cons.2 ⟨hl, hloose⟩, hheader, hbody⟩
      rw [hlines]
      rfl

theorem map_ofExcerpt_of_not_isHeader {lines : List Excerpt}
    (h : ∀ l ∈ lines, l.isHeader = false) :
    lines.map Line.ofExcerpt = (lines.map Excerpt.bodyLine).map .body := by
  rw [List.map_map]
  exact List.map_congr_left fun l hl => Excerpt.ofExcerpt_of_not_isHeader (h l hl)

end Section

namespace Block

theorem group_body_append (bs : List BodyLine) (lines : List Line) :
    group (bs.map .body ++ lines) = (bs ++ (group lines).1, (group lines).2) := by
  induction bs with
  | nil => rfl
  | cons b bs ih =>
    rw [List.map_cons, List.cons_append, group, ih]
    rfl

theorem group_opening_append (o : Opening) (bs : List BodyLine) (lines : List Line) :
    group (.opening o :: (bs.map .body ++ lines)) =
      ([], ⟨o, bs ++ (group lines).1⟩ :: (group lines).2) := by
  rw [group, group_body_append]

end Block

theorem Opening.nameFault?_eq_none_later {o : Opening} {earlier : List String} :
    (o.read false earlier).nameFault? = none ↔
      ∃ n, o.nameText? = some n ∧ isReserved n = false ∧ n ∉ earlier := by
  constructor
  · exact fun h => Block.exists_name (b := ⟨o, []⟩) h
  · rintro ⟨n, hn, hr, hfresh⟩
    cases o with
    | unreadable => cases hn
    | readable source h =>
      obtain ⟨m, hm, rfl⟩ := Option.map_eq_some_iff.1 hn
      refine Header.nameFault?_eq_none.2 ⟨fun m' hm' => ?_, fun hnone => ?_⟩
      · rw [hm] at hm'
        cases hm'
        exact ⟨hr, hfresh⟩
      · rw [hm] at hnone
        cases hnone

namespace Section

/-- The lines of sections are grouped into their blocks. -/
theorem group_sections {sections : List Section} (hh : ∀ s ∈ sections, s.header.isHeader)
    (hb : ∀ s ∈ sections, ∀ l ∈ s.body, l.isHeader = false) :
    ∃ blocks, Block.group ((sections.flatMap lines).map Line.ofExcerpt) = ([], blocks) ∧
      List.Forall₂ IsBlock sections blocks := by
  induction sections with
  | nil => exact ⟨[], rfl, .nil⟩
  | cons s rest ih =>
    obtain ⟨hheader, hheaders⟩ := List.forall_mem_cons.1 hh
    obtain ⟨hbody, hbodies⟩ := List.forall_mem_cons.1 hb
    obtain ⟨blocks, hgroup, hall⟩ := ih hheaders hbodies
    obtain ⟨o, ho⟩ := Excerpt.exists_opening hheader
    refine ⟨⟨o, s.body.map Excerpt.bodyLine⟩ :: blocks, ?_, .cons ⟨ho, rfl⟩ hall⟩
    rw [List.flatMap_cons, lines, List.cons_append, List.map_cons, List.map_append,
      map_ofExcerpt_of_not_isHeader hbody, ho, Block.group_opening_append, hgroup, List.append_nil]

theorem Divides.group {lines loose : List Excerpt} {sections : List Section}
    (h : Divides lines loose sections) :
    ∃ blocks, Block.group (lines.map Line.ofExcerpt) = (loose.map Excerpt.bodyLine, blocks) ∧
      List.Forall₂ IsBlock sections blocks := by
  obtain ⟨blocks, hgroup, hall⟩ := group_sections h.header h.body
  refine ⟨blocks, ?_, hall⟩
  rw [h.lines, List.map_append, map_ofExcerpt_of_not_isHeader h.loose, Block.group_body_append,
    hgroup, List.append_nil]

variable {s : Section} {b : Block}

theorem IsBlock.nameText? (h : s.IsBlock b) : b.opening.nameText? = s.nameText? :=
  (Excerpt.read_opening h.opening true []).2.2.2

theorem IsBlock.isReadAs (h : s.IsBlock b) (isEntry : Bool) (earlier : List String) :
    s.IsReadAs (b.read isEntry earlier).definition := by
  obtain ⟨hname, hparams, hscope, -⟩ := Excerpt.read_opening h.opening isEntry earlier
  refine ⟨hname, hparams, ?_⟩
  rw [outcomes, ← hscope, ← h.body]
  exact BodyLine.statements_readAll _ _

theorem isKept_iff {earlier : List Section} :
    s.isKept earlier ↔
      ∃ n, s.nameText? = some n ∧ isReserved n = false ∧ n ∉ earlier.filterMap nameText? := by
  rw [isKept, Option.any_eq_true]
  apply exists_congr
  intro n
  apply and_congr_right
  intro _
  simp [List.mem_filterMap]

theorem IsBlock.named (h : s.IsBlock b) (earlier : List Section) :
    (b.read false (earlier.filterMap Section.nameText?)).named = s.isKept earlier := by
  rw [Bool.eq_iff_iff, Block.named_eq_true, Opening.nameFault?_eq_none_later, h.nameText?,
    isKept_iff]

/-- The blocks after some sections are read as the sections that are kept. -/
theorem readLater_kept {sections : List Section} {blocks : List Block} (earlier : List Section)
    (h : List.Forall₂ IsBlock sections blocks) :
    List.Forall₂ IsReadAs (kept earlier sections)
      (Block.readLater (earlier.filterMap Section.nameText?) blocks).1 := by
  induction h generalizing earlier with
  | nil => exact .nil
  | @cons s b rest blocks hb _ ih =>
    have ih := ih (s :: earlier)
    rw [filterMap_cons_toList] at ih
    rw [kept, Block.readLater_cons, hb.named, hb.nameText?]
    split
    · exact .cons (hb.isReadAs false _) ih
    · exact ih

end Section

namespace Program

/-- The entry is the first section, and the subfunctions are the later ones that are kept. Without
a section the entry is empty. -/
def IsReadFrom (p : Program) : List Section → Prop
  | [] => p.entry.name = none ∧ p.entry.parameters = [] ∧ p.entry.statements = [] ∧
      p.subfunctions = []
  | first :: later => first.IsReadAs p.entry ∧
      List.Forall₂ Section.IsReadAs (Section.kept [first] later) p.subfunctions

theorem isReadFrom_readBlocks {sections : List Section} {blocks : List Block}
    (h : List.Forall₂ Section.IsBlock sections blocks) (loose : List BodyLine) :
    (readBlocks loose blocks).1.IsReadFrom sections := by
  cases h with
  | nil => exact ⟨rfl, rfl, rfl, rfl⟩
  | @cons first entry later rest hfirst hlater =>
    have hkept := Section.readLater_kept [first] hlater
    rw [filterMap_cons_toList, ← hfirst.nameText?, List.filterMap_nil, List.append_nil] at hkept
    exact ⟨hfirst.isReadAs true [], hkept⟩

/-- The program of a text is read from the blocks of its sections. -/
theorem exists_blocks {text : String} {loose : List Excerpt} {sections : List Section}
    (h : Section.Divides (Excerpt.whole text).lines loose sections) :
    ∃ blocks, Block.group ((Excerpt.whole text).lines.map Line.ofExcerpt) =
        (loose.map Excerpt.bodyLine, blocks) ∧
      List.Forall₂ Section.IsBlock sections blocks ∧
      (parse text).program = (readBlocks (loose.map Excerpt.bodyLine) blocks).1 := by
  obtain ⟨blocks, hgroup, hall⟩ := h.group
  refine ⟨blocks, hgroup, hall, ?_⟩
  rw [parse, ofLines, hgroup]

theorem isReadFrom_parse {text : String} {loose : List Excerpt} {sections : List Section}
    (h : Section.Divides (Excerpt.whole text).lines loose sections) :
    (parse text).program.IsReadFrom sections := by
  obtain ⟨blocks, -, hall, hp⟩ := exists_blocks h
  rw [hp]
  exact isReadFrom_readBlocks hall _

/-- Every text is cut before its headers, and its program is read from the pieces: the first is the
entry, those of the others whose names are usable and new are the subfunctions, and each keeps the
statements of its own lines. So no two definitions have the same name. -/
theorem sections_parse (text : String) :
    ∃ loose sections, Section.Divides (Excerpt.whole text).lines loose sections ∧
      (parse text).program.IsReadFrom sections ∧
      ((parse text).program.definitions.filterMap (·.nameText)).Nodup ∧
      ∀ d ∈ (parse text).program.subfunctions, d.name ≠ none := by
  obtain ⟨loose, sections, h⟩ := Section.exists_divides (Excerpt.whole text).lines
  have hprint := printable_parse text
  exact ⟨loose, sections, h, isReadFrom_parse h, hprint.nodup_names, hprint.name_ne_none⟩

end Program

end ShapeAssembly
