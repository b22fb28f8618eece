import ShapeAssembly.Block
import ShapeAssembly.Proofs.HeaderForm
import ShapeAssembly.Proofs.StatementForm

namespace ShapeAssembly

/-- No keyword of a statement is `def`. -/
theorem Schema.not_def_of_lookup {keyword : String} {schema : Schema} {binding : ResultBinding}
    (hk : lookup? keyword = some schema) (hb : schema.binding? = some binding) :
    sameLetters keyword "def" = false := by
  have hname : ∀ s ∈ registry, s.binding? ≠ none → sameLetters s.name "def" = false := by decide
  have hno := hname schema (mem_registry hk) (by rw [hb]; exact Option.some_ne_none _)
  rwa [sameLetters, toLower_of_lookup hk] at hno

namespace Statement

theorem IsReadable.isHeader_words {names : List String} {s : Statement} (h : s.IsReadable names) :
    Word.isHeader s.words = false := by
  obtain ⟨schema, binding, hk, hb⟩ := h.exists_schema
  rw [words]
  cases s.result with
  | none => simp [targetWords, Word.list, Word.isHeader, Word.ident, Schema.not_def_of_lookup hk hb]
  | some r => simp [targetWords, Word.isHeader, Word.assign]

theorem AllReadable.isHeader_words {names : List String} {ss : List Statement}
    (h : AllReadable names ss) : ∀ s ∈ ss, Word.isHeader s.words = false := by
  induction ss generalizing names with
  | nil => simp
  | cons s ss ih =>
    rw [List.forall_mem_cons]
    exact ⟨h.1.isHeader_words, ih h.2⟩

end Statement

namespace Definition

/-- A definition that reading a block can leave. -/
structure Printable (d : Definition) : Prop where
  name : ∀ n ∈ d.name, IsIdentifier n.val
  parameters : ∀ p ∈ d.parameters, IsUsable p.val
  length : d.parameters = [] ∨ d.parameters.length = 4
  body : Statement.AllReadable (d.parameters.map (·.val)) d.statements

/-- Each definition has a name that is usable and that no earlier one has. -/
def AllNamed : List String → List Definition → Prop
  | _, [] => True
  | earlier, d :: ds =>
    ∃ n, d.nameText = some n ∧ isReserved n = false ∧ n ∉ earlier ∧ AllNamed (n :: earlier) ds

theorem AllNamed.mono {earlier earlier' : List String} (hs : ∀ x ∈ earlier', x ∈ earlier)
    {ds : List Definition} (h : AllNamed earlier ds) : AllNamed earlier' ds := by
  induction ds generalizing earlier earlier' with
  | nil => trivial
  | cons d ds ih =>
    obtain ⟨n, hn, hr, hfresh, hrest⟩ := h
    refine ⟨n, hn, hr, fun hmem => hfresh (hs n hmem), ih (fun x hx => ?_) hrest⟩
    exact List.mem_cons.2 ((List.mem_cons.1 hx).imp_right (hs x))

theorem allNamed_iff {earlier : List String} {ds : List Definition} :
    AllNamed earlier ds ↔
      (∀ d ∈ ds, ∃ n, d.nameText = some n ∧ isReserved n = false ∧ n ∉ earlier) ∧
        (ds.filterMap (·.nameText)).Nodup := by
  induction ds generalizing earlier with
  | nil => simp [AllNamed]
  | cons d ds ih =>
    rw [AllNamed, List.forall_mem_cons]
    constructor
    · rintro ⟨n, hn, hr, hfresh, hrest⟩
      obtain ⟨hnamed, hnd⟩ := ih.1 hrest
      refine ⟨⟨⟨n, hn, hr, hfresh⟩, fun e he => ?_⟩, ?_⟩
      · obtain ⟨m, hm, hmr, hmf⟩ := hnamed e he
        exact ⟨m, hm, hmr, fun hmem => hmf (List.mem_cons_of_mem n hmem)⟩
      · rw [List.filterMap_cons_some hn, List.nodup_cons]
        refine ⟨fun hmem => ?_, hnd⟩
        obtain ⟨e, he, hen⟩ := List.mem_filterMap.1 hmem
        -- a later definition of the same name would repeat an earlier one
        obtain ⟨m, hm, -, hmf⟩ := hnamed e he
        obtain rfl := Option.some.inj (hm.symm.trans hen)
        exact hmf List.mem_cons_self
    · rintro ⟨⟨⟨n, hn, hr, hfresh⟩, hnamed⟩, hnd⟩
      rw [List.filterMap_cons_some hn, List.nodup_cons] at hnd
      refine ⟨n, hn, hr, hfresh, ih.2 ⟨fun e he => ?_, hnd.2⟩⟩
      obtain ⟨m, hm, hmr, hmf⟩ := hnamed e he
      refine ⟨m, hm, hmr, fun hmem => ?_⟩
      rcases List.mem_cons.1 hmem with rfl | hmem
      · exact hnd.1 (List.mem_filterMap.2 ⟨e, he, hm⟩)
      · exact hmf hmem

def wordLines (d : Definition) : List (List Word) := d.headerWords :: d.statements.map (·.words)

theorem erase_withStatements (d : Definition) (ss : List Statement) :
    (d.withStatements ss).erase =
      ⟨d.name.map Located.erase, d.parameters.map Located.erase, ss.map Statement.erase,
        default⟩ := rfl

theorem Printable.withStatements {d : Definition} (h : d.Printable) {ss : List Statement}
    (hs : Statement.AllReadable (d.parameters.map (·.val)) ss) : (d.withStatements ss).Printable :=
  ⟨h.name, h.parameters, h.length, hs⟩

theorem WellFormed.withStatements {d : Definition} (h : d.WellFormed) {ss : List Statement}
    (hs : Statement.AllSound (d.parameters.map (·.val)) ss) : (d.withStatements ss).WellFormed :=
  ⟨h.name, h.parameters, h.length, h.distinct, hs⟩

theorem Printable.isHeader_words {d : Definition} (h : d.Printable) :
    ∀ s ∈ d.statements, Word.isHeader s.words = false := h.body.isHeader_words

theorem Printable.canonical_words {d : Definition} (h : d.Printable) :
    (d.statements.map (·.words)).map Word.canonical = d.statements.map (·.words) := by
  rw [List.map_map]
  exact List.map_congr_left fun s hs => Word.canonical_of_not_isHeader (h.isHeader_words s hs)

theorem Printable.canonical_wordLines {d : Definition} (h : d.Printable) :
    d.wordLines.map Word.canonical = d.wordLines := by
  rw [wordLines, List.map_cons, d.canonical_headerWords, h.canonical_words]

theorem WellFormed.printable {d : Definition} (h : d.WellFormed) : d.Printable :=
  ⟨fun n hn => (h.name n hn).1, h.parameters, h.length, h.body.allReadable⟩

theorem printable_empty (span : Span) : (empty span).Printable where
  name n hn := by cases hn
  parameters p hp := by cases hp
  length := .inl rfl
  body := trivial

end Definition

namespace Program

/-- A program that reading a text can leave. -/
structure Printable (p : Program) : Prop where
  definitions : ∀ d ∈ p.definitions, d.Printable
  named : Definition.AllNamed p.entry.nameText.toList p.subfunctions

def wordLines (p : Program) : List (List Word) := p.definitions.flatMap (·.wordLines)

variable {p : Program}

theorem WellFormed.printable (h : p.WellFormed) : p.Printable where
  definitions d hd := (h.definitions d hd).printable
  named := by
    have hdistinct := h.distinct
    rw [Program.definitions, List.filterMap_cons] at hdistinct
    refine Definition.allNamed_iff.2 ⟨fun d hd => ?_, ?_⟩
    · obtain ⟨n, hn⟩ := Option.ne_none_iff_exists'.1 (h.named d hd)
      have htext : d.nameText = some n.val := by
        rw [Definition.nameText, hn]
        rfl
      refine ⟨n.val, htext, ((h.definitions d (List.mem_cons_of_mem _ hd)).name n hn).2, ?_⟩
      cases he : p.entry.nameText with
      | none => simp
      | some m =>
        rw [he] at hdistinct
        have hfresh := (List.nodup_cons.1 hdistinct).1
        intro hmem
        obtain rfl : n.val = m := by simpa using hmem
        exact hfresh (List.mem_filterMap.2 ⟨d, hd, htext⟩)
    · cases he : p.entry.nameText with
      | none => rwa [he] at hdistinct
      | some m =>
        rw [he] at hdistinct
        exact (List.nodup_cons.1 hdistinct).2

theorem Printable.name_ne_none (h : p.Printable) : ∀ d ∈ p.subfunctions, d.name ≠ none := by
  intro d hmem hnone
  obtain ⟨n, hn, -⟩ := (Definition.allNamed_iff.1 h.named).1 d hmem
  rw [Definition.nameText, hnone] at hn
  cases hn

theorem Printable.nodup_names (h : p.Printable) :
    (p.definitions.filterMap (·.nameText)).Nodup := by
  obtain ⟨hnamed, hdistinct⟩ := Definition.allNamed_iff.1 h.named
  rw [Program.definitions, List.filterMap_cons]
  cases he : p.entry.nameText with
  | none => exact hdistinct
  | some m =>
    refine List.nodup_cons.2 ⟨fun hmem => ?_, hdistinct⟩
    obtain ⟨d, hd, hm⟩ := List.mem_filterMap.1 hmem
    obtain ⟨n, hn, -, hfresh⟩ := hnamed d hd
    obtain rfl := Option.some.inj (hn.symm.trans hm)
    rw [he] at hfresh
    exact hfresh List.mem_cons_self

theorem Printable.wellFormed (h : p.Printable) (hd : ∀ d ∈ p.definitions, d.WellFormed) :
    p.WellFormed :=
  ⟨hd, h.name_ne_none, h.nodup_names⟩

end Program

end ShapeAssembly
