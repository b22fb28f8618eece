import ShapeAssembly.Program.Parser
import ShapeAssembly.Proofs.Blocks
import ShapeAssembly.Proofs.Printing

namespace ShapeAssembly

theorem Definition.nameText_erase (d : Definition) : d.erase.nameText = d.nameText := by
  rw [nameText, nameText, erase, Option.map_map]
  rfl

namespace Block

theorem readLater_cons (earlier : List String) (b : Block) (rest : List Block) :
    readLater earlier (b :: rest) =
      (if (b.read false earlier).named then (b.read false earlier).definition ::
          (readLater (b.opening.nameText?.toList ++ earlier) rest).1
        else (readLater (b.opening.nameText?.toList ++ earlier) rest).1,
        (b.read false earlier).faults ++
          (readLater (b.opening.nameText?.toList ++ earlier) rest).2) := rfl

/-- A block after the entry that is kept has a name that no earlier one has. -/
theorem exists_name {b : Block} {earlier : List String}
    (h : (b.opening.read false earlier).nameFault? = none) :
    ∃ n, b.opening.nameText? = some n ∧ isReserved n = false ∧ n ∉ earlier := by
  obtain ⟨hname, hentry⟩ := Opening.name_of_read h
  cases hn : b.opening.nameText? with
  | none => cases hentry hn
  | some n => exact ⟨n, rfl, hname n hn⟩

/-- The definitions of any blocks can be printed. Blocks that are left out take their names
with them. -/
theorem printable_readLater (earlier : List String) {blocks : List Block}
    (hb : ∀ b ∈ blocks, b.Lawful) :
    (∀ d ∈ (readLater earlier blocks).1, d.Printable) ∧
      Definition.AllNamed earlier (readLater earlier blocks).1 := by
  induction blocks generalizing earlier with
  | nil => exact ⟨by simp [readLater], trivial⟩
  | cons b rest ih =>
    obtain ⟨hprint, hnamed⟩ := @ih (b.opening.nameText?.toList ++ earlier)
      fun c hc => hb c (List.mem_cons_of_mem b hc)
    rw [readLater_cons]
    split
    · rename_i hkept
      obtain ⟨n, hn, hr, hfresh⟩ := exists_name (named_eq_true.1 hkept)
      rw [hn] at hnamed hprint
      refine ⟨?_, n, (nameText_read _ _ b).trans hn, hr, hfresh, ?_⟩
      · rw [hn]
        exact List.forall_mem_cons.2 ⟨printable_read (hb b List.mem_cons_self), hprint⟩
      · rw [hn]
        exact hnamed
    · -- fewer names are taken for the blocks that follow
      exact ⟨hprint, hnamed.mono fun x hx => List.mem_append_right _ hx⟩

/-- Blocks without a fault spell the definitions that they are read as. -/
theorem spells_readLater {earlier : List String} {blocks : List Block}
    (hb : ∀ b ∈ blocks, b.Lawful) (hf : (readLater earlier blocks).2 = []) :
    List.Forall₂ Spells blocks (readLater earlier blocks).1 ∧
      ∀ d ∈ (readLater earlier blocks).1, d.WellFormed := by
  induction blocks generalizing earlier with
  | nil => exact ⟨.nil, by simp [readLater]⟩
  | cons b rest ih =>
    rw [readLater_cons] at hf ⊢
    obtain ⟨hfirst, hrest⟩ := List.append_eq_nil_iff.1 hf
    obtain ⟨hwf, hspells, hname⟩ := spells_read (hb b List.mem_cons_self) hfirst
    obtain ⟨hall, hwfs⟩ := ih (fun c hc => hb c (List.mem_cons_of_mem b hc)) hrest
    rw [if_pos (named_eq_true.2 hname)]
    exact ⟨.cons hspells hall, List.forall_mem_cons.2 ⟨hwf, hwfs⟩⟩

theorem nameText_of_spells {b : Block} (hb : b.Lawful) {d : Definition} (hs : b.Spells d)
    (hd : d.Printable) : b.opening.nameText? = d.nameText := by
  have he := (read_of_spells true [] hb hs hd).1
  rw [← nameText_read true [], ← Definition.nameText_erase, he,
    Definition.nameText_erase]

/-- Blocks that spell definitions are read as these. -/
theorem readLater_of_spells {earlier : List String} {blocks : List Block} {ds : List Definition}
    (hb : ∀ b ∈ blocks, b.Lawful) (hs : List.Forall₂ Spells blocks ds)
    (hd : ∀ d ∈ ds, d.Printable) (hn : Definition.AllNamed earlier ds) :
    (readLater earlier blocks).1.map Definition.erase = ds.map Definition.erase ∧
      ((∀ d ∈ ds, d.WellFormed) → (readLater earlier blocks).2 = []) := by
  induction hs generalizing earlier with
  | nil => exact ⟨rfl, fun _ => rfl⟩
  | @cons b d rest ds hspells hall ih =>
    obtain ⟨n, hname, hr, hfresh, hnamed⟩ := hn
    have hlawful := hb b List.mem_cons_self
    have hprint := hd d List.mem_cons_self
    have htext := nameText_of_spells hlawful hspells hprint
    rw [hname] at htext
    -- so the block is kept
    have hfault : (b.opening.read false earlier).nameFault? = none := by
      obtain ⟨ws, hws, -⟩ := hspells.opening
      apply Opening.nameFault_of_words hlawful.1 hws
      · rw [htext]
        intro m hm
        obtain rfl := Option.some.inj hm
        exact ⟨hr, hfresh⟩
      · rw [htext]
        exact fun hnone => absurd hnone (Option.some_ne_none n)
    obtain ⟨he, hfaults⟩ :=
      read_of_spells false earlier hlawful hspells hprint
    obtain ⟨herest, hfrest⟩ := @ih (n :: earlier)
      (fun c hc => hb c (List.mem_cons_of_mem b hc)) (fun e he => hd e (List.mem_cons_of_mem d he))
      hnamed
    rw [readLater_cons, if_pos (named_eq_true.2 hfault), htext]
    refine ⟨?_, fun hwf => ?_⟩
    · rw [List.map_cons, he, List.map_cons, ← herest]
      rfl
    · rw [List.forall_mem_cons] at hwf
      exact List.append_eq_nil_iff.2 ⟨hfaults hwf.1 hfault, hfrest hwf.2⟩

end Block

theorem stableSort_eq_nil {α : Type} {le : α → α → Bool} {as : List α} :
    stableSort le as = [] ↔ as = [] := by
  have hperm := stableSort_perm le as
  constructor
  · intro h
    rw [h] at hperm
    exact hperm.symm.eq_nil
  · rintro rfl
    rfl

theorem BodyLine.looseFaults_eq_nil {loose : List BodyLine} :
    loose.filterMap looseFault? = [] ↔ loose.flatMap wordLines = [] := by
  rw [List.filterMap_eq_nil_iff, List.flatMap_eq_nil_iff]
  apply forall_congr'
  intro l
  apply imp_congr_right
  intro _
  cases l <;> simp [looseFault?, wordLines]

namespace Program

variable {p : Program} {blocks : List Block} {loose : List BodyLine}

theorem printable_readBlocks (loose : List BodyLine) (hb : ∀ b ∈ blocks, b.Lawful) :
    (readBlocks loose blocks).1.Printable := by
  cases blocks with
  | nil =>
    refine ⟨fun d hd => ?_, trivial⟩
    obtain rfl := List.mem_singleton.1 hd
    exact Definition.printable_empty _
  | cons entry rest =>
    obtain ⟨hentry, hrest⟩ := List.forall_mem_cons.1 hb
    obtain ⟨hprint, hnamed⟩ :=
      Block.printable_readLater entry.opening.nameText?.toList hrest
    refine ⟨List.forall_mem_cons.2 ⟨Block.printable_read hentry, hprint⟩, ?_⟩
    show Definition.AllNamed (entry.read true []).definition.nameText.toList _
    rw [Block.nameText_read]
    exact hnamed

theorem spells_readBlocks (hb : ∀ b ∈ blocks, b.Lawful) (hf : (readBlocks loose blocks).2 = []) :
    List.Forall₂ Block.Spells blocks (readBlocks loose blocks).1.definitions ∧
      (readBlocks loose blocks).1.WellFormed := by
  have hprint := printable_readBlocks loose hb
  cases blocks with
  | nil => cases hf
  | cons entry rest =>
    obtain ⟨hentry, hrest⟩ := List.forall_mem_cons.1 hb
    obtain ⟨hfirst, hlater⟩ := List.append_eq_nil_iff.1 hf
    obtain ⟨hwf, hspells, -⟩ := Block.spells_read hentry hfirst
    obtain ⟨hall, hwfs⟩ := Block.spells_readLater hrest hlater
    exact ⟨.cons hspells hall, hprint.wellFormed (List.forall_mem_cons.2 ⟨hwf, hwfs⟩)⟩

theorem readBlocks_of_spells (hb : ∀ b ∈ blocks, b.Lawful)
    (hs : List.Forall₂ Block.Spells blocks p.definitions) (hp : p.Printable) :
    (readBlocks loose blocks).1.erase = p.erase ∧
      (p.WellFormed → (readBlocks loose blocks).2 = []) := by
  cases hs with
  | @cons entry _ rest _ hspells hall =>
    obtain ⟨hentry, hrest⟩ := List.forall_mem_cons.1 hb
    obtain ⟨hfirst, hlater⟩ := List.forall_mem_cons.1 hp.definitions
    have htext := Block.nameText_of_spells hentry hspells hfirst
    obtain ⟨he, hfaults⟩ :=
      Block.read_of_spells true [] hentry hspells hfirst
    obtain ⟨herest, hfrest⟩ := Block.readLater_of_spells hrest hall hlater hp.named
    rw [← htext] at herest hfrest
    refine ⟨?_, fun hwf => ?_⟩
    · rw [erase, erase, ← he, ← herest]
      rfl
    · obtain ⟨hwfirst, hwrest⟩ := List.forall_mem_cons.1 hwf.definitions
      refine List.append_eq_nil_iff.2 ⟨hfaults hwfirst ?_, hfrest hwrest⟩
      obtain ⟨ws, hws, -⟩ := hspells.opening
      refine Opening.nameFault_of_words hentry.1 hws (fun n hn => ?_) fun _ => rfl
      rw [htext] at hn
      obtain ⟨m, hm, rfl⟩ := Option.map_eq_some_iff.1 hn
      exact ⟨(hwfirst.name m hm).2, List.not_mem_nil⟩

theorem ofLines_faults_eq_nil {lines : List Line} :
    (ofLines lines).2 = [] ↔ (Block.group lines).1.flatMap BodyLine.wordLines = [] ∧
      (readBlocks (Block.group lines).1 (Block.group lines).2).2 = [] := by
  rw [← BodyLine.looseFaults_eq_nil, ← List.append_eq_nil_iff]
  exact stableSort_eq_nil

/-- A text whose lines are those of a program, except that headers may be written in other ways. -/
def IsTextOf (p : Program) (text : String) : Prop :=
  ∃ ls : List (List Word), (Excerpt.whole text).content = ls.map some ∧
    ls.map Word.canonical = p.wordLines

theorem lawful_lines (text : String) :
    ∀ l ∈ (Excerpt.whole text).lines.map Line.ofExcerpt, l.Lawful :=
  List.forall_mem_map.2 fun e _ => Line.lawful_ofExcerpt e

theorem diagnostics_eq_nil {text : String} : (parse text).diagnostics = [] ↔
    (ofLines ((Excerpt.whole text).lines.map Line.ofExcerpt)).2 = [] :=
  List.map_eq_nil_iff

/-- The program of any text can be printed. -/
theorem printable_parse (text : String) : (parse text).program.Printable :=
  printable_readBlocks _ (Block.lawful_group (lawful_lines text)).2

/-- A text without a diagnostic is that of the program that is read from it. -/
theorem isTextOf_parse {text : String} (h : (parse text).diagnostics = []) :
    (parse text).program.WellFormed ∧ (parse text).program.IsTextOf text := by
  obtain ⟨hloose, hblocks⟩ := ofLines_faults_eq_nil.1 (diagnostics_eq_nil.1 h)
  have hlawful := (Block.lawful_group (lawful_lines text)).2
  obtain ⟨hspells, hwf⟩ := spells_readBlocks hlawful hblocks
  obtain ⟨ls, hw, hc⟩ := Block.exists_words hspells fun d hd => (hwf.definitions d hd).printable
  refine ⟨hwf, ls, ?_, hc⟩
  rw [Excerpt.content, ← Line.flatMap_wordLines, Block.wordLines_group, hloose, hw, List.nil_append]

/-- A text of a program is read as the program. -/
theorem parse_of_isTextOf {text : String} (ht : p.IsTextOf text) (hp : p.Printable) :
    (parse text).program.erase = p.erase ∧ (p.WellFormed → (parse text).diagnostics = []) := by
  obtain ⟨ls, hw, hc⟩ := ht
  rw [Excerpt.content, ← Line.flatMap_wordLines] at hw
  have hnone : ∀ s ∈ ([] : List Statement), Word.isHeader s.words = false := by simp
  obtain ⟨hloose, hspells⟩ := Block.spells_group (lawful_lines text) hw hnone
    (fun d hd => (hp.definitions d hd).isHeader_words) hc
  obtain ⟨he, hfaults⟩ :=
    readBlocks_of_spells (Block.lawful_group (lawful_lines text)).2 hspells hp
  exact ⟨he, fun hwf => diagnostics_eq_nil.2 (ofLines_faults_eq_nil.2 ⟨hloose, hfaults hwf⟩)⟩

/-- The printed text of a program is one of its texts. -/
theorem isTextOf_render (hp : p.Printable) (level : Nat) : p.IsTextOf (p.render level) := by
  refine ⟨p.wordLines, content_render hp level, ?_⟩
  rw [wordLines, List.map_flatMap]
  exact List.flatMap_congr fun d hd => (hp.definitions d hd).canonical_wordLines

end Program

end ShapeAssembly
