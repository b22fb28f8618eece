import ShapeAssembly.Proofs.Bodies

namespace ShapeAssembly

namespace Scope

theorem define_eq (scope : Scope) (name : Name) (origin : Origin) :
    (name.val ∈ scope.names ∧
      scope.define name origin = .error ⟨.duplicateDefinition name.val, name.span⟩) ∨
      (name.val ∉ scope.names ∧
        scope.define name origin = .ok ⟨scope.bindings ++ [⟨name, origin⟩]⟩) := by
  by_cases h : name.val ∈ scope.names
  · exact .inl ⟨h, if_pos (by simpa [contains] using h)⟩
  · exact .inr ⟨h, if_neg (by simpa [contains] using h)⟩

theorem names_append (scope : Scope) (b : Binding) :
    (Scope.mk (scope.bindings ++ [b])).names = scope.names ++ [b.name.val] := by
  rw [names, List.map_append]
  rfl

/-- Of names that are equal the first is bound, if it is not bound before. -/
theorem names_defineAll (scope : Scope) (origin : Origin) (names : List Name) :
    (scope.defineAll origin names).1.names =
      scope.names ++ ((names.map (·.val)).filter (· ∉ scope.names)).eraseDups := by
  induction names generalizing scope with
  | nil => exact (List.append_nil _).symm
  | cons name rest ih =>
    rw [defineAll, List.map_cons]
    rcases define_eq scope name origin with ⟨hmem, h⟩ | ⟨hfree, h⟩
    · rw [List.filter_cons_of_neg (by simpa using hmem), ← ih, h]
    · -- the name that is bound now leaves the rest, as it does in `eraseDups`
      have hfilter : ∀ x, decide (x ∉ scope.names ++ [name.val]) =
          (!x == name.val && decide (x ∉ scope.names)) := by
        intro x
        rw [Bool.eq_iff_iff]
        simp [and_comm]
      rw [List.filter_cons_of_pos (by simpa using hfree), List.eraseDups_cons, List.filter_filter, h]
      simp only [ih, names_append, hfilter, List.append_assoc, List.singleton_append]

theorem mem_names_defineAll {scope : Scope} {origin : Origin} {names : List Name} {x : String} :
    x ∈ (scope.defineAll origin names).1.names ↔ x ∈ scope.names ∨ x ∈ names.map (·.val) := by
  rw [names_defineAll, List.mem_append, List.mem_eraseDups, List.mem_filter]
  by_cases hx : x ∈ scope.names <;> simp [hx]

/-- Names are bound without a fault if they are fresh and distinct. -/
theorem defineAll_faults_eq_nil {scope : Scope} {origin : Origin} {names : List Name} :
    (scope.defineAll origin names).2 = [] ↔
      (names.map (·.val)).Nodup ∧ ∀ x ∈ names.map (·.val), x ∉ scope.names := by
  induction names generalizing scope with
  | nil => simp [defineAll]
  | cons name names ih =>
    rw [defineAll, List.map_cons, List.nodup_cons, List.forall_mem_cons]
    rcases define_eq scope name origin with
      ⟨hmem, h⟩ | ⟨hfresh, h⟩
    · simp [h, hmem]
    · -- the others have to differ from this name as well
      simp only [h, ih, names_append, List.mem_append, List.mem_singleton, not_or]
      constructor
      · rintro ⟨hnd, hall⟩
        exact ⟨⟨fun hx => (hall _ hx).2 rfl, hnd⟩, hfresh, fun x hx => (hall x hx).1⟩
      · rintro ⟨⟨hnot, hnd⟩, -, hall⟩
        refine ⟨hnd, fun x hx => ⟨hall x hx, ?_⟩⟩
        rintro rfl
        exact hnot hx

end Scope

namespace Header

theorem nameFault?_eq_none {isEntry : Bool} {earlier : List String} {h : Header} :
    h.nameFault? isEntry earlier = none ↔
      (∀ n ∈ h.name, isReserved n.val = false ∧ n.val ∉ earlier) ∧ (h.name = none → isEntry) := by
  rw [nameFault?]
  cases h.name with
  | none => cases isEntry <;> simp
  | some n =>
    cases hr : isReserved n.val <;> by_cases he : n.val ∈ earlier <;> simp [hr, he]

variable {source : Excerpt} {h : Header}

theorem usable_parameters (source : Excerpt) (hl : ∀ t ∈ h.list, t.IsLexed) :
    ((h.parameters source).1 = [] ∨ (h.parameters source).1.length = 4) ∧
      ∀ p ∈ (h.parameters source).1, IsUsable p.val := by
  rw [parameters]
  split
  · rename_i names hr
    exact (words_of_readParameters hl hr).2
  · exact ⟨.inl rfl, by simp⟩

theorem words_of_parameters (hl : ∀ t ∈ h.list, t.IsLexed) (hf : (h.parameters source).2 = []) :
    h.list.map Token.word = Word.list ((h.parameters source).1.map (.ident ·.val)) := by
  rw [parameters] at hf ⊢
  split at hf
  · rename_i names hr
    exact (words_of_readParameters hl hr).1
  · cases hf

theorem parameters_of_words (source : Excerpt) {names : List Name}
    (hw : h.list.map Token.word = Word.list (names.map (.ident ·.val)))
    (hlen : names = [] ∨ names.length = 4) (hu : ∀ n ∈ names, IsUsable n.val) :
    (h.parameters source).1.map Located.erase = names.map Located.erase ∧
      (h.parameters source).2 = [] := by
  obtain ⟨names', hr, he⟩ := exists_readParameters source hw hlen hu
  rw [parameters, hr]
  exact ⟨he, rfl⟩

end Header

namespace Opening

variable {o : Opening} {isEntry : Bool} {earlier : List String}

theorem read_readable (source : Excerpt) (h : Header) :
    (readable source h).read isEntry earlier =
      ⟨⟨h.name, (h.parameters source).1, [], h.span⟩,
        (Scope.empty.defineAll .parameter (h.parameters source).1).1,
        h.nameFault? isEntry earlier,
        (h.parameters source).2 ++
          (Scope.empty.defineAll .parameter (h.parameters source).1).2⟩ := rfl

/-- What a header leaves can be printed, and its parameters are the names in scope. -/
theorem printable_read (isEntry : Bool) (earlier : List String) (ho : o.Lawful) :
    (o.read isEntry earlier).definition.Printable ∧
      ∀ x, x ∈ (o.read isEntry earlier).scope.names ↔
        x ∈ (o.read isEntry earlier).definition.parameters.map (·.val) := by
  cases ho with
  | @readable source ts header ht hh =>
    obtain ⟨-, hname, hlex⟩ := Header.words_of_ofTokens? (fun t => Excerpt.isLexed_of_mem ht) hh
    obtain ⟨hlen, husable⟩ := Header.usable_parameters source hlex
    rw [read_readable]
    refine ⟨⟨hname, husable, hlen, trivial⟩, fun x => ?_⟩
    rw [Scope.mem_names_defineAll]
    simp [Scope.empty, Scope.names]
  | unreadable =>
    refine ⟨⟨?_, ?_, .inl rfl, trivial⟩, fun x => Iff.rfl⟩
    · intro n hn
      cases hn
    · intro p hp
      cases hp

theorem nameText_read : (o.read isEntry earlier).definition.nameText = o.nameText? := by
  cases o <;> rfl

theorem name_of_read (hn : (o.read isEntry earlier).nameFault? = none) :
    (∀ n ∈ o.nameText?, isReserved n = false ∧ n ∉ earlier) ∧ (o.nameText? = none → isEntry) := by
  cases o with
  | unreadable => cases hn
  | readable source h =>
    obtain ⟨hname, hentry⟩ := Header.nameFault?_eq_none.1 hn
    rw [nameText?]
    cases hh : h.name with
    | none => simp [hentry hh]
    | some n => simpa using hname n hh

/-- A header without a fault spells what it is read as. -/
theorem wellFormed_read (ho : o.Lawful) (hn : (o.read isEntry earlier).nameFault? = none)
    (hf : (o.read isEntry earlier).listFaults = []) :
    (o.read isEntry earlier).definition.WellFormed ∧
      ∃ ws, o.words? = some ws ∧
        Word.canonical ws = (o.read isEntry earlier).definition.headerWords := by
  have hprint := (printable_read isEntry earlier ho).1
  cases ho with
  | unreadable => cases hn
  | @readable source ts header ht hh =>
    obtain ⟨hw, -, hlex⟩ := Header.words_of_ofTokens? (fun t => Excerpt.isLexed_of_mem ht) hh
    rw [read_readable] at hprint hn hf ⊢
    obtain ⟨hlist, hrepeat⟩ := List.append_eq_nil_iff.1 hf
    obtain ⟨hname, -⟩ := Header.nameFault?_eq_none.1 hn
    refine ⟨⟨fun n hmem => ⟨hprint.name n hmem, (hname n hmem).1⟩, hprint.parameters,
      hprint.length, (Scope.defineAll_faults_eq_nil.1 hrepeat).1, trivial⟩, _,
      Excerpt.words?_of_tokens ht, ?_⟩
    rw [hw, Header.words_of_parameters hlex hlist]
    rfl

/-- A header that spells a definition is read as it. -/
theorem read_of_words (isEntry : Bool) (earlier : List String) (ho : o.Lawful) {ws : List Word}
    (hw : o.words? = some ws) {d : Definition} (hc : Word.canonical ws = d.headerWords)
    (hd : d.Printable) :
    (o.read isEntry earlier).definition.name.map Located.erase = d.name.map Located.erase ∧
      (o.read isEntry earlier).definition.parameters.map Located.erase =
        d.parameters.map Located.erase ∧
      ((d.parameters.map (·.val)).Nodup → (o.read isEntry earlier).listFaults = []) := by
  cases ho with
  | unreadable => cases hw
  | @readable source ts header ht hh =>
    rw [words?, Excerpt.words?_of_tokens ht] at hw
    obtain rfl := Option.some.inj hw
    obtain ⟨header', hh', hname, hlist⟩ := Header.exists_ofTokens? hc
    rw [hh] at hh'
    obtain rfl := Option.some.inj hh'
    obtain ⟨he, hnil⟩ := Header.parameters_of_words source hlist hd.length hd.parameters
    rw [read_readable]
    refine ⟨Located.map_erase_inj.2 hname, he, fun hnd => ?_⟩
    rw [← Located.map_val_of_map_erase he] at hnd
    simp only [hnil, List.nil_append]
    refine Scope.defineAll_faults_eq_nil.2 ⟨hnd, fun x _ => ?_⟩
    exact List.not_mem_nil

theorem nameFault_of_words (ho : o.Lawful) {ws : List Word} (hw : o.words? = some ws)
    (hn : ∀ n ∈ o.nameText?, isReserved n = false ∧ n ∉ earlier)
    (he : o.nameText? = none → isEntry) : (o.read isEntry earlier).nameFault? = none := by
  cases ho with
  | unreadable => cases hw
  | @readable source ts header ht hh =>
    refine Header.nameFault?_eq_none.2 ⟨fun n hmem => hn n.val ?_, fun hnone => he ?_⟩
    · rw [nameText?, Option.mem_def.1 hmem]
      rfl
    · rw [nameText?, hnone]
      rfl

end Opening

namespace Block

def wordLines (b : Block) : List (Option (List Word)) :=
  b.opening.words? :: b.body.flatMap BodyLine.wordLines

def Lawful (b : Block) : Prop := b.opening.Lawful ∧ ∀ l ∈ b.body, l.Lawful

structure Spells (b : Block) (d : Definition) : Prop where
  opening : ∃ ws, b.opening.words? = some ws ∧ Word.canonical ws = d.headerWords
  body : b.body.flatMap BodyLine.wordLines = d.statements.map (some ·.words)

variable {b : Block} {isEntry : Bool} {earlier : List String}

theorem nameText_read (isEntry : Bool) (earlier : List String) (b : Block) :
    (b.read isEntry earlier).definition.nameText = b.opening.nameText? :=
  Opening.nameText_read

theorem named_eq_true : (b.read isEntry earlier).named = true ↔
    (b.opening.read isEntry earlier).nameFault? = none :=
  Option.isNone_iff_eq_none

theorem printable_read (hb : b.Lawful) : (b.read isEntry earlier).definition.Printable := by
  obtain ⟨hprint, hnames⟩ :=
    Opening.printable_read isEntry earlier hb.1
  exact hprint.withStatements ((BodyLine.allReadable_readAll hb.2).congr hnames)

/-- A block without a fault spells what it is read as. -/
theorem spells_read (hb : b.Lawful) (hf : (b.read isEntry earlier).faults = []) :
    (b.read isEntry earlier).definition.WellFormed ∧ b.Spells (b.read isEntry earlier).definition ∧
      (b.opening.read isEntry earlier).nameFault? = none := by
  obtain ⟨hheading, hbody⟩ := List.append_eq_nil_iff.1 hf
  obtain ⟨hname, hlist⟩ := List.append_eq_nil_iff.1 hheading
  have hname := Option.toList_eq_nil_iff.1 hname
  obtain ⟨hwf, ws, hws, hc⟩ := Opening.wellFormed_read hb.1 hname hlist
  obtain ⟨hsound, hw⟩ := BodyLine.allSound_readAll hb.2 hbody
  have hnames := (Opening.printable_read isEntry earlier hb.1).2
  exact ⟨hwf.withStatements (hsound.congr hnames), ⟨⟨ws, hws, hc⟩, hw⟩, hname⟩

/-- A block that spells a definition is read as it. -/
theorem read_of_spells (isEntry : Bool) (earlier : List String) (hb : b.Lawful) {d : Definition}
    (hs : b.Spells d) (hd : d.Printable) :
    (b.read isEntry earlier).definition.erase = d.erase ∧
      (d.WellFormed → (b.opening.read isEntry earlier).nameFault? = none →
        (b.read isEntry earlier).faults = []) := by
  obtain ⟨ws, hws, hc⟩ := hs.opening
  obtain ⟨hname, hparams, hlist⟩ :=
    Opening.read_of_words isEntry earlier hb.1 hws hc hd
  have hnames : ∀ x, x ∈ d.parameters.map (·.val) ↔
      x ∈ (b.opening.read isEntry earlier).scope.names := by
    intro x
    rw [(Opening.printable_read isEntry earlier hb.1).2, Located.map_val_of_map_erase hparams]
  obtain ⟨hstatements, hfaults⟩ := BodyLine.readAll_of_words hb.2 hs.body (hd.body.congr hnames)
  refine ⟨?_, fun hwf hfault => ?_⟩
  · refine (Definition.erase_withStatements _ _).trans ?_
    rw [hname, hparams, hstatements]
    rfl
  · refine List.append_eq_nil_iff.2 ⟨?_, hfaults (hwf.body.congr hnames)⟩
    rw [hfault, hlist hwf.distinct]
    rfl

/-- Grouping keeps every line. -/
theorem wordLines_group (lines : List Line) :
    lines.flatMap Line.wordLines =
      (group lines).1.flatMap BodyLine.wordLines ++ (group lines).2.flatMap wordLines := by
  induction lines with
  | nil => rfl
  | cons line rest ih =>
    rw [List.flatMap_cons, ih]
    cases line with
    | opening o => rfl
    | body l => exact (List.append_assoc _ _ _).symm

theorem lawful_group {lines : List Line} (hl : ∀ l ∈ lines, l.Lawful) :
    (∀ l ∈ (group lines).1, l.Lawful) ∧ ∀ b ∈ (group lines).2, b.Lawful := by
  induction lines with
  | nil => exact ⟨by simp [group], by simp [group]⟩
  | cons line rest ih =>
    obtain ⟨hloose, hblocks⟩ := ih fun l hmem => hl l (List.mem_cons_of_mem line hmem)
    have hline := hl line List.mem_cons_self
    cases line with
    | opening o =>
      refine ⟨by simp [group], fun b hb => ?_⟩
      rcases List.mem_cons.1 hb with rfl | hb
      · exact ⟨hline, hloose⟩
      · exact hblocks b hb
    | body l =>
      refine ⟨fun l' hmem => ?_, hblocks⟩
      rcases List.mem_cons.1 hmem with rfl | hmem
      · exact hline
      · exact hloose l' hmem

/-- Lines that spell statements and then definitions are grouped that way. -/
theorem spells_group {lines : List Line} (hl : ∀ l ∈ lines, l.Lawful) {ls : List (List Word)}
    (hw : lines.flatMap Line.wordLines = ls.map some) {ss : List Statement}
    {ds : List Definition} (hs : ∀ s ∈ ss, Word.isHeader s.words = false)
    (hd : ∀ d ∈ ds, ∀ s ∈ d.statements, Word.isHeader s.words = false)
    (hc : ls.map Word.canonical = ss.map (·.words) ++ ds.flatMap (·.wordLines)) :
    (group lines).1.flatMap BodyLine.wordLines = ss.map (some ·.words) ∧
      List.Forall₂ Spells (group lines).2 ds := by
  induction lines generalizing ls ss ds with
  | nil =>
    obtain rfl : ls = [] := by simpa using hw
    obtain ⟨hss, hds⟩ := List.append_eq_nil_iff.1 hc.symm
    obtain rfl := List.map_eq_nil_iff.1 hss
    cases ds with
    | nil => exact ⟨rfl, .nil⟩
    | cons d ds => cases hds
  | cons line rest ih =>
    have ih := @ih fun l hmem => hl l (List.mem_cons_of_mem line hmem)
    have hline := hl line List.mem_cons_self
    rw [List.flatMap_cons] at hw
    cases line with
    | opening o =>
      -- no statement is left, and the next definition starts
      obtain ⟨ws, ls', rfl, ho, hrest⟩ := List.map_eq_cons_iff.1 hw.symm
      have hhead := Opening.Lawful.isHeader hline ho.symm
      rw [← Word.isHeader_canonical] at hhead
      match ss, ds with
      | [], [] => cases hc
      | [], d :: ds =>
        obtain ⟨hheader, hlater⟩ := List.cons.inj hc
        obtain ⟨hbody, hblocks⟩ := ih hrest.symm (hd d List.mem_cons_self)
          (fun e he => hd e (List.mem_cons_of_mem d he)) hlater
        exact ⟨rfl, .cons ⟨⟨ws, ho.symm, hheader⟩, hbody⟩ hblocks⟩
      | s :: ss, ds =>
        rw [(List.cons.inj hc).1, hs s List.mem_cons_self] at hhead
        cases hhead
    | body l =>
      cases hline with
      | blank => exact ih hw hs hd hc
      | unreadable =>
        obtain ⟨ws, -, -, hnone, -⟩ := List.map_eq_cons_iff.1 hw.symm
        cases hnone
      | @content source first toks hlex hh =>
        -- a line that is no header spells the next statement
        obtain ⟨ws, ls', rfl, hfirst, hrest⟩ := List.map_eq_cons_iff.1 hw.symm
        have hno := BodyLine.Lawful.isHeader_eq_false (b := .content source first toks)
          (.content hlex hh) (List.mem_singleton.2 hfirst)
        rw [List.map_cons, Word.canonical_of_not_isHeader hno] at hc
        match ss, ds with
        | [], [] => cases hc
        | [], d :: ds =>
          rw [(List.cons.inj hc).1, d.isHeader_headerWords] at hno
          cases hno
        | s :: ss, ds =>
          obtain ⟨hword, hlater⟩ := List.cons.inj hc
          obtain ⟨hbody, hblocks⟩ := ih hrest.symm (fun t ht => hs t (List.mem_cons_of_mem s ht)) hd
            hlater
          refine ⟨?_, hblocks⟩
          have hsome : some s.words = some ws := congrArg some hword.symm
          rw [List.map_cons, hsome, hfirst, ← hbody]
          rfl

/-- The lines of blocks that spell definitions. -/
theorem exists_words {blocks : List Block} {ds : List Definition}
    (h : List.Forall₂ Spells blocks ds) (hd : ∀ d ∈ ds, d.Printable) :
    ∃ ls : List (List Word), blocks.flatMap wordLines = ls.map some ∧
      ls.map Word.canonical = ds.flatMap (·.wordLines) := by
  induction h with
  | nil => exact ⟨[], rfl, rfl⟩
  | @cons b d blocks ds hspells _ ih =>
    obtain ⟨hfirst, hrest⟩ := List.forall_mem_cons.1 hd
    obtain ⟨ls, hw, hc⟩ := ih hrest
    obtain ⟨ws, hws, hheader⟩ := hspells.opening
    refine ⟨ws :: (d.statements.map (·.words) ++ ls), ?_, ?_⟩
    · rw [List.flatMap_cons, hw, wordLines, hws, hspells.body, List.map_cons, List.map_append,
        List.map_map, List.cons_append]
      rfl
    · rw [List.map_cons, hheader, List.map_append, hfirst.canonical_words, hc, List.flatMap_cons]
      rfl

end Block

end ShapeAssembly
