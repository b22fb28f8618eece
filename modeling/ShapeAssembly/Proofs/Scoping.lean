import ShapeAssembly.Proofs.Reports

namespace ShapeAssembly

/-- The name that a line binds: the result of a statement that has no fault. -/
def Reading.boundName? (r : Reading) : Option String :=
  match r.fault? with
  | none => r.statement?.bind fun s => s.result.map (·.val)
  | some _ => none

namespace BodyLine

variable {scope : Scope} {line : BodyLine}

theorem readAll_append (scope : Scope) (lines more : List BodyLine) :
    readAll scope (lines ++ more) = readAll scope lines ++ readAll (scopeAfter scope lines) more := by
  induction lines generalizing scope with
  | nil => rfl
  | cons line lines ih =>
    rw [List.cons_append, readAll_cons, ih]
    rfl

/-- A line adds the name that it binds. -/
theorem names_read (scope : Scope) (line : BodyLine) :
    (line.read scope).2.names = scope.names ++ (line.read scope).1.boundName?.toList := by
  cases line with
  | blank | unreadable => exact (List.append_nil _).symm
  | content source first rest =>
    have h := Statement.parse_read source scope (first :: rest)
    rw [read]
    generalize Statement.parse source scope (first :: rest) = r at h
    cases h with
    | failed | incomplete => exact (List.append_nil _).symm
    | parsed _ _ hb => exact Statement.Head.names_of_bind hb

/-- Lines add the names that they bind in their order. -/
theorem names_scopeAfter (scope : Scope) (lines : List BodyLine) :
    (scopeAfter scope lines).names =
      scope.names ++ (readAll scope lines).filterMap (·.boundName?) := by
  induction lines generalizing scope with
  | nil => exact (List.append_nil _).symm
  | cons line lines ih =>
    rw [scopeAfter, List.foldl_cons, ← scopeAfter, ih, names_read, readAll_cons, filterMap_cons_toList,
      List.append_assoc]

theorem exists_of_mem_readAll {lines : List BodyLine} {r : Reading} (h : r ∈ readAll scope lines) :
    ∃ before line rest, lines = before ++ line :: rest ∧
      r = (line.read (scopeAfter scope before)).1 := by
  induction lines generalizing scope with
  | nil => cases h
  | cons line lines ih =>
    rcases List.mem_cons.1 h with rfl | h
    · exact ⟨[], line, lines, rfl, rfl⟩
    · obtain ⟨before, l, rest, rfl, hr⟩ := ih h
      exact ⟨line :: before, l, rest, rfl, hr⟩

/-- A variable that a line calls unbound is not in scope. -/
theorem not_mem_of_unbound {f : Fault} (hf : (line.read scope).1.fault? = some f) {n : String}
    (hn : f.cause = .unboundVariable n) : n ∉ scope.names := by
  cases line with
  | blank => cases hf
  | unreadable =>
    cases hf
    cases hn
  | content source first rest =>
    exact (Statement.fits_of_parse Span.merges_true (fun _ _ => trivial) (List.cons_ne_nil _ _)
      hf).unbound n hn

end BodyLine

namespace Opening

def parameters : Opening → List Name
  | readable source h => (h.parameters source).1
  | unreadable .. => []

def scope (o : Opening) : Scope := (Scope.empty.defineAll .parameter o.parameters).1

theorem parameters_read (o : Opening) (isEntry : Bool) (earlier : List String) :
    (o.read isEntry earlier).definition.parameters = o.parameters := by
  cases o <;> rfl

theorem scope_read (o : Opening) (isEntry : Bool) (earlier : List String) :
    (o.read isEntry earlier).scope = o.scope := by
  cases o <;> rfl

theorem names_scope (o : Opening) : o.scope.names = (o.parameters.map (·.val)).eraseDups := by
  have hall : (o.parameters.map (·.val)).filter (· ∉ Scope.empty.names) =
      o.parameters.map (·.val) := List.filter_eq_self.2 fun _ _ => rfl
  rw [scope, Scope.names_defineAll, hall]
  rfl

/-- What is wrong with a header has nothing to do with variables that are used. -/
theorem ne_unbound {o : Opening} {isEntry : Bool} {earlier : List String} {f : Fault}
    (hf : f ∈ (o.read isEntry earlier).nameFault?.toList ++ (o.read isEntry earlier).listFaults)
    (n : String) : f.cause ≠ .unboundVariable n := by
  cases o with
  | unreadable source string =>
    obtain rfl := List.mem_singleton.1 hf
    exact fun h => by cases h
  | readable source h =>
    -- with every name taken for bound, no fault can call one unbound
    have hfits : f.Fits (fun _ => True) fun _ => True := by
      rw [read_readable, List.mem_append, List.mem_append] at hf
      rcases hf with hf | hf | hf
      · exact Header.fits_of_nameFault? trivial (fun _ _ => trivial) (Option.mem_toList.1 hf)
      · rw [Header.faults_parameters, Option.mem_toList, Header.listFault?] at hf
        split at hf
        · cases hf
        · rename_i hr
          cases hf
          exact (Header.ends_readParameters Span.merges_true trivial (fun _ _ => trivial) fun _ _ =>
            trivial).fault hr
      · have hempty : ∀ x, x ∈ Scope.empty.names ↔ x ∈ [] := fun _ => Iff.rfl
        rw [Scope.faults_defineAll .parameter hempty] at hf
        obtain ⟨m, -, rfl⟩ := List.mem_map.1 hf
        exact ⟨trivial, fun n hn => by cases hn⟩
    exact fun hn => hfits.unbound n hn trivial

end Opening

namespace Block

/-- The distinct parameters of a block, and then the names that some lines of its body bind. -/
def boundNames (b : Block) (lines : List BodyLine) : List String :=
  (b.opening.parameters.map (·.val)).eraseDups ++
    (BodyLine.readAll b.opening.scope lines).filterMap (·.boundName?)

def scopeAfter (b : Block) (lines : List BodyLine) : Scope :=
  BodyLine.scopeAfter b.opening.scope lines

theorem names_scopeAfter (b : Block) (lines : List BodyLine) :
    (b.scopeAfter lines).names = b.boundNames lines := by
  rw [scopeAfter, BodyLine.names_scopeAfter, Opening.names_scope]
  rfl

/-- A line of a block calls a variable unbound that is neither a parameter of the block nor the
result of a complete statement in the lines before. -/
def CallsUnbound (b : Block) (d : Diagnostic) : Prop :=
  ∃ before line rest, b.body = before ++ line :: rest ∧
    ∃ f n, (line.read (b.scopeAfter before)).1.fault? = some f ∧ f.diagnostic = d ∧
      f.cause = .unboundVariable n ∧ n ∉ b.boundNames before

theorem callsUnbound_of_mem_faults {b : Block} {isEntry : Bool} {earlier : List String} {f : Fault}
    (hf : f ∈ (b.read isEntry earlier).faults) {n : String} (hn : f.cause = .unboundVariable n) :
    b.CallsUnbound f.diagnostic := by
  rcases List.mem_append.1 hf with hf | hf
  · exact absurd hn (Opening.ne_unbound hf n)
  · obtain ⟨r, hr, hrf⟩ := List.mem_filterMap.1 hf
    rw [Opening.scope_read] at hr
    obtain ⟨before, line, rest, hbody, rfl⟩ := BodyLine.exists_of_mem_readAll hr
    refine ⟨before, line, rest, hbody, f, n, hrf, rfl, hn, ?_⟩
    rw [← names_scopeAfter]
    exact BodyLine.not_mem_of_unbound hrf hn

/-- A definition after the entry is the one of its block. -/
theorem exists_definition_of_mem_readLater {earlier : List String} {blocks : List Block}
    {d : Definition} (hd : d ∈ (readLater earlier blocks).1) :
    ∃ b ∈ blocks, ∃ names, (b.read false names).definition = d := by
  induction blocks generalizing earlier with
  | nil => cases hd
  | cons b rest ih =>
    have hrest (hd : d ∈ (readLater (b.opening.nameText?.toList ++ earlier) rest).1) :
        ∃ c ∈ b :: rest, ∃ names, (c.read false names).definition = d := by
      obtain ⟨c, hc, h⟩ := ih hd
      exact ⟨c, List.mem_cons_of_mem b hc, h⟩
    rw [readLater_cons] at hd
    dsimp only at hd
    split at hd
    · rcases List.mem_cons.1 hd with rfl | hd
      · exact ⟨b, List.mem_cons_self, earlier, rfl⟩
      · exact hrest hd
    · exact hrest hd

theorem exists_of_mem_readLater {earlier : List String} {blocks : List Block} {f : Fault}
    (hf : f ∈ (readLater earlier blocks).2) :
    ∃ b ∈ blocks, ∃ names, f ∈ (b.read false names).faults := by
  induction blocks generalizing earlier with
  | nil => cases hf
  | cons b rest ih =>
    rw [readLater_cons, List.mem_append] at hf
    rcases hf with hf | hf
    · exact ⟨b, List.mem_cons_self, earlier, hf⟩
    · obtain ⟨c, hc, h⟩ := ih hf
      exact ⟨c, List.mem_cons_of_mem b hc, h⟩

end Block

theorem Context.exists_of_mem_blockFaults {blocks : List Block} {f : Fault}
    (hf : f ∈ blockFaults blocks) :
    ∃ b ∈ blocks, ∃ isEntry earlier, f ∈ (b.read isEntry earlier).faults := by
  cases blocks with
  | nil => cases hf
  | cons entry rest =>
    rcases List.mem_append.1 hf with hf | hf
    · exact ⟨entry, List.mem_cons_self, true, [], hf⟩
    · obtain ⟨b, hb, names, h⟩ := Block.exists_of_mem_readLater hf
      exact ⟨b, List.mem_cons_of_mem entry hb, false, names, h⟩

namespace Statement

/-- What a statement uses is among the names before it, and what it binds is usable and not among
them. -/
structure IsScoped (names : List String) (s : Statement) : Prop where
  uses : ∀ a ∈ s.variableArguments, a.value = .name a.raw.val ∧ a.raw.val ∈ names
  binds : ∀ n ∈ s.binds, isReserved n = false ∧ n ∉ names

theorem IsReadable.isScoped {names : List String} {s : Statement} (h : s.IsReadable names) :
    s.IsScoped names := by
  rcases h with h | h
  · refine ⟨fun a ha => ?_, fun n hn => ?_⟩
    · obtain ⟨ha, hk⟩ := List.mem_filter.1 ha
      have hk := of_decide_eq_true hk
      exact ⟨((h.read a ha).value_name (.inr (.inr hk))).1, h.bound a ha hk⟩
    · rw [h.binds, Option.mem_toList, Option.map_eq_some_iff] at hn
      obtain ⟨r, hr, rfl⟩ := hn
      exact ⟨(h.result r hr).1.2, (h.result r hr).2⟩
  · refine ⟨fun a ha => ?_, fun n hn => ?_⟩
    · rw [variableArguments, h.arguments] at ha
      cases ha
    · rw [h.binds] at hn
      cases hn

theorem AllReadable.of_append {names : List String} {before rest : List Statement} {s : Statement}
    (h : AllReadable names (before ++ s :: rest)) :
    s.IsReadable (names ++ before.flatMap (·.binds)) := by
  induction before generalizing names with
  | nil =>
    rw [List.flatMap_nil, List.append_nil]
    exact h.1
  | cons t before ih =>
    rw [List.flatMap_cons, ← List.append_assoc]
    exact ih h.2

end Statement

def Definition.IsScoped (d : Definition) : Prop :=
  ∀ before s rest, d.statements = before ++ s :: rest →
    s.IsScoped (d.parameters.map (·.val) ++ before.flatMap (·.binds))

theorem Definition.Printable.isScoped {d : Definition} (h : d.Printable) : d.IsScoped := by
  intro before s rest hs
  have hbody := h.body
  rw [hs] at hbody
  exact hbody.of_append.isScoped

namespace Program

theorem exists_block_of_mem_definitions {loose : List BodyLine} {blocks : List Block}
    (hblocks : blocks ≠ []) {d : Definition} (hd : d ∈ (readBlocks loose blocks).1.definitions) :
    ∃ b ∈ blocks, ∃ isEntry earlier, (b.read isEntry earlier).definition = d := by
  cases blocks with
  | nil => exact absurd rfl hblocks
  | cons entry rest =>
    rcases List.mem_cons.1 hd with rfl | hd
    · exact ⟨entry, List.mem_cons_self, true, [], rfl⟩
    · obtain ⟨b, hb, names, h⟩ := Block.exists_definition_of_mem_readLater hd
      exact ⟨b, List.mem_cons_of_mem entry hb, false, names, h⟩

theorem exists_callsUnbound {text : String} {d : Diagnostic} (hd : d ∈ (parse text).diagnostics)
    (hc : d.code = .unboundVariable) :
    ∃ b ∈ (Block.group ((Excerpt.whole text).lines.map Line.ofExcerpt)).2, b.CallsUnbound d := by
  obtain ⟨f, hf, rfl⟩ := List.mem_map.1 ((diagnostics_perm text).mem_iff.1 hd)
  obtain ⟨n, hn⟩ : ∃ n, f.cause = .unboundVariable n := by
    have hcode : f.cause.code = .unboundVariable := hc
    cases hcause : f.cause with
    | unboundVariable n => exact ⟨n, rfl⟩
    | _ => rw [hcause] at hcode; cases hcode
  rw [Context.flatten_reports_start, List.mem_append, List.mem_append] at hf
  -- a line before the first header, a line of a block, or no header at all
  rcases hf with (hf | hf) | hf
  · obtain ⟨b, -, hb⟩ := List.mem_filterMap.1 hf
    cases b <;> cases hb <;> cases hn
  · obtain ⟨b, hb, isEntry, earlier, hf⟩ := Context.exists_of_mem_blockFaults hf
    exact ⟨b, hb, Block.callsUnbound_of_mem_faults hf hn⟩
  · rw [missingEntry] at hf
    split at hf
    · cases hf
    · obtain rfl := List.mem_singleton.1 hf
      cases hn

/-- The lines of a block are read one after the other, each in a scope that holds the distinct
parameters of the block and then what the lines before have bound. The block yields what its lines
do, and the definitions of a program are those of its blocks. So the statements of a definition use
and bind names as they have to, and the only variables that are called unbound are those that are
not bound before in their block. -/
theorem scopes_parse (text : String) :
    let blocks := (Block.group ((Excerpt.whole text).lines.map Line.ofExcerpt)).2
    let result := parse text
    (∀ b ∈ blocks, ∀ isEntry earlier,
      let heading := b.opening.read isEntry earlier
      heading.definition.parameters = b.opening.parameters ∧
        ∀ before line rest, b.body = before ++ line :: rest →
          let readings := BodyLine.readAll b.opening.scope before ++
            (line.read (b.scopeAfter before)).1 ::
              BodyLine.readAll (line.read (b.scopeAfter before)).2 rest
          (b.scopeAfter before).names = b.boundNames before ∧
            BodyLine.readAll heading.scope b.body = readings ∧
            (b.read isEntry earlier).definition =
              heading.definition.withStatements (readings.filterMap (·.statement?)) ∧
            (b.read isEntry earlier).faults =
              heading.nameFault?.toList ++ heading.listFaults ++ readings.filterMap (·.fault?)) ∧
      (blocks ≠ [] → ∀ d ∈ result.program.definitions,
        ∃ b ∈ blocks, ∃ isEntry earlier, (b.read isEntry earlier).definition = d) ∧
      (∀ d ∈ result.program.definitions, d.IsScoped) ∧
      ∀ d ∈ result.diagnostics, d.code = .unboundVariable → ∃ b ∈ blocks, b.CallsUnbound d := by
  intro blocks result
  refine ⟨?_, fun hblocks d hd => exists_block_of_mem_definitions hblocks hd,
    fun d hd => ((printable_parse text).definitions d hd).isScoped,
    fun d hd hc => exists_callsUnbound hd hc⟩
  intro b _ isEntry earlier heading
  refine ⟨b.opening.parameters_read isEntry earlier, ?_⟩
  intro before line rest hbody readings
  have hreadings : BodyLine.readAll heading.scope b.body = readings := by
    rw [hbody, Opening.scope_read, BodyLine.readAll_append, BodyLine.readAll_cons]
    rfl
  refine ⟨b.names_scopeAfter before, hreadings, ?_, ?_⟩
  · rw [Block.read, hreadings]
  · rw [Block.read, hreadings]

end Program

end ShapeAssembly
