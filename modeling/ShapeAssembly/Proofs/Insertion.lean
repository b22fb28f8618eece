import ShapeAssembly.Proofs.Appending

namespace ShapeAssembly

def Outcome.binds : Outcome → Bool
  | parsed s => s.result.isSome
  | incomplete .. => false
  | failed _ => false

theorem BodyLine.boundName?_read {scope : Scope} {line : BodyLine}
    (h : ∀ o ∈ line.outcome? scope, o.binds = false) :
    (line.read scope).1.boundName? = none := by
  cases line with
  | blank | unreadable => rfl
  | content source first rest =>
    have hbinds := h _ rfl
    rw [read]
    generalize Statement.parse source scope (first :: rest) = r at hbinds
    obtain ⟨outcome, scope'⟩ := r
    cases outcome with
    | parsed s =>
      have hresult : s.result = none := by simpa [Outcome.binds] using hbinds
      simp [Outcome.statement?, Outcome.fault?, Reading.boundName?, hresult]
    | incomplete | failed => rfl

/-- Below a line that binds nothing, lines are read as if it were not there. -/
theorem Context.similar_next {c : Context} {line : Excerpt} (hl : line.isHeader = false)
    (h : ∀ scope ∈ c.scope?, ∀ o ∈ line.bodyLine.outcome? scope, o.binds = false) :
    c.Similar (c.next (Line.ofExcerpt line)) := by
  rw [next_body c hl]
  refine ⟨?_, rfl⟩
  rw [Option.map_map]
  apply Option.map_congr
  intro scope hscope
  rw [Function.comp_apply, BodyLine.names_read, BodyLine.boundName?_read (h scope hscope),
    Option.toList_none, List.append_nil]

def Excerpt.below (a l : String) : Excerpt := ⟨byteSize a.toList + 1, l.toList⟩

def Context.statement? (c : Context) (line : Excerpt) : Option Statement :=
  c.scope?.bind fun scope => (line.bodyLine.read scope).1.statement?

/-- A definition gets statements between those that end by `p` and those that start from `q` on,
and its span grows to cover them. -/
def Definition.Gains (added : List Statement) (p q : Nat) (d d' : Definition) : Prop :=
  ∃ ss us,
    d.statements = ss ++ us ∧
    d' = { d.extend added with statements := ss ++ added ++ us } ∧
    (∀ s ∈ ss, s.span.stop ≤ p) ∧ ∀ s ∈ us, q ≤ s.span.start

/-- A move of offsets that leaves those in `whole` and takes those from `n` on to `m`. -/
structure Moves (g : Nat → Nat) (whole : Span) (n m : Nat) : Prop where
  monotone : Monotone g
  stay : ∀ offset ≤ whole.stop, g offset = offset
  move : ∀ offset, g (shift n offset) = shift m offset

section

variable {above : List Excerpt} {line : Excerpt} {whole : Span} {n m : Nat}
  {g : Nat → Nat}

/-- A line that binds nothing, between others that it moves, adds at most its own diagnostic. -/
theorem Context.diagnostics_insert (hl : line.isHeader = false)
    (hwhole : ∀ l ∈ above, l.span.Within whole) (hg : Moves g whole n m) {below : List Excerpt}
    (hout : (above ++ below.map (·.relocate (shift n))).Pairwise fun a b => a.span.stop < b.start)
    (hin : (above ++ line :: below.map (·.relocate (shift m))).Pairwise
      fun a b => a.span.stop < b.start)
    (hs : (after above).Similar ((after above).next (Line.ofExcerpt line))) :
    ∃ ds es, ∃ d? : Option Diagnostic,
      (after []).diagnostics (above ++ below.map (·.relocate (shift n))) = ds ++ es ∧
      (after []).diagnostics (above ++ line :: below.map (·.relocate (shift m))) =
        ds.map (·.relocate g) ++ d?.toList ++ es.map (·.relocate g) ∧
      ∀ d ∈ d?, d.span.Within line.span := by
  obtain ⟨d?, hd⟩ := (after above).exists_diagnostics_singleton hl
  have habove : ((after []).diagnostics above).map (·.relocate g) =
      (after []).diagnostics above := by
    refine map_eq_self fun d hd => ?_
    obtain ⟨l, hl, hd⟩ := exists_of_mem_diagnostics hd
    exact Diagnostic.relocate_eq_self (hd.trans (hwhole l hl)) hg.stay
  refine ⟨(after []).diagnostics above,
    (after above).diagnostics (below.map (·.relocate (shift n))), d?, ?_, ?_, ?_⟩
  · exact diagnostics_append [] hout
  · have hlow := (List.pairwise_append.1 hin).2.1
    rw [diagnostics_append [] hin, habove, List.append_assoc, ← List.singleton_append,
      List.nil_append, diagnostics_append above hlow, hd, after_append_singleton,
      diagnostics_shift hg.move hs]
  · intro d hmem
    have hmem : d ∈ (after above).diagnostics [line] := hd ▸ Option.mem_toList.2 hmem
    obtain ⟨l, hl, hd⟩ := exists_of_mem_diagnostics hmem
    rwa [List.mem_singleton.1 hl] at hd

/-- The block that is open above such a line gets at most the statement of the line. -/
theorem Block.rel_insert {op : Opening} {body : List BodyLine} {added : BodyLine}
    (hop : Line.IsIn whole (.opening op)) (hbody : ∀ l ∈ body, Line.IsIn whole (.body l))
    (hg : Moves g whole n m) {scope : Scope} (hscope : BodyLine.scopeAfter op.scope body = scope)
    (hnames : (added.read scope).2.names = scope.names) (isEntry : Bool) (earlier : List String)
    (more : List BodyLine) :
    Option.Rel (Definition.Gains (added.read scope).1.statement?.toList whole.stop m)
      ((definition? isEntry earlier ⟨op, body ++ more.map (·.relocate (shift n))⟩).map
        (·.relocate g))
      (definition? isEntry earlier ⟨op, body ++ added :: more.map (·.relocate (shift m))⟩) := by
  have hout : BodyLine.statements op.scope (body ++ more.map (·.relocate (shift n))) =
      BodyLine.statements op.scope body ++
        BodyLine.statements scope (more.map (·.relocate (shift n))) := by
    rw [BodyLine.statements_append, hscope]
  have hin : BodyLine.statements op.scope (body ++ added :: more.map (·.relocate (shift m))) =
      BodyLine.statements op.scope body ++ (added.read scope).1.statement?.toList ++
        (BodyLine.statements scope (more.map (·.relocate (shift n)))).map (·.relocate g) := by
    rw [BodyLine.statements_append, BodyLine.statements_cons, hscope,
      BodyLine.statements_shift hg.move hnames, List.append_assoc]
  have habove : ∀ s ∈ BodyLine.statements op.scope body, s.AllSpans (·.Within whole) :=
    BodyLine.allSpans_readAll hbody op.scope
  have hlow : ∀ s ∈ (BodyLine.statements scope (more.map (·.relocate (shift n)))).map
      (·.relocate g), m ≤ s.span.start := by
    rw [← BodyLine.statements_shift hg.move rfl, BodyLine.statements_relocate_shift rfl,
      List.forall_mem_map]
    exact fun s _ => Nat.le_add_left m _
  have hhead := Opening.allSpans_read hop isEntry earlier
  have hmoved := Definition.relocate_withStatements hg.monotone
    (Definition.relocate_eq_self_of_within hhead hg.stay)
    (fun s hs => Statement.relocate_eq_self_of_within (habove s hs) hg.stay)
    (BodyLine.statements scope (more.map (·.relocate (shift n))))
  rw [definition?_eq, definition?_eq, hout, hin]
  split
  · rw [Option.map_some, hmoved]
    exact .some ⟨_, _, rfl, Definition.withStatements_insert _ _ _ _,
      fun s hs => (habove s hs).span.stop, hlow⟩
  · exact .none

/-- It adds at most its own statement, and that to the block that is open above it. -/
theorem Program.blockDefinitions_insert (hl : line.isHeader = false)
    (hheader : ∃ l ∈ above, l.isHeader)
    (hwhole : ∀ l ∈ above, l.span.Within whole) (hg : Moves g whole n m)
    (hs : (Context.after above).Similar ((Context.after above).next (Line.ofExcerpt line)))
    (below : List Excerpt) :
    ∃ us o o' vs,
      blockDefinitions (above ++ below.map (·.relocate (shift n))) = us ++ o :: vs ∧
      blockDefinitions (above ++ line :: below.map (·.relocate (shift m))) =
        us.map (Option.map (·.relocate g)) ++ o' :: vs.map (Option.map (·.relocate g)) ∧
      us.length + 1 = above.countP (·.isHeader) ∧
      Option.Rel
        (Definition.Gains ((Context.after above).statement? line).toList whole.stop m)
        (o.map (·.relocate g)) o' := by
  obtain ⟨before, header, body, rfl, hh, hb⟩ := Excerpt.exists_last_header hheader
  obtain ⟨hbefore, hheader, hbody⟩ :
      (∀ l ∈ before, l.span.Within whole) ∧ header.span.Within whole ∧
        ∀ l ∈ body, l.span.Within whole := by
    rwa [List.forall_mem_append, List.forall_mem_cons] at hwhole
  obtain ⟨op, isEntry, earlier, hop, hblocks⟩ := exists_blockDefinitions_append before hh
  have hout := hblocks body (below.map (·.relocate (shift n))) hb
  have hin := hblocks body (line :: below.map (·.relocate (shift m))) hb
  rw [List.map_cons, Block.group_cons_body hl] at hin
  rw [Excerpt.map_ofExcerpt_relocate, Block.group_relocate] at hout hin
  rw [Block.definitions?_shift hg.move, ← blockDefinitions_relocate hbefore hg.stay] at hin
  have hscope := Context.scope?_after hh hb before
  have hopscope : op.scope = header.headerScope := by
    rw [← Opening.scope_read op isEntry earlier]
    exact (Excerpt.read_opening hop isEntry earlier).2.2.1
  -- the line leaves the names that are in scope above it in the block of the last header
  have hnames := hs.scope
  rw [Context.next_body _ hl, hscope] at hnames
  refine ⟨_, _, _, _, hout, hin, ?_, ?_⟩
  · rw [length_blockDefinitions, List.countP_append, List.countP_cons_of_pos hh,
      Excerpt.countP_isHeader hb]
  · have hbodies : ∀ l ∈ body.map Excerpt.bodyLine, Line.IsIn whole (.body l) :=
      List.forall_mem_map.2 fun e he =>
        ⟨e, hbody e he, Excerpt.ofExcerpt_of_not_isHeader (hb e he)⟩
    rw [Context.statement?, hscope, Option.bind_some]
    exact Block.rel_insert ⟨header, hheader, hop⟩ hbodies hg
      (congrArg (BodyLine.scopeAfter · _) hopscope) (Option.some.inj hnames) isEntry earlier _

end

namespace Program

/-- A line that binds nothing shows only in itself. Put in below the first header, it moves what is
below and adds at most its own diagnostic, and its own statement to the block that is open above. -/
theorem parse_insert (a l b : String) (hn : '\n' ∉ l.toList)
    (ha : ∃ line ∈ (Excerpt.whole a).lines, line.isHeader)
    (hl : (Excerpt.below a l).isHeader = false)
    (hb : ∀ scope ∈ (Context.after (Excerpt.whole a).lines).scope?,
      ∀ o ∈ (Excerpt.below a l).bodyLine.outcome? scope, o.binds = false) :
    let out := a ++ "\n" ++ b
    let text := a ++ "\n" ++ l ++ "\n" ++ b
    let moved := shiftAfter (byteSize a.toList) (byteSize l.toList + 1)
    let s? := (Context.after (Excerpt.whole a).lines).statement? (.below a l)
    (∃ ds es, ∃ d? : Option Diagnostic,
      (parse out).diagnostics = ds ++ es ∧
      (parse text).diagnostics =
        ds.map (·.relocate moved) ++ d?.toList ++ es.map (·.relocate moved) ∧
      ∀ d ∈ d?, d.span.Within (Excerpt.below a l).span) ∧
    (parse out).program.definitions =
      (blockDefinitions (Excerpt.whole out).lines).reduceOption ∧
    (parse text).program.definitions =
      (blockDefinitions (Excerpt.whole text).lines).reduceOption ∧
    ∃ us o o' vs,
      blockDefinitions (Excerpt.whole out).lines = us ++ o :: vs ∧
      blockDefinitions (Excerpt.whole text).lines =
        us.map (Option.map (·.relocate moved)) ++ o' :: vs.map (Option.map (·.relocate moved)) ∧
      us.length + 1 = (Excerpt.whole a).lines.countP (·.isHeader) ∧
      Option.Rel
        (Definition.Gains s?.toList (byteSize a.toList) ((Excerpt.below a l).span.stop + 1))
        (o.map (·.relocate moved)) o' := by
  intro out text moved s?
  have hout : (Excerpt.whole out).lines = (Excerpt.whole a).lines ++
      (Excerpt.whole b).lines.map (·.relocate (shift (byteSize a.toList + 1))) := by
    rw [Excerpt.lines_whole_append, Excerpt.lines_below]
  have htext : (Excerpt.whole text).lines = (Excerpt.whole a).lines ++ Excerpt.below a l ::
      (Excerpt.whole b).lines.map (·.relocate (shift ((Excerpt.below a l).span.stop + 1))) := by
    have hsize : byteSize (a ++ "\n" ++ l).toList + 1 = (Excerpt.below a l).span.stop + 1 := by
      rw [String.toList_append, String.toList_append, byteSize_append, byteSize_append]
      rfl
    rw [Excerpt.lines_whole_append, Excerpt.lines_whole_append, Excerpt.lines_of_not_mem hn, hsize,
      Excerpt.lines_below, List.append_assoc]
    rfl
  have hwhole : ∀ line ∈ (Excerpt.whole a).lines, line.span.Within (Excerpt.whole a).span :=
    fun line => Excerpt.within_of_mem_lines
  have hstop : (Excerpt.whole a).span.stop = byteSize a.toList := Nat.zero_add _
  have hg : Moves moved (Excerpt.whole a).span (byteSize a.toList + 1)
      ((Excerpt.below a l).span.stop + 1) :=
    ⟨monotone_shiftAfter _ _, fun offset h => shiftAfter_of_le (hstop ▸ h),
      shiftAfter_shift (Nat.lt_succ_self _) _⟩
  have hs := Context.similar_next hl hb
  have hin : ∃ line ∈ (Excerpt.whole out).lines, line.isHeader :=
    hout ▸ Excerpt.exists_header_append ha _
  have hin' : ∃ line ∈ (Excerpt.whole text).lines, line.isHeader :=
    htext ▸ Excerpt.exists_header_append ha _
  refine ⟨?_, definitions_parse hin, definitions_parse hin', ?_⟩
  · rw [diagnostics_of_header hin, diagnostics_of_header hin', hout, htext]
    exact Context.diagnostics_insert hl hwhole hg (hout ▸ Excerpt.pairwise_lines _)
      (htext ▸ Excerpt.pairwise_lines _) hs
  · have hblocks := blockDefinitions_insert hl ha hwhole hg hs (Excerpt.whole b).lines
    rwa [← hout, ← htext, hstop] at hblocks

/-- A call that is given up, in a block that goes on below it. -/
theorem parse_insert_call :
    let above := "def main():"
    let line := "  x = Cuboid(1"
    let below := "  y = Cuboid(1, 2, 3)"
    (∀ scope ∈ (Context.after (Excerpt.whole above).lines).scope?,
      ∀ o ∈ (Excerpt.below above line).bodyLine.outcome? scope, o.binds = false) ∧
    (parse (above ++ "\n" ++ below)).diagnostics = [] ∧
    ∃ d? : Option Diagnostic,
      (parse (above ++ "\n" ++ line ++ "\n" ++ below)).diagnostics = d?.toList ∧
      ∀ d ∈ d?, d.span.Within (Excerpt.below above line).span := by
  intro above line below
  have hb : ∀ scope ∈ (Context.after (Excerpt.whole above).lines).scope?,
      ∀ o ∈ (Excerpt.below above line).bodyLine.outcome? scope, o.binds = false := by
    decide +kernel
  have hnone : (parse (above ++ "\n" ++ below)).diagnostics = [] := by decide +kernel
  obtain ⟨⟨ds, es, d?, hout, htext, hd⟩, -⟩ :=
    parse_insert above line below (by decide +kernel) (by decide +kernel) (by decide +kernel) hb
  obtain ⟨rfl, rfl⟩ := List.append_eq_nil_iff.1 (hout.symm.trans hnone)
  refine ⟨hb, hnone, d?, ?_, hd⟩
  rw [htext, List.map_nil, List.nil_append, List.append_nil]

end Program

end ShapeAssembly
