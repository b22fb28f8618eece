import ShapeAssembly.Proofs.BlockDefinitions
import ShapeAssembly.Proofs.Relocation

namespace ShapeAssembly

variable {n : Nat} {scope scope' : Scope}

theorem Token.place_relocate (start : Nat) (ls : List Lexeme) :
    place (shift n start) ls =
      mapEnds (·.relocate (shift n)) (List.map (·.relocate (shift n))) (place start ls) := by
  have hshift : ∀ size, shift n start + size = shift n (start + size) :=
    fun size => Nat.add_right_comm start n size
  induction ls generalizing start with
  | nil => rfl
  | cons l ls ih =>
    obtain ⟨kind, cs⟩ := l
    have hrest := ih (start + byteSize cs) fun size => Nat.add_right_comm _ n size
    match kind with
    | none => rw [place_blank, place_blank, hshift, hrest]
    | some kind =>
      by_cases hk : kind = .unterminatedString
      · rw [hk, place_open, place_open, hshift]
        rfl
      · rw [place_cons hk, place_cons hk, hshift, hrest]
        cases place (start + byteSize cs) ls <;> rfl

namespace Excerpt

theorem span_relocate (e : Excerpt) :
    (e.relocate (shift n)).span = e.span.relocate (shift n) :=
  congrArg (Span.mk _) (Nat.add_right_comm e.start n _)

theorem tokens_relocate (e : Excerpt) :
    (e.relocate (shift n)).tokens =
      mapEnds (·.relocate (shift n)) (List.map (·.relocate (shift n))) e.tokens :=
  Token.place_relocate e.start (Lexeme.scan e.chars)

theorem ofExcerpt_relocate (e : Excerpt) :
    Line.ofExcerpt (e.relocate (shift n)) = (Line.ofExcerpt e).relocate (shift n) := by
  rw [Line.ofExcerpt, Line.ofExcerpt, tokens_relocate]
  have hchars : (e.relocate (shift n)).chars = e.chars := rfl
  rw [hchars]
  cases e.tokens with
  | error string =>
    simp only [mapEnds]
    split <;> rfl
  | ok ts =>
    cases ts with
    | nil => rfl
    | cons t ts =>
      have hheader := Header.ofTokens?_relocate (monotone_shift n) (t :: ts)
      rw [List.map_cons] at hheader
      simp only [mapEnds, List.map_cons, hheader]
      cases Header.ofTokens? (t :: ts) <;> rfl

theorem map_ofExcerpt_relocate (lines : List Excerpt) :
    (lines.map (·.relocate (shift n))).map Line.ofExcerpt =
      (lines.map Line.ofExcerpt).map (·.relocate (shift n)) := by
  rw [List.map_map, List.map_map]
  exact List.map_congr_left fun l _ => l.ofExcerpt_relocate

/-- Whether a line is a header does not depend on where it stands. -/
theorem isHeader_mk (start start' : Nat) (cs : List Char) :
    isHeader ⟨start, cs⟩ = isHeader ⟨start', cs⟩ := by
  rw [isHeader, isHeader, words?_eq, words?_eq]

end Excerpt

namespace Definition

variable {f : Nat → Nat}

theorem withStatements_relocate (hf : Monotone f) (d : Definition) (ss : List Statement) :
    (d.relocate f).withStatements (ss.map (·.relocate f)) =
      (d.withStatements ss).relocate f := by
  have hspan : ∀ span : Span,
      (ss.map (·.relocate f)).foldl (fun span s => span.merge s.span) (span.relocate f) =
        (ss.foldl (fun span s => span.merge s.span) span).relocate f := by
    intro span
    induction ss generalizing span with
    | nil => rfl
    | cons s ss ih =>
      rw [List.map_cons, List.foldl_cons, List.foldl_cons, ← ih, ← Span.merge_relocate hf]
      rfl
  simp only [withStatements, relocate, hspan]

end Definition

namespace Opening

variable (isEntry : Bool) (earlier : List String)

theorem nameText?_relocate {f : Nat → Nat} (o : Opening) :
    (o.relocate f).nameText? = o.nameText? := by
  cases o with
  | unreadable => rfl
  | readable source h => exact Option.map_map ..

/-- A header is read alike wherever it stands. -/
theorem read_relocate (o : Opening) :
    ((o.relocate (shift n)).read isEntry earlier).definition =
        (o.read isEntry earlier).definition.relocate (shift n) ∧
      ((o.relocate (shift n)).read isEntry earlier).scope.names =
        (o.read isEntry earlier).scope.names ∧
      ((o.relocate (shift n)).read isEntry earlier).nameFault? =
        (o.read isEntry earlier).nameFault?.map (·.relocate (shift n)) ∧
      ((o.relocate (shift n)).read isEntry earlier).listFaults =
        (o.read isEntry earlier).listFaults.map (·.relocate (shift n)) := by
  cases o with
  | unreadable source string =>
    exact ⟨congrArg Definition.empty source.span_relocate, rfl, rfl, rfl⟩
  | readable source h =>
    obtain ⟨hnames, hfaults⟩ := Scope.defineAll_relocate (f := shift n)
      (rfl : Scope.empty.names = _) .parameter (h.parameters source).1
    rw [relocate, read_readable, read_readable, Header.parameters_relocate, List.map_append,
      ← hfaults]
    exact ⟨rfl, hnames, h.nameFault?_relocate isEntry earlier, rfl⟩

end Opening

namespace BodyLine

theorem boundName?_relocate {f : Nat → Nat} (r : Reading) :
    (r.relocate f).boundName? = r.boundName? := by
  obtain ⟨statement?, fault?⟩ := r
  cases fault? with
  | some fault => rfl
  | none =>
    cases statement? with
    | none => rfl
    | some s => exact Option.map_map ..

/-- A line is read alike wherever it stands, in scopes with the same names. -/
theorem read_relocate (hs : scope'.names = scope.names) (line : BodyLine) :
    ((line.relocate (shift n)).read scope').1 = (line.read scope).1.relocate (shift n) ∧
      ((line.relocate (shift n)).read scope').2.names = (line.read scope).2.names := by
  have hreading : ((line.relocate (shift n)).read scope').1 =
      (line.read scope).1.relocate (shift n) := by
    cases line with
    | blank | unreadable => rfl
    | content source first rest =>
      have hparse := Statement.parse_relocate (n := n) hs source (List.cons_ne_nil first rest)
      rw [List.map_cons] at hparse
      simp only [relocate, read, hparse]
      cases (Statement.parse source scope (first :: rest)).1 <;> rfl
  refine ⟨hreading, ?_⟩
  rw [names_read, names_read, hreading, boundName?_relocate, hs]

theorem readAll_relocate (hs : scope'.names = scope.names) (lines : List BodyLine) :
    readAll scope' (lines.map (·.relocate (shift n))) =
      (readAll scope lines).map (·.relocate (shift n)) := by
  induction lines generalizing scope scope' with
  | nil => rfl
  | cons line rest ih =>
    obtain ⟨hreading, hnames⟩ := line.read_relocate (n := n) hs
    rw [List.map_cons, readAll_cons, readAll_cons, List.map_cons, hreading, ih hnames]

theorem statements_relocate {f : Nat → Nat} (readings : List Reading) :
    (readings.map (·.relocate f)).filterMap (·.statement?) =
      (readings.filterMap (·.statement?)).map (·.relocate f) := by
  rw [List.filterMap_map, List.map_filterMap]
  rfl

theorem looseFault?_relocate {f : Nat → Nat} (hf : Monotone f) (line : BodyLine) :
    (line.relocate f).looseFault? = line.looseFault?.map (·.relocate f) := by
  cases line with
  | blank | unreadable => rfl
  | content source first rest =>
    simp only [relocate, looseFault?, Token.reach_relocate hf]
    rfl

end BodyLine

namespace Block

theorem group_relocate {f : Nat → Nat} (lines : List Line) :
    group (lines.map (·.relocate f)) =
      ((group lines).1.map (·.relocate f), (group lines).2.map (·.relocate f)) := by
  induction lines with
  | nil => rfl
  | cons line rest ih =>
    rw [List.map_cons, group, group, ih]
    cases line <;> rfl

/-- A block is read alike wherever it stands. -/
theorem definition?_relocate (isEntry : Bool) (earlier : List String) (b : Block) :
    (b.relocate (shift n)).definition? isEntry earlier =
      (b.definition? isEntry earlier).map (·.relocate (shift n)) := by
  obtain ⟨hdef, hnames, hname, -⟩ := b.opening.read_relocate (n := n) isEntry earlier
  have hread : (b.relocate (shift n)).read isEntry earlier =
      ⟨(b.read isEntry earlier).definition.relocate (shift n), (b.read isEntry earlier).named,
        ((b.relocate (shift n)).read isEntry earlier).faults⟩ := by
    have hbody := BodyLine.readAll_relocate (n := n) hnames b.body
    simp only [read, relocate, hbody, hname, hdef, BodyLine.statements_relocate,
      Definition.withStatements_relocate (monotone_shift n), Option.isNone_map]
  rw [definition?, definition?, hread]
  split <;> rfl

theorem definitions?_relocate (isEntry : Bool) (earlier : List String) (blocks : List Block) :
    definitions? isEntry earlier (blocks.map (·.relocate (shift n))) =
      (definitions? isEntry earlier blocks).map (Option.map (·.relocate (shift n))) := by
  induction blocks generalizing isEntry earlier with
  | nil => rfl
  | cons b rest ih =>
    have hname : (b.relocate (shift n)).opening.nameText? = b.opening.nameText? :=
      b.opening.nameText?_relocate
    rw [List.map_cons, definitions?, definitions?, List.map_cons, definition?_relocate, hname, ih]

end Block

namespace Context

/-- Contexts in which any line is read alike. -/
structure Similar (c c' : Context) : Prop where
  scope : c'.scope?.map (·.names) = c.scope?.map (·.names)
  names : c'.names = c.names

theorem Similar.refl (c : Context) : c.Similar c := ⟨rfl, rfl⟩

variable {c c' : Context}

theorem Similar.isNone (h : c.Similar c') : c'.scope?.isNone = c.scope?.isNone := by
  rw [← Option.isNone_map, h.scope, Option.isNone_map]

theorem faults_opening_relocate (hn : c'.scope?.isNone = c.scope?.isNone) (hs : c'.names = c.names)
    (o : Opening) :
    c'.faults (.opening (o.relocate (shift n))) =
        (c.faults (.opening o)).map (·.relocate (shift n)) ∧
      (c.next (.opening o)).Similar (c'.next (.opening (o.relocate (shift n)))) := by
  obtain ⟨-, hnames, hname, hlist⟩ := o.read_relocate (n := n) c.scope?.isNone c.names
  simp only [faults, next, hn, hs]
  refine ⟨?_, congrArg some hnames, ?_⟩
  · rw [hname, hlist, List.map_append, Option.toList_map]
  · rw [Opening.nameText?_relocate]

theorem faults_body_relocate (h : c.Similar c') (b : BodyLine) :
    c'.faults (.body (b.relocate (shift n))) =
        (c.faults (.body b)).map (·.relocate (shift n)) ∧
      (c.next (.body b)).Similar (c'.next (.body (b.relocate (shift n)))) := by
  obtain ⟨scope?, names⟩ := c
  obtain ⟨scope?', names'⟩ := c'
  obtain ⟨hscope, hnames⟩ := h
  cases scope? with
  | none =>
    obtain rfl : scope?' = none := Option.map_eq_none_iff.1 hscope
    refine ⟨?_, rfl, hnames⟩
    simp only [faults, BodyLine.looseFault?_relocate (monotone_shift n), Option.toList_map]
  | some scope =>
    obtain ⟨scope', rfl, hs⟩ := Option.map_eq_some_iff.1 hscope
    obtain ⟨hreading, hafter⟩ := b.read_relocate (n := n) hs
    refine ⟨?_, congrArg some hafter, hnames⟩
    simp only [faults, hreading, Reading.relocate, Option.toList_map]

/-- Lines report alike wherever they stand. -/
theorem reports_relocate (h : c.Similar c') (lines : List Line) :
    reports c' (lines.map (·.relocate (shift n))) =
      (reports c lines).map (List.map (·.relocate (shift n))) := by
  induction lines generalizing c c' with
  | nil => rfl
  | cons line rest ih =>
    rw [List.map_cons, reports, reports, List.map_cons]
    cases line with
    | opening o =>
      obtain ⟨hfaults, hnext⟩ := faults_opening_relocate (n := n) h.isNone h.names o
      rw [Line.relocate, hfaults, ih hnext]
    | body b =>
      obtain ⟨hfaults, hnext⟩ := faults_body_relocate (n := n) h b
      rw [Line.relocate, hfaults, ih hnext]

/-- What comes before a header shows in the reports from there on only by its names. -/
theorem reports_opening_relocate (hn : c'.scope?.isNone = c.scope?.isNone)
    (hs : c'.names = c.names) (o : Opening) (lines : List Line) :
    reports c' ((Line.opening o :: lines).map (·.relocate (shift n))) =
      (reports c (.opening o :: lines)).map (List.map (·.relocate (shift n))) := by
  obtain ⟨hfaults, hnext⟩ := faults_opening_relocate (n := n) hn hs o
  rw [List.map_cons, Line.relocate, reports, reports, List.map_cons, hfaults,
    reports_relocate hnext]

end Context

end ShapeAssembly
