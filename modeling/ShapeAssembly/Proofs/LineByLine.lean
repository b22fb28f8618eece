import ShapeAssembly.Proofs.BodyStatements
import ShapeAssembly.Proofs.MissingEntry

namespace ShapeAssembly

structure OpenBlock where
  definition : Definition
  scope : Scope
  isEntry : Bool
  named : Bool

namespace OpenBlock

def grown (o : OpenBlock) (ss : List Statement) : OpenBlock :=
  { o with definition := o.definition.extend ss }

def entryOr (o : OpenBlock) (entryDefinition? : Option Definition) : Option Definition :=
  if o.isEntry then some o.definition else entryDefinition?

/-- A block that is not the entry is kept if it is named properly. -/
def kept (o : OpenBlock) : List Definition := if o.isEntry || !o.named then [] else [o.definition]

end OpenBlock

/-- What has come of the lines read so far, one after the other. -/
structure Progress where
  open? : Option OpenBlock
  entryDefinition? : Option Definition
  subfunctions : List Definition
  names : List String
  seenHeader : Bool
  content? : Option Span
  faults : List Fault

def Opening.contentSpan? : Opening → Option Span
  | readable _ header => some header.span
  | unreadable .. => none

namespace Progress

def start : Progress := ⟨none, none, [], [], false, none, []⟩

def close (p : Progress) : Progress :=
  match p.open? with
  | none => p
  | some o =>
    { p with
      open? := none
      entryDefinition? := o.entryOr p.entryDefinition?
      subfunctions := p.subfunctions ++ o.kept }

def noting (p : Progress) (content? : Option Span) : Progress :=
  { p with content? := p.content?.or content? }

def reporting (p : Progress) (faults : List Fault) : Progress :=
  { p with faults := p.faults ++ faults }

def opening (p : Progress) (heading : Heading) (name? : Option String) : Progress :=
  { p.reporting (heading.nameFault?.toList ++ heading.listFaults) with
    open? := some ⟨heading.definition, heading.scope, !p.seenHeader, heading.nameFault?.isNone⟩
    names := name?.toList ++ p.names
    seenHeader := true }

def reading (p : Progress) (o : OpenBlock) (r : Reading) (scope : Scope) : Progress :=
  { p.reporting r.fault?.toList with open? := some { o.grown r.statement?.toList with scope } }

def next (p : Progress) : Line → Progress
  | .opening o =>
    let q := (p.noting o.contentSpan?).close
    q.opening (o.read (!q.seenHeader) q.names) o.nameText?
  | .body b =>
    let q := p.noting b.contentSpan?
    match q.open? with
    | none => q.reporting b.looseFault?.toList
    | some o => q.reading o (b.read o.scope).1 (b.read o.scope).2

/-- The program of all lines. Without an entry that is reported, and an empty one takes its
place. -/
def finish (p : Progress) : Program × List Fault :=
  let q := p.close
  match q.entryDefinition? with
  | some entry => (⟨entry, q.subfunctions⟩, Fault.inOrder q.faults)
  | none =>
    let span := q.content?.getD default
    (⟨.empty ⟨span.start, span.start⟩, q.subfunctions⟩,
      Fault.inOrder (q.faults ++ [.ofStructure .missingEntry span]))

end Progress

theorem Definition.extend_append (d : Definition) (ss more : List Statement) :
    (d.extend ss).extend more = d.extend (ss ++ more) := by
  rw [extend, extend, extend, List.foldl_append, List.append_assoc]

theorem Definition.extend_nil (d : Definition) : d.extend [] = d := by
  rw [extend, List.append_nil]
  rfl

theorem OpenBlock.grown_nil (o : OpenBlock) : o.grown [] = o := by
  rw [grown, Definition.extend_nil]

/-- A header leaves no statement in its definition. -/
theorem Opening.extend_read (o : Opening) (isEntry : Bool) (earlier : List String)
    (ss : List Statement) :
    (o.read isEntry earlier).definition.extend ss =
      (o.read isEntry earlier).definition.withStatements ss := by
  cases o <;> rfl

namespace Progress

theorem noting_none (p : Progress) : p.noting none = p := by
  rw [noting, Option.or_none]

/-- A line without a statement leaves the open block as it is. -/
theorem reading_of_open {p : Progress} {o : OpenBlock} (ho : p.open? = some o)
    (fault? : Option Fault) :
    p.reading o ⟨none, fault?⟩ o.scope = p.reporting fault?.toList := by
  have hgrown : { o.grown (none : Option Statement).toList with scope := o.scope } = o :=
    o.grown_nil
  rw [reading]
  dsimp only
  rw [hgrown, ← ho]
  rfl

theorem next_unreadable (p : Progress) (string : UnterminatedString) :
    p.next (.body (.unreadable string)) = p.reporting [string.fault] := by
  rw [next]
  dsimp only [BodyLine.contentSpan?]
  rw [noting_none]
  cases ho : p.open? with
  | none => rfl
  | some o => exact reading_of_open ho _

theorem next_blank (p : Progress) : p.next (.body .blank) = p := by
  have hnone : p.reporting [] = p := by rw [reporting, List.append_nil]
  rw [next]
  dsimp only [BodyLine.contentSpan?]
  rw [noting_none]
  cases ho : p.open? with
  | none => exact hnone
  | some o => exact (reading_of_open ho _).trans hnone

/-- What the rest of an open block and the blocks after it add to what there is. -/
structure Completes (q p : Progress) (o : OpenBlock) (body : List BodyLine) (blocks : List Block) :
    Prop where
  entry : q.entryDefinition? =
    (o.grown (BodyLine.statements o.scope body)).entryOr p.entryDefinition?
  subfunctions : q.subfunctions = p.subfunctions ++
    ((o.grown (BodyLine.statements o.scope body)).kept ++ (Block.readLater p.names blocks).1)
  faults : q.faults = p.faults ++ ((BodyLine.readAll o.scope body).filterMap (·.fault?) ++
    (Block.readLater p.names blocks).2)

theorem close_of_open {p : Progress} {o : OpenBlock} (ho : p.open? = some o) :
    p.close = { p with
      open? := none
      entryDefinition? := o.entryOr p.entryDefinition?
      subfunctions := p.subfunctions ++ o.kept } := by
  rw [close, ho]

theorem completes_close {p : Progress} {o : OpenBlock} (ho : p.open? = some o) :
    p.close.Completes p o [] [] := by
  have hgrown : o.grown (BodyLine.statements o.scope []) = o := o.grown_nil
  rw [close_of_open ho]
  exact ⟨by rw [hgrown], by rw [hgrown]; exact congrArg _ (List.append_nil _).symm,
    (List.append_nil _).symm⟩

/-- A block below a header comes after the block that is open above it. -/
theorem Completes.opening {p q r : Progress} {o : OpenBlock} {op : Opening} {body : List BodyLine}
    {blocks : List Block} (hq : q.Completes p o [] []) (hnames : q.names = p.names)
    (hseen : q.seenHeader = true)
    (hr : r.Completes (q.opening (op.read false p.names) op.nameText?)
      ⟨(op.read false p.names).definition, (op.read false p.names).scope, !q.seenHeader,
        (op.read false p.names).nameFault?.isNone⟩ body blocks) :
    r.Completes p o [] (⟨op, body⟩ :: blocks) := by
  obtain ⟨hentry, hsubs, hfaults⟩ := hq
  obtain ⟨hentry', hsubs', hfaults'⟩ := hr
  have hread : (Block.read false p.names ⟨op, body⟩).definition =
      (op.read false p.names).definition.extend
        (BodyLine.statements (op.read false p.names).scope body) := (op.extend_read _ _ _).symm
  have hnone : Block.readLater p.names [] = ([], []) := rfl
  rw [hnone, List.append_nil] at hsubs
  have hnames' : (q.opening (op.read false p.names) op.nameText?).names =
      op.nameText?.toList ++ p.names := congrArg _ hnames
  refine ⟨hentry'.trans ?_, hsubs'.trans ?_, hfaults'.trans ?_⟩
  · rw [OpenBlock.entryOr, OpenBlock.grown, hseen]
    exact hentry
  · rw [Block.readLater_cons, hread, hnames', OpenBlock.kept, OpenBlock.grown, hseen]
    show q.subfunctions ++ _ = _
    rw [hsubs, List.append_assoc]
    cases h : (op.read false p.names).nameFault? <;> simp [Block.read, h]
  · rw [Block.readLater_cons, hnames']
    show q.faults ++ _ ++ _ = _
    rw [hfaults]
    simp [Block.read, BodyLine.readAll, Block.readLater]

/-- From inside a block on, the lines complete it and are read as the blocks after it. -/
theorem completes_foldl {p : Progress} {o : OpenBlock} (ho : p.open? = some o)
    (hs : p.seenHeader = true) (lines : List Line) :
    (lines.foldl next p).close.Completes p o (Block.group lines).1 (Block.group lines).2 := by
  induction lines generalizing p o with
  | nil => exact completes_close ho
  | cons line rest ih =>
    rw [List.foldl_cons]
    cases line with
    | opening op =>
      have hclose : (p.noting op.contentSpan?).close.Completes p o [] [] := by
        obtain ⟨hentry, hsubs, hfaults⟩ := completes_close (p := p.noting op.contentSpan?) ho
        exact ⟨hentry, hsubs, hfaults⟩
      generalize hq : (p.noting op.contentSpan?).close = q at hclose
      have hframe : q.names = p.names ∧ q.seenHeader = true := by
        rw [← hq, close_of_open (p := p.noting op.contentSpan?) ho]
        exact ⟨rfl, hs⟩
      have hnext : p.next (.opening op) = q.opening (op.read false p.names) op.nameText? := by
        rw [next, hq, hframe.1, hframe.2]
        rfl
      rw [hnext]
      exact hclose.opening hframe.1 hframe.2 (ih rfl rfl)
    | body b =>
      have hnext : p.next (.body b) =
          (p.noting b.contentSpan?).reading o (b.read o.scope).1 (b.read o.scope).2 := by
        rw [next]
        dsimp only [noting]
        rw [ho]
      have hgrown : (o.definition.extend (b.read o.scope).1.statement?.toList).extend
          (BodyLine.statements (b.read o.scope).2 (Block.group rest).1) =
          o.definition.extend (BodyLine.statements o.scope (b :: (Block.group rest).1)) := by
        rw [Definition.extend_append, BodyLine.statements_cons]
      obtain ⟨hentry, hsubs, hfaults⟩ :=
        ih (p := (p.noting b.contentSpan?).reading o (b.read o.scope).1 _) rfl hs
      rw [hnext]
      refine ⟨hentry.trans ?_, hsubs.trans ?_, hfaults.trans ?_⟩
      · simp only [OpenBlock.entryOr, OpenBlock.grown, hgrown]
        rfl
      · simp only [OpenBlock.kept, OpenBlock.grown, hgrown]
        rfl
      · show p.faults ++ (b.read o.scope).1.fault?.toList ++ _ =
          p.faults ++ ((BodyLine.readAll o.scope (b :: (Block.group rest).1)).filterMap _ ++ _)
        rw [BodyLine.readAll_cons, filterMap_cons_toList, List.append_assoc, List.append_assoc]
        rfl

def loosely (bs : List BodyLine) : Progress :=
  { start with
    content? := bs.findSome? BodyLine.contentSpan?
    faults := bs.filterMap BodyLine.looseFault? }

theorem next_loosely (bs : List BodyLine) (b : BodyLine) :
    (loosely bs).next (.body b) = loosely (bs ++ [b]) := by
  rw [loosely, loosely, List.findSome?_append, List.findSome?_singleton, List.filterMap_append,
    filterMap_cons_toList, List.filterMap_nil, List.append_nil]
  rfl

theorem finish_of_entry {p : Progress} {entry : Definition}
    (h : p.close.entryDefinition? = some entry) :
    p.finish = (⟨entry, p.close.subfunctions⟩, Fault.inOrder p.close.faults) := by
  rw [finish, h]

theorem finish_foldl_loosely (bs : List BodyLine) (lines : List Line) :
    (lines.foldl next (loosely bs)).finish = Program.ofLines (bs.map .body ++ lines) := by
  induction lines generalizing bs with
  | nil =>
    rw [List.append_nil, Program.ofLines, ← List.append_nil (bs.map Line.body),
      Block.group_body_append, show Block.group [] = ([], []) from rfl, List.append_nil]
    rfl
  | cons line rest ih =>
    rw [List.foldl_cons]
    cases line with
    | body b =>
      rw [next_loosely, ih, List.map_append, List.append_assoc]
      rfl
    | opening op =>
      obtain ⟨hentry, hsubs, hfaults⟩ := completes_foldl (p := (loosely bs).next (.opening op))
        (o := ⟨(op.read true []).definition, (op.read true []).scope, true,
          (op.read true []).nameFault?.isNone⟩) rfl rfl rest
      have hnames : ((loosely bs).next (.opening op)).names = op.nameText?.toList :=
        List.append_nil _
      rw [hnames] at hsubs hfaults
      rw [finish_of_entry (hentry.trans (congrArg some (op.extend_read _ _ _))), hsubs, hfaults,
        Program.ofLines, Block.group_body_append]
      dsimp only
      rw [show (Block.group (.opening op :: rest)).1 = [] from rfl, List.append_nil]
      refine Prod.ext rfl (congrArg Fault.inOrder ?_)
      show bs.filterMap _ ++ ((op.read true []).nameFault?.toList ++
          (op.read true []).listFaults) ++ (_ ++ _) =
        bs.filterMap _ ++ ((op.read true []).nameFault?.toList ++ _ ++ _ ++ _)
      simp only [List.append_assoc]

/-- Reading a text line by line is reading its blocks. -/
theorem finish_foldl (lines : List Line) :
    (lines.foldl next start).finish = Program.ofLines lines :=
  finish_foldl_loosely [] lines

end Progress

end ShapeAssembly
