import ShapeAssembly.Proofs.Respelling

namespace ShapeAssembly

/-- Two lines with the same words but for the case of the keyword, or two that do not lex and of
which both or none start with `def`. -/
inductive Excerpt.Alike (a b : Excerpt) : Prop
  | lexed {ts us : List Token} (ha : a.tokens = .ok ts) (hb : b.tokens = .ok us)
    (h : Token.LinesAlike ts us)
  | unlexed {string string' : UnterminatedString} (ha : a.tokens = .error string)
    (hb : b.tokens = .error string')
    (h : Line.startsWithDef a.chars = Line.startsWithDef b.chars)

/-- The definition without places and without the case of its keywords. -/
def Definition.fold (d : Definition) : Definition :=
  { d.erase with statements := d.statements.map Statement.fold }

def Program.fold (p : Program) : Program := ⟨p.entry.fold, p.subfunctions.map Definition.fold⟩

inductive Opening.Alike : Opening → Opening → Prop
  | readable {source source' : Excerpt} {h k : Header} (ha : h.Alike k) :
    Alike (readable source h) (readable source' k)
  | unreadable {source source' : Excerpt} {string string' : UnterminatedString} :
    Alike (unreadable source string) (unreadable source' string')

inductive BodyLine.Alike : BodyLine → BodyLine → Prop
  | blank : Alike blank blank
  | content {source source' : Excerpt} {t u : Token} {ts us : List Token}
    (h : Token.LinesAlike (t :: ts) (u :: us)) :
    Alike (content source t ts) (content source' u us)
  | unreadable {string string' : UnterminatedString} :
    Alike (unreadable string) (unreadable string')

inductive Line.Alike : Line → Line → Prop
  | opening {o o' : Opening} (h : o.Alike o') : Alike (opening o) (opening o')
  | body {b b' : BodyLine} (h : b.Alike b') : Alike (body b) (body b')

theorem Excerpt.Alike.ofExcerpt {a b : Excerpt} (h : a.Alike b) :
    (Line.ofExcerpt a).Alike (Line.ofExcerpt b) := by
  cases h with
  | unlexed ha hb h =>
    simp only [Line.ofExcerpt, ha, hb, h]
    split
    · exact .opening .unreadable
    · exact .body .unreadable
  | @lexed ts us ha hb h =>
    have hheader := Header.ofTokens?_alike h
    simp only [Line.ofExcerpt, ha, hb]
    cases ts with
    | nil =>
      obtain rfl : us = [] := by
        cases h with
        | plain h => cases h; rfl
      exact .body .blank
    | cons t ts =>
      obtain ⟨u, us, rfl⟩ : ∃ u us', us = u :: us' := by
        cases h with
        | plain h => cases h; exact ⟨_, _, rfl⟩
        | assigned => exact ⟨_, _, rfl⟩
      dsimp only
      generalize Header.ofTokens? (t :: ts) = x at hheader
      generalize Header.ofTokens? (u :: us) = y at hheader
      cases hheader with
      | none => exact .body (.content h)
      | some ha => exact .opening (.readable ha)

/-- Names bind alike in scopes with the same names. -/
theorem Scope.defineAll_alike {scope scope' : Scope} (hs : scope'.names = scope.names)
    (origin : Origin) {names names' : List Name}
    (h : names.map (·.val) = names'.map (·.val)) :
    (scope'.defineAll origin names').1.names = (scope.defineAll origin names).1.names ∧
      (scope.defineAll origin names).2.map Fault.code =
        (scope'.defineAll origin names').2.map Fault.code := by
  refine ⟨by rw [names_defineAll, names_defineAll, hs, h], ?_⟩
  rw [faults_defineAll origin fun _ => Iff.rfl, faults_defineAll origin fun _ => Iff.rfl, hs,
    List.map_map, List.map_map]
  generalize scope.names = earlier
  induction names generalizing names' earlier with
  | nil =>
    obtain rfl := List.map_eq_nil_iff.1 h.symm
    rfl
  | cons n names ih =>
    obtain ⟨n', names', rfl, hval, hrest⟩ := List.map_eq_cons_iff.1 h.symm
    rw [repeatedNames, repeatedNames, List.map_append, List.map_append, hval, ih hrest.symm]
    split <;> rfl

namespace Opening

theorem Alike.nameText? {o o' : Opening} (h : o.Alike o') : o.nameText? = o'.nameText? := by
  cases h with
  | readable ha => exact map_val_of_rel ha.name
  | unreadable => rfl

theorem read_alike (isEntry : Bool) (earlier : List String) {o o' : Opening} (h : o.Alike o') :
    (o.read isEntry earlier).definition.fold = (o'.read isEntry earlier).definition.fold ∧
      (o'.read isEntry earlier).scope.names = (o.read isEntry earlier).scope.names ∧
      (o.read isEntry earlier).nameFault?.map Fault.code =
        (o'.read isEntry earlier).nameFault?.map Fault.code ∧
      (o.read isEntry earlier).listFaults.map Fault.code =
        (o'.read isEntry earlier).listFaults.map Fault.code := by
  cases h with
  | unreadable => exact ⟨rfl, rfl, rfl, rfl⟩
  | @readable source source' h k ha =>
    obtain ⟨hvals, hlist⟩ := Header.parameters_alike source source' ha
    obtain ⟨hnames, hrepeated⟩ :=
      Scope.defineAll_alike (rfl : Scope.empty.names = _) .parameter hvals
    rw [read_readable, read_readable]
    dsimp only
    rw [List.map_append, List.map_append, hlist, hrepeated]
    refine ⟨?_, hnames, Header.nameFault?_alike isEntry earlier ha, rfl⟩
    rw [Definition.fold, Definition.fold, Definition.erase, Definition.erase]
    dsimp only
    rw [Located.map_erase_inj.2 (map_val_of_rel ha.name), Located.map_erase_of_map_val hvals]

end Opening

theorem Definition.fold_withStatements {d e : Definition} (h : d.fold = e.fold)
    {ss us : List Statement} (hs : ss.map Statement.fold = us.map Statement.fold) :
    (d.withStatements ss).fold = (e.withStatements us).fold := by
  have hname := congrArg Definition.name h
  have hparameters := congrArg Definition.parameters h
  simp only [fold, erase] at hname hparameters
  simp only [fold, erase, withStatements, hname, hparameters, hs]

namespace BodyLine

variable {b b' : BodyLine} {scope scope' : Scope}

theorem looseFault?_alike (h : b.Alike b') :
    b.looseFault?.map Fault.code = b'.looseFault?.map Fault.code := by
  cases h <;> rfl

theorem looseFaults_alike {loose loose' : List BodyLine} (h : List.Forall₂ Alike loose loose') :
    (loose.filterMap looseFault?).map Fault.code =
      (loose'.filterMap looseFault?).map Fault.code := by
  induction h with
  | nil => rfl
  | cons hb _ ih =>
    simp only [filterMap_cons_toList, List.map_append, ← Option.toList_map, looseFault?_alike hb,
      ih]

theorem read_alike (hs : scope'.names = scope.names) (h : b.Alike b') :
    (b.read scope).1.statement?.map Statement.fold =
        (b'.read scope').1.statement?.map Statement.fold ∧
      (b.read scope).1.fault?.map Fault.code = (b'.read scope').1.fault?.map Fault.code ∧
      (b'.read scope').2.names = (b.read scope).2.names := by
  cases h with
  | blank => exact ⟨rfl, rfl, hs⟩
  | unreadable => exact ⟨rfl, rfl, hs⟩
  | @content source source' t u ts us h => exact Statement.parse_alike hs source source' h

theorem readAll_alike {body body' : List BodyLine} (hs : scope'.names = scope.names)
    (h : List.Forall₂ Alike body body') :
    ((readAll scope body).filterMap (·.statement?)).map Statement.fold =
        ((readAll scope' body').filterMap (·.statement?)).map Statement.fold ∧
      ((readAll scope body).filterMap (·.fault?)).map Fault.code =
        ((readAll scope' body').filterMap (·.fault?)).map Fault.code := by
  induction h generalizing scope scope' with
  | nil => exact ⟨rfl, rfl⟩
  | cons hb _ ih =>
    obtain ⟨hstatement, hfault, hnames⟩ := read_alike hs hb
    obtain ⟨hstatements, hfaults⟩ := ih hnames
    simp only [readAll_cons, filterMap_cons_toList, List.map_append, ← Option.toList_map,
      hstatement, hfault, hstatements, hfaults, and_self]

end BodyLine

namespace Block

structure Alike (b b' : Block) : Prop where
  opening : b.opening.Alike b'.opening
  body : List.Forall₂ BodyLine.Alike b.body b'.body

theorem group_alike {lines lines' : List Line} (h : List.Forall₂ Line.Alike lines lines') :
    List.Forall₂ BodyLine.Alike (group lines).1 (group lines').1 ∧
      List.Forall₂ Alike (group lines).2 (group lines').2 := by
  induction h with
  | nil => exact ⟨.nil, .nil⟩
  | cons hl _ ih =>
    rw [group, group]
    cases hl with
    | opening ho => exact ⟨.nil, .cons ⟨ho, ih.1⟩ ih.2⟩
    | body hb => exact ⟨.cons hb ih.1, ih.2⟩

theorem read_alike (isEntry : Bool) (earlier : List String) {b b' : Block} (h : b.Alike b') :
    (b.read isEntry earlier).definition.fold = (b'.read isEntry earlier).definition.fold ∧
      (b.read isEntry earlier).named = (b'.read isEntry earlier).named ∧
      (b.read isEntry earlier).faults.map Fault.code =
        (b'.read isEntry earlier).faults.map Fault.code := by
  obtain ⟨hdefinition, hnames, hname, hlist⟩ := Opening.read_alike isEntry earlier h.opening
  obtain ⟨hstatements, hfaults⟩ := BodyLine.readAll_alike hnames h.body
  refine ⟨Definition.fold_withStatements hdefinition hstatements, ?_, ?_⟩
  · rw [read, read]
    dsimp only
    rw [← Option.isNone_map, hname, Option.isNone_map]
  · simp only [read, List.map_append, ← Option.toList_map, hname, hlist, hfaults]

theorem readLater_alike (earlier : List String) {blocks blocks' : List Block}
    (h : List.Forall₂ Alike blocks blocks') :
    (readLater earlier blocks).1.map Definition.fold =
        (readLater earlier blocks').1.map Definition.fold ∧
      (readLater earlier blocks).2.map Fault.code =
        (readLater earlier blocks').2.map Fault.code := by
  induction h generalizing earlier with
  | nil => exact ⟨rfl, rfl⟩
  | @cons b b' blocks blocks' hb _ ih =>
    obtain ⟨hdefinition, hnamed, hfaults⟩ := read_alike false earlier hb
    obtain ⟨hdefinitions, hrest⟩ := ih (b.opening.nameText?.toList ++ earlier)
    rw [readLater_cons, readLater_cons, ← hb.opening.nameText?, ← hnamed]
    refine ⟨?_, ?_⟩
    · dsimp only
      split
      · rw [List.map_cons, List.map_cons, hdefinition, hdefinitions]
      · exact hdefinitions
    · simp only [List.map_append, hfaults, hrest]

end Block

namespace Program

theorem readBlocks_alike (loose loose' : List BodyLine) {blocks blocks' : List Block}
    (h : List.Forall₂ Block.Alike blocks blocks') :
    (readBlocks loose blocks).1.fold = (readBlocks loose' blocks').1.fold ∧
      (readBlocks loose blocks).2.map Fault.code =
        (readBlocks loose' blocks').2.map Fault.code := by
  cases h with
  | nil => exact ⟨rfl, rfl⟩
  | @cons b b' blocks blocks' hb hrest =>
    obtain ⟨hdefinition, -, hfaults⟩ := Block.read_alike true [] hb
    obtain ⟨hdefinitions, hlater⟩ := Block.readLater_alike b.opening.nameText?.toList hrest
    rw [readBlocks, readBlocks, ← hb.opening.nameText?]
    dsimp only
    rw [List.map_append, List.map_append, hfaults, hlater]
    exact ⟨by rw [fold, fold, hdefinition, hdefinitions], rfl⟩

theorem ofLines_alike {lines lines' : List Line} (h : List.Forall₂ Line.Alike lines lines') :
    (ofLines lines).1.fold = (ofLines lines').1.fold ∧
      ((ofLines lines).2.map Fault.code).Perm ((ofLines lines').2.map Fault.code) := by
  obtain ⟨hloose, hblocks⟩ := Block.group_alike h
  obtain ⟨hprogram, hfaults⟩ :=
    readBlocks_alike (Block.group lines).1 (Block.group lines').1 hblocks
  have hcodes := BodyLine.looseFaults_alike hloose
  have hsorted : ∀ fs gs : List Fault, fs.map Fault.code = gs.map Fault.code →
      ((Fault.inOrder fs).map Fault.code).Perm ((Fault.inOrder gs).map Fault.code) :=
    fun fs gs hfg => ((stableSort_perm _ fs).map _).trans
      ((List.Perm.of_eq hfg).trans ((stableSort_perm _ gs).map _).symm)
  rw [ofLines, ofLines]
  exact ⟨hprogram, hsorted _ _ (by rw [List.map_append, List.map_append, hcodes, hfaults])⟩

/-- Blanks, comments and the case of keywords do not count. -/
theorem parse_respelled {text text' : String}
    (h : List.Forall₂ Excerpt.Alike (Excerpt.whole text).lines (Excerpt.whole text').lines) :
    (parse text).program.fold = (parse text').program.fold ∧
      ((parse text).diagnostics.map (·.code)).Perm ((parse text').diagnostics.map (·.code)) := by
  have hlines : List.Forall₂ Line.Alike ((Excerpt.whole text).lines.map Line.ofExcerpt)
      ((Excerpt.whole text').lines.map Line.ofExcerpt) := by
    rw [List.forall₂_map_left_iff, List.forall₂_map_right_iff]
    exact h.imp fun _ _ hl => hl.ofExcerpt
  have hcode : (fun d : Diagnostic => d.code) ∘ Fault.diagnostic = Fault.code := rfl
  obtain ⟨hprogram, hcodes⟩ := ofLines_alike hlines
  rw [parse, parse, List.map_map, List.map_map, hcode]
  exact ⟨hprogram, hcodes⟩

/-- Two spellings of a header, a statement with an argument too many, and an open string. -/
theorem parse_respelled_def :
    let text := "def main():\n    a = Cuboid(1 2, X)\n    \"a"
    let text' := "DEF main ( ) : # box\na=cuboid(1   2,X)\n\""
    List.Forall₂ Excerpt.Alike (Excerpt.whole text).lines (Excerpt.whole text').lines ∧
      (parse text).program.fold = (parse text').program.fold ∧
      ((parse text).diagnostics.map (·.code)).Perm ((parse text').diagnostics.map (·.code)) := by
  intro text text'
  have hlines : (Excerpt.whole text).lines = [⟨0, "def main():".toList⟩,
      ⟨12, "    a = Cuboid(1 2, X)".toList⟩, ⟨35, "    \"a".toList⟩] := by decide +kernel
  have hlines' : (Excerpt.whole text').lines = [⟨0, "DEF main ( ) : # box".toList⟩,
      ⟨21, "a=cuboid(1   2,X)".toList⟩, ⟨39, "\"".toList⟩] := by decide +kernel
  have hheader : Excerpt.Alike ⟨0, "def main():".toList⟩ ⟨0, "DEF main ( ) : # box".toList⟩ := by
    have ht : (⟨0, "def main():".toList⟩ : Excerpt).tokens = .ok [⟨.ident, "def", ⟨0, 3⟩⟩,
        ⟨.ident, "main", ⟨4, 8⟩⟩, ⟨.openParen, "(", ⟨8, 9⟩⟩, ⟨.closeParen, ")", ⟨9, 10⟩⟩,
        ⟨.colon, ":", ⟨10, 11⟩⟩] := by decide +kernel
    have hu : (⟨0, "DEF main ( ) : # box".toList⟩ : Excerpt).tokens = .ok [
        ⟨.ident, "DEF", ⟨0, 3⟩⟩, ⟨.ident, "main", ⟨4, 8⟩⟩, ⟨.openParen, "(", ⟨9, 10⟩⟩,
        ⟨.closeParen, ")", ⟨11, 12⟩⟩, ⟨.colon, ":", ⟨13, 14⟩⟩] := by decide +kernel
    exact .lexed ht hu (.plain (.cons rfl (by decide) (.cons ⟨rfl, rfl⟩ (.cons ⟨rfl, rfl⟩
      (.cons ⟨rfl, rfl⟩ (.cons ⟨rfl, rfl⟩ .nil))))) (by simp))
  have hstatement : Excerpt.Alike ⟨12, "    a = Cuboid(1 2, X)".toList⟩
      ⟨21, "a=cuboid(1   2,X)".toList⟩ := by
    have ht : (⟨12, "    a = Cuboid(1 2, X)".toList⟩ : Excerpt).tokens = .ok [
        ⟨.ident, "a", ⟨16, 17⟩⟩, ⟨.eq, "=", ⟨18, 19⟩⟩, ⟨.ident, "Cuboid", ⟨20, 26⟩⟩,
        ⟨.openParen, "(", ⟨26, 27⟩⟩, ⟨.number, "1", ⟨27, 28⟩⟩, ⟨.number, "2", ⟨29, 30⟩⟩,
        ⟨.comma, ",", ⟨30, 31⟩⟩, ⟨.ident, "X", ⟨32, 33⟩⟩, ⟨.closeParen, ")", ⟨33, 34⟩⟩] := by
      decide +kernel
    have hu : (⟨21, "a=cuboid(1   2,X)".toList⟩ : Excerpt).tokens = .ok [
        ⟨.ident, "a", ⟨21, 22⟩⟩, ⟨.eq, "=", ⟨22, 23⟩⟩, ⟨.ident, "cuboid", ⟨23, 29⟩⟩,
        ⟨.openParen, "(", ⟨29, 30⟩⟩, ⟨.number, "1", ⟨30, 31⟩⟩, ⟨.number, "2", ⟨34, 35⟩⟩,
        ⟨.comma, ",", ⟨35, 36⟩⟩, ⟨.ident, "X", ⟨36, 37⟩⟩, ⟨.closeParen, ")", ⟨37, 38⟩⟩] := by
      decide +kernel
    exact .lexed ht hu (.assigned ⟨rfl, rfl⟩ rfl rfl (.cons rfl (by decide) (.cons ⟨rfl, rfl⟩
      (.cons ⟨rfl, rfl⟩ (.cons ⟨rfl, rfl⟩ (.cons ⟨rfl, rfl⟩ (.cons ⟨rfl, rfl⟩
      (.cons ⟨rfl, rfl⟩ .nil))))))))
  have hopen : Excerpt.Alike ⟨35, "    \"a".toList⟩ ⟨39, "\"".toList⟩ := by
    have ht : (⟨35, "    \"a".toList⟩ : Excerpt).tokens = .error ⟨⟨39, 41⟩⟩ := by decide +kernel
    have hu : (⟨39, "\"".toList⟩ : Excerpt).tokens = .error ⟨⟨39, 40⟩⟩ := by decide +kernel
    exact .unlexed ht hu (by decide +kernel)
  have halike : List.Forall₂ Excerpt.Alike (Excerpt.whole text).lines
      (Excerpt.whole text').lines := by
    rw [hlines, hlines']
    exact .cons hheader (.cons hstatement (.cons hopen .nil))
  exact ⟨halike, parse_respelled halike⟩

end Program

end ShapeAssembly
