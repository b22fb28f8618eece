import ShapeAssembly.Highlight
import ShapeAssembly.Program.Printer
import ShapeAssembly.Proofs.CheckedStatements
import ShapeAssembly.Proofs.LineByLine

namespace ShapeAssembly

namespace Mark

def dropColon (ms : List Mark) : List Mark :=
  match ms.getLast? with
  | some m => if m.kind = .colon then ms.dropLast else ms
  | none => ms

def startBlock? (source : Excerpt) : List Mark → Option Bool
  | define :: next :: _ =>
    if define.kind ≠ .ident then some false
    else do
      let word ← source.slice? define.span
      return sameLetters word "def" && (next.kind = .openParen || next.kind = .ident)
  | _ => some false

def splitName? (source : Excerpt) (ms : List Mark) : Option (Option Name × List Mark) :=
  match ms with
  | [] => some (none, [])
  | m :: _ =>
    if m.kind ≠ .ident then some (none, ms)
    else do
      let t ← m.read? source
      let list ← cut? 1 ms.length ms
      return (some t.name, list)

end Mark

def Header.parameters? (source : Excerpt) (head : Span) (list : List Mark) :
    Option (List Name × List Fault) := do
  let call ← Call.read? source head list
  let schema ← Schema.lookup? "Def"
  let names : Except Fault (List Name) := do
    let call ← call
    let args ← schema.validate call.arguments call.span .empty
    return args.map (·.raw)
  match names with
  | .ok names => return (names, [])
  | .error fault => return ([], [fault])

def Heading.read? (source : Excerpt) (isEntry : Bool) (earlier : List String) (ms : List Mark) :
    Option (Heading × Option String) := do
  let define ← ms[0]?
  let after ← cut? 1 ms.length ms
  let (name?, list) ← Mark.splitName? source after
  let head := (name?.map (·.span)).getD define.span
  let (parameters, listFaults) ← Header.parameters? source head (Mark.dropColon list)
  let (scope, repeated) := Scope.empty.defineAll .parameter parameters
  let span ← Mark.spanOf? ms
  let nameFault? := Header.nameFault? isEntry earlier ⟨define.span, name?, [], span⟩
  return (⟨⟨name?, parameters, [], span⟩, scope, nameFault?, listFaults ++ repeated⟩,
    name?.map (·.val))

def Line.startsWithDef? (cs : List Char) : Option Bool := do
  let rest := trimStart cs
  let (word, _) ← splitBytes? (byteSize (rest.takeWhile Lexeme.isIdentRest)) rest
  return sameLetters (String.ofList word) "def"

namespace Progress

def readContent? (source : Excerpt) (p : Progress) (m : Mark) (ms : List Mark) :
    Option Progress := do
  let p := p.noting (some (m.reach ms))
  if ← Mark.startBlock? source (m :: ms) then
    let q := p.close
    let (heading, name?) ← Heading.read? source (!q.seenHeader) q.names (m :: ms)
    return q.opening heading name?
  else match p.open? with
    | none => return p.reporting [.ofStructure .outsideBlock (m.reach ms)]
    | some o =>
      let (outcome, scope) ← Statement.parse? source o.scope (m :: ms)
      return p.reading o ⟨outcome.statement?, outcome.fault?⟩ scope

/-- One line more, read with operations that may fail. -/
def next? (source : Excerpt) (p : Progress) (line : Excerpt) : Option Progress :=
  match line.marks with
  | .error string => do
    if ← Line.startsWithDef? line.chars then
      return p.close.opening ⟨.empty line.span, .empty, some string.fault, []⟩ none
    else return p.reporting [string.fault]
  | .ok [] => some p
  | .ok (m :: ms) => p.readContent? source m ms

end Progress

/-- The program of a text, read line by line with operations that may fail: cutting a span out of
the text, going to an index, and taking one number from another. -/
def Program.parse? (text : String) : Option ParseResult := do
  let lines ← (LineStarts.ofText text).lines? (.whole text)
  let p ← lines.foldlM (Progress.next? (.whole text)) .start
  return ⟨p.finish.1, p.finish.2.map Fault.diagnostic⟩

def Program.reprint? (text : String) : Option String := do
  let result ← parse? text
  return result.program.render 0

def Excerpt.lineTokens? (source : Excerpt) :
    Option (Except UnterminatedString (List Token)) :=
  match List.map Token.mark <$> source.lineTokens with
  | .error string => do
    let _ ← source.slice? string.span
    return .error string
  | .ok ms => .ok <$> ms.mapM (Mark.read? source)

namespace Highlighter

def gather? (text : String) (ranges : LineStarts → List Span → Option (List LocalRange)) :
    Option (List Highlight) := do
  let result ← Program.parse? text
  let found ← HighlightClass.all.mapM fun c =>
    (·.map (Highlight.mk c)) <$> ranges (.ofText text) (c.spans result)
  return stableSort Highlight.le found.flatten

def all? (text : String) : Option (List Highlight) := gather? text LineStarts.toLocals?

def line? (text : String) (i : Nat) : Option (List Highlight) :=
  gather? text (·.rangesOnLine? i)

end Highlighter

theorem Schema.lookup?_define : lookup? "Def" = some define := by decide

theorem Mark.dropColon_map_mark (ts : List Token) :
    dropColon (ts.map Token.mark) = (Header.dropColon ts).map Token.mark := by
  rw [dropColon, Header.dropColon, List.getLast?_map]
  cases ts.getLast? with
  | none => rfl
  | some t =>
    show (if t.kind = .colon then _ else _) = List.map _ (if t.kind = .colon then _ else _)
    rw [← List.map_dropLast, apply_ite (List.map Token.mark)]

theorem Line.startsWithDef?_eq (cs : List Char) :
    startsWithDef? cs = some (startsWithDef cs) := by
  have h := splitBytes_append ((trimStart cs).takeWhile Lexeme.isIdentRest)
    ((trimStart cs).dropWhile Lexeme.isIdentRest)
  rw [List.takeWhile_append_dropWhile] at h
  rw [startsWithDef?, h]
  rfl

section

variable {source line : Excerpt} (hp : line.IsPart source)

include hp

theorem Mark.startBlock?_eq {ts : List Token} (h : ∀ t ∈ ts, t.StandsIn line) :
    startBlock? source (ts.map Token.mark) = some (Header.ofTokens? ts).isSome := by
  match ts with
  | [] | [t] => rfl
  | define :: next :: rest =>
    have hword := Token.slice?_of_standsIn hp (h define List.mem_cons_self)
    rw [Header.ofTokens?]
    show (if define.kind ≠ .ident then some false else (source.slice? define.span).bind _) = _
    rw [hword]
    by_cases hk : define.kind = .ident
    · rw [if_neg (not_not.2 hk)]
      show some (sameLetters define.text "def" && _) = _
      cases hd : sameLetters define.text "def" with
      | false => rw [if_neg (by simp)]; rfl
      | true =>
        rw [if_pos ⟨hk, rfl⟩]
        show some (decide (next.kind = .openParen) || decide (next.kind = .ident)) = _
        cases next.kind <;> rfl
    · rw [if_pos hk, if_neg fun hd => hk hd.1]
      rfl

theorem Header.parameters?_eq (header : Header) (h : ∀ t ∈ header.list, t.StandsIn line) :
    parameters? source ((header.name.map (·.span)).getD header.define)
      (header.list.map Token.mark) = some (header.parameters line) := by
  rw [parameters?, Call.read?_eq hp _ h, Schema.lookup?_define, parameters]
  show (match header.readParameters line with
    | .ok names => some (names, [])
    | .error fault => some ([], [fault])) = _
  cases header.readParameters line <;> rfl

/-- The parts of a header are found in its tokens. -/
theorem Header.splitName?_eq {ts : List Token} {header : Header} (h : ∀ t ∈ ts, t.StandsIn line)
    (hh : ofTokens? ts = some header) :
    ∃ define after list, ts = define :: after ∧
      Mark.splitName? source (after.map Token.mark) = some (header.name, list.map Token.mark) ∧
      list ⊆ after ∧
      header = ⟨define.span, header.name, dropColon list, define.reach after⟩ := by
  match ts with
  | [] | [t] => cases hh
  | define :: next :: rest =>
    rw [ofTokens?] at hh
    split at hh
    · split at hh
      · rename_i hk
        cases hh
        have hread := Token.read?_mark hp (h next (by simp))
        refine ⟨define, next :: rest, rest, rfl, ?_, List.subset_cons_self next rest, rfl⟩
        show (if next.kind ≠ .ident then some (none, (next :: rest).map Token.mark)
          else (next.mark.read? source).bind fun _ => Option.bind (cut? 1 _ _) _) = _
        rw [if_neg (not_not.2 hk), hread, cut?_map_cons]
        rfl
      · rename_i hk
        cases hh
        refine ⟨define, next :: rest, next :: rest, rfl, ?_, List.Subset.refl _, rfl⟩
        exact if_pos fun hi => by rw [show next.kind = _ from hi] at hk; cases hk
      · cases hh
    · cases hh

/-- A header is read as it is by its tokens. -/
theorem Heading.read?_eq {ts : List Token} {header : Header} (h : ∀ t ∈ ts, t.StandsIn line)
    (hh : Header.ofTokens? ts = some header) (isEntry : Bool) (earlier : List String) :
    read? source isEntry earlier (ts.map Token.mark) =
      some ((Opening.readable line header).read isEntry earlier, header.name.map (·.val)) := by
  obtain ⟨define, after, list, rfl, hname, hsub, hheader⟩ := Header.splitName?_eq hp h hh
  obtain ⟨place, name, parameterList, span⟩ := header
  cases hheader
  have hparameters := Header.parameters?_eq hp
    ⟨define.span, name, Header.dropColon list, define.reach after⟩ fun t ht =>
      h t (List.mem_cons_of_mem define (hsub (Header.mem_of_mem_dropColon ht)))
  rw [read?, cut?_map_cons, Mark.spanOf?_eq]
  show (Mark.splitName? source (after.map Token.mark)).bind _ = _
  rw [hname]
  show (Header.parameters? source ((name.map (·.span)).getD define.span)
    (Mark.dropColon (list.map Token.mark))).bind _ = _
  rw [Mark.dropColon_map_mark, show Header.parameters? source _ _ = _ from hparameters]
  rfl

namespace Progress

theorem readContent?_eq {t : Token} {ts : List Token} (ht : line.tokens = .ok (t :: ts))
    (p : Progress) :
    p.readContent? source t.mark (ts.map Token.mark) = some (p.next (Line.ofExcerpt line)) := by
  have hstands := Excerpt.standsIn_of_tokens ht
  rw [readContent?, Mark.reach_mark]
  show (Mark.startBlock? source ((t :: ts).map Token.mark)).bind _ = _
  rw [Mark.startBlock?_eq hp hstands]
  cases hh : Header.ofTokens? (t :: ts) with
  | some header =>
    have hline : Line.ofExcerpt line = .opening (.readable line header) := by
      simp only [Line.ofExcerpt, ht, hh]
    have hspan : header.span = t.reach ts := (Header.sublist_of_ofTokens? hh).2
    show (Heading.read? source _ _ ((t :: ts).map Token.mark)).bind _ = _
    rw [Heading.read?_eq hp hstands hh, hline, ← hspan]
    rfl
  | none =>
    have hline : Line.ofExcerpt line = .body (.content line t ts) := by
      simp only [Line.ofExcerpt, ht, hh]
    rw [hline, next]
    show (match p.open? with
      | none => some _
      | some o => (Statement.parse? source o.scope ((t :: ts).map Token.mark)).bind _) =
        some (match p.open? with
          | none => _
          | some o => _)
    cases p.open? with
    | none => rfl
    | some o =>
      dsimp only
      rw [Statement.parse?_eq hp hstands]
      rfl

/-- A line of a text is read in it as the line by itself. -/
theorem next?_eq (p : Progress) : p.next? source line = some (p.next (Line.ofExcerpt line)) := by
  rw [next?, Excerpt.marks]
  cases ht : line.tokens with
  | error string =>
    show (Line.startsWithDef? line.chars).bind _ = _
    rw [Line.startsWithDef?_eq]
    cases hd : Line.startsWithDef line.chars with
    | false =>
      have hline : Line.ofExcerpt line = .body (.unreadable string) := by
        simp [Line.ofExcerpt, ht, hd]
      rw [hline, next_unreadable]
      rfl
    | true =>
      have hline : Line.ofExcerpt line = .opening (.unreadable line string) := by
        simp [Line.ofExcerpt, ht, hd]
      rw [hline, next]
      dsimp only [Opening.contentSpan?]
      rw [noting_none]
      rfl
  | ok ts =>
    cases ts with
    | nil =>
      rw [Line.ofExcerpt, ht]
      exact congrArg some p.next_blank.symm
    | cons t ts => exact p.readContent?_eq hp ht

end Progress

end

theorem Progress.foldlM_next? {source : Excerpt} {lines : List Excerpt}
    (h : ∀ l ∈ lines, l.IsPart source) (p : Progress) :
    lines.foldlM (next? source) p = some ((lines.map Line.ofExcerpt).foldl next p) := by
  induction lines generalizing p with
  | nil => rfl
  | cons l lines ih =>
    obtain ⟨hl, hlines⟩ := List.forall_mem_cons.1 h
    rw [List.foldlM_cons, next?_eq hl]
    exact ih hlines _

theorem Program.parse?_eq (text : String) : parse? text = some (parse text) := by
  have hlines := Progress.foldlM_next?
    (fun l (hl : l ∈ (Excerpt.whole text).lines) => Excerpt.isPart_of_mem_lines hl) .start
  rw [parse?, LineStarts.lines?_eq]
  show (List.foldlM (Progress.next? (.whole text)) .start (Excerpt.whole text).lines).bind _ = _
  rw [hlines, Option.bind_some, Progress.finish_foldl]
  rfl

theorem Token.StandsIn.of_isPart {line source : Excerpt} {t : Token} (h : t.StandsIn line)
    (hp : line.IsPart source) : t.StandsIn source :=
  ⟨Excerpt.slice?_of_isPart hp h.1, h.2.of_isPart hp⟩

/-- The tokens of some lines of a text stand in it, and so does a string that is left open. -/
theorem Excerpt.mapM_tokens {source : Excerpt} {lines : List Excerpt}
    (h : ∀ l ∈ lines, l.IsPart source) :
    match lines.mapM tokens with
    | .ok tss => ∀ t ∈ tss.flatten, t.StandsIn source
    | .error string => source.Holds string.span := by
  induction lines with
  | nil => exact fun t ht => (by cases ht)
  | cons l lines ih =>
    obtain ⟨hl, hlines⟩ := List.forall_mem_cons.1 h
    have ih := ih hlines
    rw [List.mapM_cons]
    cases ht : l.tokens with
    | error string =>
      have hplaced := l.placed_holds
      rw [ht] at hplaced
      exact Holds.of_isPart hl hplaced
    | ok ts =>
      have hts := fun t hmem => (standsIn_of_tokens ht t hmem).of_isPart hl
      cases hrest : lines.mapM tokens with
      | error string =>
        rw [hrest] at ih
        exact ih
      | ok tss =>
        rw [hrest] at ih
        exact List.forall_mem_append.2 ⟨hts, ih⟩

/-- Every token can be cut out of the text, and so can a string that is left open. -/
theorem Excerpt.lineTokens?_eq (source : Excerpt) :
    source.lineTokens? = some source.lineTokens := by
  have h := mapM_tokens fun l (hl : l ∈ source.lines) => isPart_of_mem_lines hl
  rw [lineTokens?, lineTokens]
  cases htokens : source.lines.mapM tokens with
  | error string =>
    rw [htokens] at h
    obtain ⟨text, htext⟩ := Holds.exists_slice? h
    show (source.slice? string.span).bind _ = _
    rw [htext]
    rfl
  | ok tss =>
    rw [htokens] at h
    have hread : (tss.flatten.map Token.mark).mapM (Mark.read? source) = some tss.flatten :=
      mapM_of_forall₂ (List.forall₂_map_left_iff.2 (List.forall₂_same.2 fun t ht =>
        Token.read?_mark (.refl source) (h t ht)))
    show _ <$> (tss.flatten.map Token.mark).mapM (Mark.read? source) = _
    rw [hread]
    rfl

theorem Highlighter.gather?_eq {text : String}
    {ranges : LineStarts → List Span → Option (List LocalRange)}
    {found : List Span → List LocalRange}
    (h : ∀ spans, ranges (.ofText text) spans = some (found spans)) :
    gather? text ranges =
      some (Highlight.gather fun c => found (c.spans (Program.parse text))) := by
  have hfound : HighlightClass.all.mapM (fun c => (·.map (Highlight.mk c)) <$>
        ranges (.ofText text) (c.spans (Program.parse text))) =
      some (HighlightClass.all.map fun c =>
        (found (c.spans (Program.parse text))).map (Highlight.mk c)) :=
    mapM_of_forall fun c _ => by rw [h]; rfl
  rw [gather?, Program.parse?_eq]
  show Option.bind (List.mapM _ HighlightClass.all) _ = _
  rw [hfound]
  rfl

/-- On no text does anything fail: not in reading its tokens or the program, not in printing what
was read, and not in the highlights of the text or of any line. -/
theorem Program.never_fails (text : String) :
    (Excerpt.whole text).lineTokens? = some (Excerpt.whole text).lineTokens ∧
      Program.parse? text = some (parse text) ∧
      Program.reprint? text = some ((parse text).program.render 0) ∧
      Highlighter.all? text = some (Highlighter.ofText text).all ∧
      ∀ i, Highlighter.line? text i = some ((Highlighter.ofText text).line i) := by
  refine ⟨Excerpt.lineTokens?_eq _, parse?_eq text, ?_,
    Highlighter.gather?_eq (LineStarts.toLocals?_eq text),
    fun i => Highlighter.gather?_eq (LineStarts.rangesOnLine?_eq text i)⟩
  rw [reprint?, parse?_eq]
  rfl

end ShapeAssembly
