import ShapeAssembly.Proofs.Appending
import ShapeAssembly.Proofs.HeaderRecognition

namespace ShapeAssembly

/-- A keyword is found in any case. -/
theorem Schema.lookup?_congr {a b : String} (h : sameLetters a b) : lookup? a = lookup? b := by
  have hletters : a.toList.map Char.toLower = b.toList.map Char.toLower := of_decide_eq_true h
  have hname : (fun s : Schema => sameLetters s.name a) = fun s => sameLetters s.name b := by
    funext s
    rw [sameLetters, sameLetters, hletters]
  rw [lookup?, lookup?, hname]

section

variable {d n : Token} {ts : List Token}

theorem Token.eq_of_isDef (hd : d.word.isDef) :
    d.kind = .ident ∧ sameLetters d.text "def" = true := by
  have h : (decide (d.kind = .ident) && sameLetters d.text "def") = true := hd
  rwa [Bool.and_eq_true, decide_eq_true_eq] at h

theorem Header.ofTokens?_of_ident (hd : d.word.isDef) (hn : n.kind = .ident) :
    ofTokens? (d :: n :: ts) =
      some ⟨d.span, some n.name, dropColon ts, d.reach (n :: ts)⟩ := by
  rw [ofTokens?, if_pos (Token.eq_of_isDef hd)]
  simp only [hn]

/-- A `def` that is followed neither by a name nor by a list starts no header. -/
theorem Header.ofTokens?_eq_none (hi : n.kind ≠ .ident) (hp : n.kind ≠ .openParen) :
    ofTokens? (d :: n :: ts) = none := by
  rw [ofTokens?]
  split
  · split
    · exact absurd ‹_› hi
    · exact absurd ‹_› hp
    · rfl
  · rfl

/-- As a statement, such a line has the keyword of a header. -/
theorem Statement.parse_of_isDef (hd : d.word.isDef) (heq : n.kind ≠ .eq) (source : Excerpt)
    (scope : Scope) :
    parse source scope (d :: n :: ts) =
      (.failed (.ofStructure (.headerKeyword "Def") d.span), scope) := by
  obtain ⟨hkind, hletters⟩ := Token.eq_of_isDef hd
  have hlookup : Schema.lookup? d.text = some .define :=
    (Schema.lookup?_congr hletters).trans (by decide +kernel)
  have hsplit : splitResult (d :: n :: ts) = .ok (none, d :: n :: ts) := by
    rw [splitResult, if_pos heq]
  have hkeyword : readKeyword d = .error (.ofStructure (.headerKeyword "Def") d.span) := by
    rw [readKeyword, if_neg (not_not.2 hkind), hlookup]
    rfl
  have hhead : readHead (d :: n :: ts) =
      .error (.ofStructure (.headerKeyword "Def") d.span) := by
    rw [readHead, hsplit]
    show (readKeyword d >>= _) = _
    rw [hkeyword]
    rfl
  rw [parse, hhead]

namespace Excerpt

variable {line : Excerpt}

theorem ofExcerpt_of_header? {h : Header} (hh : line.header? = some h) :
    Line.ofExcerpt line = .opening (.readable line h) := by
  obtain ⟨ts, ht, hts⟩ := exists_tokens_of_header? hh
  cases ts with
  | nil => cases hts
  | cons t ts => simp only [Line.ofExcerpt, ht, hts]

/-- A header with a name is one also where the name is reserved. -/
theorem header?_of_ident (ht : line.tokens = .ok (d :: n :: ts)) (hd : d.word.isDef)
    (hn : n.kind = .ident) :
    line.isHeader ∧ ∃ h : Header, line.header? = some h ∧ h.name = some n.name := by
  have hh : line.header? = some _ :=
    (header?_of_tokens ht).trans (Header.ofTokens?_of_ident hd hn)
  exact ⟨by rw [isHeader_of_tokens ht, hh]; rfl, _, hh, rfl⟩

theorem isHeader_eq_false (ht : line.tokens = .ok (d :: n :: ts)) (hi : n.kind ≠ .ident)
    (hp : n.kind ≠ .openParen) : line.isHeader = false := by
  rw [isHeader_of_tokens ht, header?_of_tokens ht, Header.ofTokens?_eq_none hi hp]
  rfl

theorem read_of_isDef (ht : line.tokens = .ok (d :: n :: ts)) (hd : d.word.isDef)
    (heq : n.kind ≠ .eq) (scope : Scope) :
    line.bodyLine.read scope =
      (⟨none, some (.ofStructure (.headerKeyword "Def") d.span)⟩, scope) := by
  rw [bodyLine_of_cons ht, BodyLine.read, Statement.parse_of_isDef hd heq]
  rfl

end Excerpt

namespace Context

theorem mem_diagnostics {c : Context} {line : Excerpt} {f : Fault}
    (hf : f ∈ c.faults (Line.ofExcerpt line)) (rest : List Excerpt) :
    f.diagnostic ∈ c.diagnostics (line :: rest) := by
  apply List.mem_map_of_mem
  rw [Fault.mem_inOrder]
  exact List.mem_append_left _ hf

/-- A reserved name is reported where it stands. -/
theorem mem_faults_of_reserved (c : Context) {line : Excerpt} {h : Header}
    (hh : line.header? = some h) {n : Name} (hn : h.name = some n) (hr : isReserved n.val) :
    (⟨.invalidName .identifier n.val, n.span⟩ : Fault) ∈ c.faults (Line.ofExcerpt line) := by
  have hfault : h.nameFault? c.scope?.isNone c.names =
      some ⟨.invalidName .identifier n.val, n.span⟩ := by
    simp only [Header.nameFault?, hn, if_pos hr]
  rw [Excerpt.ofExcerpt_of_header? hh, faults, Opening.read_readable]
  dsimp only
  rw [hfault]
  exact List.mem_append_left _ (List.mem_singleton_self _)

/-- What is reported of a `def` that is followed neither by a name nor by a list. -/
theorem diagnostics_of_isDef (before : List Excerpt) {line : Excerpt} {d n : Token}
    {ts : List Token} (ht : line.tokens = .ok (d :: n :: ts)) (hd : d.word.isDef)
    (hl : line.isHeader = false) (heq : n.kind ≠ .eq) :
    (after before).diagnostics [line] = [Fault.diagnostic (.ofStructure
      (if before.any (·.isHeader) then .headerKeyword "Def" else .outsideBlock)
      (if before.any (·.isHeader) then d.span else d.reach (n :: ts)))] := by
  have hfaults : ∀ fault, (after before).faults (Line.ofExcerpt line) = [fault] →
      (after before).diagnostics [line] = [fault.diagnostic] := by
    intro fault h
    rw [diagnostics, List.map_singleton, reports, reports, h]
    rfl
  have hnone := isNone_scope?_after before
  rw [List.all_eq_not_any_not] at hnone
  simp only [Bool.not_not] at hnone
  apply hfaults
  rw [Excerpt.ofExcerpt_of_not_isHeader hl, faults]
  cases hscope : (after before).scope? with
  | none =>
    have hno : before.any (·.isHeader) = false := by simpa [hscope] using hnone
    rw [hno, Excerpt.bodyLine_of_cons ht]
    rfl
  | some scope =>
    have hsome : before.any (·.isHeader) = true := by simpa [hscope] using hnone
    rw [hsome]
    dsimp only
    rw [Excerpt.read_of_isDef ht hd heq]
    rfl

end Context

/-- A line that leaves nothing might as well not stand among the lines. -/
theorem BodyLine.statements_of_nothing {line : BodyLine} {fault? : Option Fault}
    (h : ∀ scope, line.read scope = (⟨none, fault?⟩, scope)) (scope : Scope)
    (body more : List BodyLine) :
    statements scope (body ++ line :: more) = statements scope (body ++ more) := by
  rw [statements_append, statements_append, statements_cons, h]
  rfl

namespace Program

theorem blockDefinitions_of_nothing {line : Excerpt} (hl : line.isHeader = false)
    {fault? : Option Fault} (h : ∀ scope, line.bodyLine.read scope = (⟨none, fault?⟩, scope))
    (before rest : List Excerpt) :
    blockDefinitions (before ++ line :: rest) = blockDefinitions (before ++ rest) := by
  by_cases hbefore : ∃ l ∈ before, l.isHeader
  · obtain ⟨above, header, body, rfl, hh, hb⟩ := Excerpt.exists_last_header hbefore
    obtain ⟨op, isEntry, earlier, -, hblocks⟩ := exists_blockDefinitions_append above hh
    rw [hblocks body _ hb, hblocks body _ hb, List.map_cons, Block.group_cons_body hl,
      Block.definition?_eq, Block.definition?_eq, BodyLine.statements_of_nothing h]
  · -- the line is loose, and the blocks start below it
    have hb : ∀ l ∈ before, l.isHeader = false := by simpa using hbefore
    rw [blockDefinitions, blockDefinitions, List.map_append, List.map_append, List.map_cons,
      Section.map_ofExcerpt_of_not_isHeader hb, Block.group_body_append, Block.group_body_append,
      Block.group_cons_body hl]

/-- A `def` that is followed by a reserved word or a number. Before the reserved word it is a
header, which is reported at that word and starts a block with a scope of its own. Before the number
it is a line that leaves nothing: it is reported at the `def`, and the block above it goes on. -/
theorem parse_header_name {text : String} {before body rest : List Excerpt} {line : Excerpt}
    {d n : Token} {ts : List Token}
    (hlines : (Excerpt.whole text).lines = before ++ line :: (body ++ rest))
    (hb : ∀ l ∈ body, l.isHeader = false)
    (ht : line.tokens = .ok (d :: n :: ts)) (hd : d.word.isDef) :
    (n.kind = .ident → isReserved n.text →
      Fault.diagnostic ⟨.invalidName .identifier n.text, n.span⟩ ∈ (parse text).diagnostics ∧
      (Context.after (before ++ line :: body)).scope? =
        some (BodyLine.scopeAfter line.headerScope (body.map Excerpt.bodyLine)) ∧
      (parse text).program.definitions =
        (blockDefinitions (Excerpt.whole text).lines).reduceOption ∧
      ∃ o vs, blockDefinitions (Excerpt.whole text).lines = blockDefinitions before ++ o :: vs) ∧
    (n.kind = .number →
      (∃ ds es,
        (parse text).diagnostics.filter (!·.isMissingEntry) =
          ds ++ Fault.diagnostic (.ofStructure
            (if before.any (·.isHeader) then .headerKeyword "Def" else .outsideBlock)
            (if before.any (·.isHeader) then d.span else d.reach (n :: ts))) :: es ∧
        (∀ e ∈ ds, ∃ l ∈ before, e.span.Within l.span) ∧
        ∀ e ∈ es, ∃ l ∈ body ++ rest, e.span.Within l.span) ∧
      Context.after (before ++ [line]) = Context.after before ∧
      blockDefinitions (Excerpt.whole text).lines = blockDefinitions (before ++ (body ++ rest)) ∧
      ((∃ l ∈ (Excerpt.whole text).lines, l.isHeader) →
        (parse text).program.definitions =
          (blockDefinitions (Excerpt.whole text).lines).reduceOption)) := by
  have hplaces := Excerpt.pairwise_lines (.whole text)
  rw [hlines] at hplaces
  constructor
  · intro hn hr
    obtain ⟨hl, h, hh, hname⟩ := Excerpt.header?_of_ident ht hd hn
    have hheader : ∃ l ∈ (Excerpt.whole text).lines, l.isHeader :=
      ⟨line, hlines ▸ List.mem_append_right _ List.mem_cons_self, hl⟩
    obtain ⟨op, isEntry, earlier, -, hblocks⟩ := exists_blockDefinitions_append before hl
    refine ⟨?_, Context.scope?_after hl hb before, definitions_parse hheader, ?_⟩
    · rw [diagnostics_of_header hheader, hlines, Context.diagnostics_append [] hplaces]
      apply List.mem_append_right
      exact Context.mem_diagnostics (Context.mem_faults_of_reserved _ hh hname hr) _
    · rw [hlines, ← List.cons_append, ← List.append_assoc, hblocks body rest hb]
      exact ⟨_, _, rfl⟩
  · intro hn
    have heq : n.kind ≠ .eq := by rw [hn]; decide
    have hl : line.isHeader = false :=
      Excerpt.isHeader_eq_false ht (by rw [hn]; decide) (by rw [hn]; decide)
    have hread := Excerpt.read_of_isDef ht hd heq
    refine ⟨?_, ?_, ?_, definitions_parse⟩
    · have hrest : (line :: (body ++ rest)).Pairwise _ := (List.pairwise_append.1 hplaces).2.1
      rw [← List.singleton_append] at hrest
      rw [filter_diagnostics, hlines, Context.diagnostics_append [] hplaces,
        ← List.singleton_append, Context.diagnostics_append _ hrest, List.nil_append,
        Context.diagnostics_of_isDef before ht hd hl heq]
      exact ⟨_, _, rfl, fun e => Context.exists_of_mem_diagnostics,
        fun e => Context.exists_of_mem_diagnostics⟩
    · rw [Context.after_append_singleton, Context.next_body _ hl]
      simp only [hread, Option.map_id']
    · rw [hlines, blockDefinitions_of_nothing hl hread]

/-- Below `def 2():` the block of `main` goes on. -/
theorem parse_header_name_number :
    let text := "def main():\ndef 2():\n    a = Cuboid(1, 1, 1)"
    let above : Excerpt := ⟨0, "def main():".toList⟩
    let line : Excerpt := ⟨12, "def 2():".toList⟩
    let below : Excerpt := ⟨21, "    a = Cuboid(1, 1, 1)".toList⟩
    (Excerpt.whole text).lines = [above, line, below] ∧ below.isHeader = false ∧
      Context.after [above, line] = Context.after [above] ∧
      blockDefinitions (Excerpt.whole text).lines = blockDefinitions [above, below] := by
  intro text above line below
  have hlines : (Excerpt.whole text).lines = [above] ++ line :: ([below] ++ []) := by
    decide +kernel
  have hb : ∀ l ∈ [below], l.isHeader = false := by decide +kernel
  have ht : line.tokens = .ok [⟨.ident, "def", ⟨12, 15⟩⟩, ⟨.number, "2", ⟨16, 17⟩⟩,
      ⟨.openParen, "(", ⟨17, 18⟩⟩, ⟨.closeParen, ")", ⟨18, 19⟩⟩, ⟨.colon, ":", ⟨19, 20⟩⟩] := by
    decide +kernel
  obtain ⟨-, hnumber⟩ := parse_header_name hlines hb ht (by decide +kernel)
  obtain ⟨-, hafter, hblocks, -⟩ := hnumber rfl
  exact ⟨hlines, hb below (List.mem_singleton_self _), hafter, hblocks⟩

/-- Nothing says that `2` is no name, and the statement below it is in `main`. -/
theorem statements_parse_number :
    let text := "def main():\ndef 2():\n    a = Cuboid(1, 1, 1)"
    let line : Excerpt := ⟨12, "def 2():".toList⟩
    line ∈ (Excerpt.whole text).lines ∧
      line.words? = some [⟨.ident, "def"⟩, ⟨.number, "2"⟩, ⟨.openParen, "("⟩, ⟨.closeParen, ")"⟩,
        ⟨.colon, ":"⟩] ∧
      (∀ d ∈ (parse text).diagnostics, d.code ≠ .kindMismatch) ∧
      (parse text).program.definitions.map (fun d => (d.nameText, d.statements.length)) =
        [(some "main", 1)] := by
  decide +kernel

end Program

end

end ShapeAssembly
