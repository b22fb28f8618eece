import ShapeAssembly.Proofs.CheckedLines
import ShapeAssembly.Proofs.MaximalMunch

namespace ShapeAssembly

namespace Lexeme

theorem stringTail_append_newline (as bs : List Char) :
    stringTail (as ++ '\n' :: bs) = stringTail as := by
  fun_induction stringTail as with
  | case1 | case2 | case3 | case4 | case5 => rfl
  | case6 c cs hc closed n ht ih =>
    rw [List.cons_append, List.cons_append, stringTail_escape hc, ih, ht]
  | case7 c cs hq hn hb hb' closed n ht ih =>
    rw [List.cons_append, stringTail_plain hq (ne_backslash hb hb') hn, ih, ht]

/-- How far a lexeme goes does not depend on what stands after its line. -/
theorem munch_append_newline (c : Char) (as bs : List Char) :
    munch c (as ++ '\n' :: bs) = munch c as := by
  have hrun : ∀ p : Char → Bool, p '\n' = false →
      run p (as ++ '\n' :: bs) = run p as := fun p hp =>
    run_append (fun c hc => by rwa [← Option.some.inj hc]) as
  have hstops : Stops ('\n' :: bs) := fun c hc => by
    rw [← Option.some.inj hc]
    decide
  rw [munch, munch, hrun _ rfl, hrun _ rfl, hrun _ rfl, stringTail_append_newline,
    ← List.cons_append, numberLength_append hstops]

/-- A newline is a lexeme of its own, and cuts the text. -/
theorem scanAfter_append_newline {n : Nat} {as : List Char} (h : n ≤ as.length) (bs : List Char) :
    scanAfter n (as ++ '\n' :: bs) = scanAfter n as ++ ⟨some .error, ['\n']⟩ :: scan bs := by
  induction as generalizing n with
  | nil =>
    obtain rfl := Nat.le_zero.1 h
    rfl
  | cons c as ih =>
    cases n with
    | succ n => exact ih (Nat.le_of_succ_le_succ h)
    | zero =>
      have hle := munch_le c as
      rw [List.cons_append, scanAfter, scanAfter, munch_append_newline]
      simp only [ih hle, List.take_append_of_le_length hle, List.cons_append]

theorem scan_append_newline (as bs : List Char) :
    scan (as ++ '\n' :: bs) = scan as ++ ⟨some .error, ['\n']⟩ :: scan bs :=
  scanAfter_append_newline (Nat.zero_le _) bs

end Lexeme

namespace Token

theorem place_append (start : Nat) (ls more : List Lexeme) :
    place start (ls ++ more) = do
      let ts ← place start ls
      let us ← place (start + byteSize (ls.flatMap (·.chars))) more
      return ts ++ us := by
  induction ls generalizing start with
  | nil =>
    show place start more = place start more >>= Except.ok
    cases place start more <;> rfl
  | cons l ls ih =>
    obtain ⟨kind, cs⟩ := l
    rw [List.cons_append, List.flatMap_cons, byteSize_append, ← Nat.add_assoc]
    cases kind with
    | none => exact ih _
    | some kind =>
      by_cases hk : kind = .unterminatedString
      · subst hk
        rfl
      · rw [place_cons hk, place_cons hk, ih]
        cases place (start + byteSize cs) ls with
        | error string => rfl
        | ok ts => cases place _ more <;> rfl

/-- What a newline is read as, where lines are not read one by one. -/
def newlineAt (offset : Nat) : Token := ⟨.error, "\n", ⟨offset, offset + 1⟩⟩

def isNewline (t : Token) : Bool := t.kind = .error && t.text = "\n"

theorem isNewline_newlineAt (offset : Nat) : (newlineAt offset).isNewline = true := rfl

end Token

namespace Excerpt

open Token (newlineAt)

theorem tokens_append_newline (start : Nat) (as bs : List Char) :
    tokens ⟨start, as ++ '\n' :: bs⟩ = do
      let ts ← tokens ⟨start, as⟩
      let us ← tokens ⟨start + byteSize as + 1, bs⟩
      return ts ++ newlineAt (start + byteSize as) :: us := by
  have hflat : (Lexeme.scan as).flatMap (·.chars) = as := flatMap_chars_scan ⟨start, as⟩
  rw [tokens, Lexeme.scan_append_newline, Token.place_append, hflat, Token.place_cons (by decide)]
  show (tokens ⟨start, as⟩ >>= fun ts => (newlineAt (start + byteSize as) :: ·) <$>
    tokens ⟨start + byteSize as + 1, bs⟩ >>= fun us => Except.ok (ts ++ us)) = _
  cases tokens ⟨start, as⟩ with
  | error string => rfl
  | ok ts => cases tokens ⟨start + byteSize as + 1, bs⟩ <;> rfl

theorem lineTokens_append_newline (start : Nat) (as bs : List Char) :
    lineTokens ⟨start, as ++ '\n' :: bs⟩ = do
      let ts ← lineTokens ⟨start, as⟩
      let us ← lineTokens ⟨start + byteSize as + 1, bs⟩
      return ts ++ us := by
  rw [lineTokens, lines_append_newline, List.mapM_append, lineTokens, lineTokens]
  cases (lines ⟨start, as⟩).mapM tokens with
  | error string => rfl
  | ok tss =>
    cases (lines ⟨start + byteSize as + 1, bs⟩).mapM tokens with
    | error string => rfl
    | ok uss => exact congrArg Except.ok List.flatten_append

theorem lineTokens_of_notMem {start : Nat} {cs : List Char} (h : '\n' ∉ cs) :
    lineTokens ⟨start, cs⟩ = tokens ⟨start, cs⟩ := by
  rw [lineTokens, lines_of_not_mem h, List.mapM_cons, List.mapM_nil]
  cases tokens ⟨start, cs⟩ with
  | error string => rfl
  | ok ts => exact congrArg Except.ok (List.append_nil ts)

/-- There is no newline among the tokens of a line. -/
theorem isNewline_eq_false {line : Excerpt} {ts : List Token} (hn : '\n' ∉ line.chars)
    (h : line.tokens = .ok ts) {t : Token} (ht : t ∈ ts) : t.isNewline = false := by
  have hno : '\n' ∉ t.text.toList := notMem_of_slice? hn (shows_of_mem h ht)
  rw [Token.isNewline, Bool.and_eq_false_iff]
  right
  rw [decide_eq_false_iff_not]
  intro htext
  rw [htext] at hno
  exact hno (List.mem_singleton_self _)

theorem lineTokens_eq_filter (e : Excerpt) :
    e.lineTokens = (·.filter (!·.isNewline)) <$> e.tokens := by
  obtain ⟨start, cs⟩ := e
  induction hn : cs.length using Nat.strong_induction_on generalizing start cs with
  | _ n ih =>
    by_cases hmem : '\n' ∈ cs
    · obtain ⟨as, bs, rfl⟩ := List.append_of_mem hmem
      rw [List.length_append, List.length_cons] at hn
      rw [lineTokens_append_newline, tokens_append_newline, ih _ (by omega) start as rfl,
        ih _ (by omega) _ bs rfl]
      cases tokens ⟨start, as⟩ with
      | error string => rfl
      | ok ts =>
        cases tokens ⟨start + byteSize as + 1, bs⟩ with
        | error string => rfl
        | ok us =>
          refine congrArg Except.ok ?_
          simp only [List.filter_append]
          rw [List.filter_cons_of_neg (by simp [Token.isNewline_newlineAt])]
    · rw [lineTokens_of_notMem hmem]
      cases htokens : tokens ⟨start, cs⟩ with
      | error string => rfl
      | ok ts =>
        refine congrArg Except.ok (List.filter_eq_self.2 fun t ht => ?_).symm
        rw [isNewline_eq_false hmem htokens ht]
        rfl

/-- Reads pieces of a text one after the other and counts up the offset. -/
def pieceTokens (offset : Nat) (found : List Token) :
    List (List Char) → Except UnterminatedString (List Token)
  | [] => .ok found
  | cs :: rest => do
    let ts ← tokens ⟨offset, cs⟩
    pieceTokens (offset + (byteSize cs + 1)) (found ++ ts) rest

def splitTokens (text : String) : Except UnterminatedString (List Token) :=
  pieceTokens 0 [] (text.toList.splitOn '\n')

theorem pieceTokens_eq (offset : Nat) (found : List Token) (pieces : List (List Char)) :
    pieceTokens offset found pieces =
      (fun tss => found ++ tss.flatten) <$> (layOut offset pieces).mapM tokens := by
  induction pieces generalizing offset found with
  | nil => exact congrArg Except.ok (List.append_nil found).symm
  | cons cs rest ih =>
    rw [pieceTokens, layOut, List.mapM_cons]
    cases tokens ⟨offset, cs⟩ with
    | error string => rfl
    | ok ts =>
      show pieceTokens _ _ rest = _
      rw [ih, Nat.add_assoc]
      cases (layOut (offset + (byteSize cs + 1)) rest).mapM tokens with
      | error string => rfl
      | ok tss => exact congrArg Except.ok (List.append_assoc found ts tss.flatten)

theorem map_chars_lines (start : Nat) (cs : List Char) :
    (lines ⟨start, cs⟩).map chars = cs.splitOn '\n' := by
  induction cs generalizing start with
  | nil => rfl
  | cons c cs ih =>
    rw [List.splitOn, List.splitOnP_cons_eq_if_modifyHead]
    by_cases hc : c = '\n'
    · subst hc
      rw [lines_newline, List.map_cons, ih]
      rfl
    · obtain ⟨line, more, hl, hcons⟩ := lines_cons hc start cs
      have ih := ih (start + c.utf8Size)
      rw [hl, List.splitOn] at ih
      rw [hcons, if_neg (by simpa using hc), ← ih]
      rfl

theorem splitTokens_eq (text : String) : splitTokens text = (whole text).lineTokens := by
  have hlines : layOut 0 (text.toList.splitOn '\n') = (whole text).lines := by
    rw [← map_chars_lines 0]
    exact (lines_eq_layOut (whole text)).1.symm
  rw [splitTokens, pieceTokens_eq, hlines]
  rfl

/-- A text has the same tokens whether it is split at its newlines, cut by its line starts or read
as one line of which the newlines are taken out, and fails at the same string. -/
theorem splitTokens_agrees (text : String) :
    (∃ lines, (LineStarts.ofText text).lines? (.whole text) = some lines ∧
      (∀ ts, splitTokens text = .ok ts ↔
        ∃ tss, List.Forall₂ (fun l ts => tokens l = .ok ts) lines tss ∧ tss.flatten = ts) ∧
      ∀ string, splitTokens text = .error string ↔
        ∃ before line after, lines = before ++ line :: after ∧
          (∀ l ∈ before, ∃ ts, tokens l = .ok ts) ∧ tokens line = .error string) ∧
    splitTokens text = (·.filter (!·.isNewline)) <$> (whole text).tokens := by
  refine ⟨⟨_, LineStarts.lines?_eq text, fun ts => ?_, fun string => ?_⟩, ?_⟩
  · rw [splitTokens_eq, lineTokens, map_eq_ok]
    simp only [mapM_eq_ok]
  · rw [splitTokens_eq, lineTokens, ← mapM_eq_error]
    cases (whole text).lines.mapM tokens with
    | error string' => exact ⟨fun h => congrArg _ (Except.error.inj h),
        fun h => congrArg _ (Except.error.inj h)⟩
    | ok tss => exact ⟨fun h => (by cases h), fun h => (by cases h)⟩
  · rw [splitTokens_eq, lineTokens_eq_filter]

end Excerpt

end ShapeAssembly
