import ShapeAssembly.Proofs.Printable

namespace ShapeAssembly

namespace BodyLine

/-- The words of a line that is not blank, with none if it does not lex. -/
def wordLines : BodyLine → List (Option (List Word))
  | blank => []
  | unreadable _ => [none]
  | content _ first rest => [some ((first :: rest).map Token.word)]

inductive Lawful : BodyLine → Prop
  | blank : Lawful blank
  | unreadable (string : UnterminatedString) : Lawful (unreadable string)
  | content {source : Excerpt} {first : Token} {rest : List Token}
    (hl : ∀ t ∈ first :: rest, t.IsLexed) (hh : Header.ofTokens? (first :: rest) = none) :
    Lawful (content source first rest)

theorem Lawful.isHeader_eq_false {b : BodyLine} (h : b.Lawful) {ws : List Word}
    (hw : some ws ∈ b.wordLines) : Word.isHeader ws = false := by
  cases h with
  | blank => simp [wordLines] at hw
  | unreadable => simp [wordLines] at hw
  | content hl hh =>
    obtain rfl : ws = _ := by simpa [wordLines] using hw
    rw [← List.map_cons, Header.isHeader_words, hh]
    rfl

end BodyLine

namespace Opening

def words? : Opening → Option (List Word)
  | readable source _ => source.words?
  | unreadable .. => none

inductive Lawful : Opening → Prop
  | readable {source : Excerpt} {ts : List Token} {header : Header}
    (ht : source.tokens = .ok ts) (hh : Header.ofTokens? ts = some header) :
    Lawful (readable source header)
  | unreadable (source : Excerpt) (string : UnterminatedString) :
    Lawful (unreadable source string)

theorem Lawful.isHeader {o : Opening} (h : o.Lawful) {ws : List Word} (hw : o.words? = some ws) :
    Word.isHeader ws := by
  cases h with
  | unreadable => cases hw
  | readable ht hh =>
    rw [words?, Excerpt.words?_of_tokens ht] at hw
    obtain rfl := Option.some.inj hw
    rw [Header.isHeader_words, hh]
    rfl

end Opening

namespace Line

def wordLines : Line → List (Option (List Word))
  | opening o => [o.words?]
  | body b => b.wordLines

def Lawful : Line → Prop
  | opening o => o.Lawful
  | body b => b.Lawful

theorem ofExcerpt_spec (e : Excerpt) :
    (ofExcerpt e).Lawful ∧ (ofExcerpt e).wordLines = [e.words?].filter (· ≠ some []) := by
  have hl := fun ts (ht : e.tokens = .ok ts) t => Excerpt.isLexed_of_mem ht (t := t)
  have hw := fun ts (ht : e.tokens = .ok ts) => Excerpt.words?_of_tokens ht
  rw [ofExcerpt]
  split
  · rename_i string ht
    have hnone : e.words? = none := by
      rw [Excerpt.words?, ht]
      rfl
    rw [hnone]
    split
    · exact ⟨.unreadable e string, rfl⟩
    · exact ⟨.unreadable string, rfl⟩
  · rename_i ht
    rw [hw [] ht]
    exact ⟨.blank, rfl⟩
  · rename_i t ts ht
    split
    · rename_i header hh
      refine ⟨.readable ht hh, ?_⟩
      rw [hw _ ht, wordLines, Opening.words?, hw _ ht]
      rfl
    · rename_i hh
      refine ⟨.content (hl _ ht) hh, ?_⟩
      rw [hw _ ht]
      rfl

theorem lawful_ofExcerpt (e : Excerpt) : (ofExcerpt e).Lawful := (ofExcerpt_spec e).1

/-- The words of a text are those of its lines. -/
theorem flatMap_wordLines (es : List Excerpt) :
    (es.map ofExcerpt).flatMap wordLines = (es.map Excerpt.words?).filter (· ≠ some []) := by
  induction es with
  | nil => rfl
  | cons e es ih =>
    rw [List.map_cons, List.flatMap_cons, ih, (ofExcerpt_spec e).2, List.map_cons,
      ← List.filter_append, List.singleton_append]

end Line

namespace BodyLine

theorem readAll_cons (scope : Scope) (line : BodyLine) (rest : List BodyLine) :
    readAll scope (line :: rest) = (line.read scope).1 :: readAll (line.read scope).2 rest := rfl

theorem readAll_content (scope : Scope) (source : Excerpt) (first : Token) (rest : List Token)
    (body : List BodyLine) :
    readAll scope (content source first rest :: body) =
      ⟨(Statement.parse source scope (first :: rest)).1.statement?,
        (Statement.parse source scope (first :: rest)).1.fault?⟩ ::
        readAll (Statement.parse source scope (first :: rest)).2 body := rfl

theorem allReadable_readAll {scope : Scope} {body : List BodyLine} (hl : ∀ b ∈ body, b.Lawful) :
    Statement.AllReadable scope.names ((readAll scope body).filterMap (·.statement?)) := by
  induction body generalizing scope with
  | nil => trivial
  | cons b body ih =>
    have ih := fun {scope} => @ih scope fun c hc => hl c (List.mem_cons_of_mem b hc)
    cases hl b List.mem_cons_self with
    | blank | unreadable => exact ih
    | @content source first rest hlex hh =>
      rw [readAll_content]
      cases hs : (Statement.parse source scope (first :: rest)).1.statement? with
      | none =>
        -- the line is dropped and binds nothing
        rw [Statement.scope_of_failed hs]
        exact ih
      | some s =>
        obtain ⟨hread, hnames⟩ := Statement.readable_of_parse hlex hs
        refine ⟨hread, ?_⟩
        rw [← hnames]
        exact ih

/-- Lines without a fault are complete statements, and these are all that the lines say. -/
theorem allSound_readAll {scope : Scope} {body : List BodyLine} (hl : ∀ b ∈ body, b.Lawful)
    (hf : (readAll scope body).filterMap (·.fault?) = []) :
    Statement.AllSound scope.names ((readAll scope body).filterMap (·.statement?)) ∧
      body.flatMap wordLines =
        ((readAll scope body).filterMap (·.statement?)).map (some ·.words) := by
  induction body generalizing scope with
  | nil => exact ⟨trivial, rfl⟩
  | cons b body ih =>
    have ih := fun {scope} => @ih scope fun c hc => hl c (List.mem_cons_of_mem b hc)
    cases hl b List.mem_cons_self with
    | blank => exact ih hf
    | unreadable => cases hf
    | @content source first rest hlex hh =>
      rw [readAll_content] at hf ⊢
      cases hfault : (Statement.parse source scope (first :: rest)).1.fault? with
      | some fault =>
        rw [hfault] at hf
        cases hf
      | none =>
        obtain ⟨s, hs, hsound, hw⟩ := Statement.sound_of_parse hlex hfault
        have hnames := (Statement.readable_of_parse hlex hs).2
        rw [hsound.binds] at hnames
        rw [hfault] at hf
        obtain ⟨hrest, hwords⟩ := ih hf
        rw [hnames] at hrest
        rw [hs, List.flatMap_cons, hwords]
        refine ⟨⟨hsound, hrest⟩, ?_⟩
        rw [wordLines, hw]
        rfl

/-- Lines that spell statements are read as these, without a fault if they are complete. -/
theorem readAll_of_words {scope : Scope} {body : List BodyLine} {ss : List Statement}
    (hl : ∀ b ∈ body, b.Lawful) (hw : body.flatMap wordLines = ss.map (some ·.words))
    (hs : Statement.AllReadable scope.names ss) :
    ((readAll scope body).filterMap (·.statement?)).map Statement.erase =
        ss.map Statement.erase ∧
      (Statement.AllSound scope.names ss → (readAll scope body).filterMap (·.fault?) = []) := by
  induction body generalizing scope ss with
  | nil =>
    obtain rfl : ss = [] := by simpa using hw.symm
    exact ⟨rfl, fun _ => rfl⟩
  | cons b body ih =>
    have ih := fun {scope ss} => @ih scope ss
      fun c hc => hl c (List.mem_cons_of_mem b hc)
    cases hl b List.mem_cons_self with
    | blank => exact ih hw hs
    | unreadable =>
      cases ss <;> cases hw
    | @content source first rest hlex hh =>
      match ss with
      | [] => cases hw
      | s :: ss =>
        rw [List.flatMap_cons, List.map_cons] at hw
        obtain ⟨hword, hrest⟩ := List.cons.inj hw
        obtain ⟨s', hs', he, hsound⟩ :=
          Statement.parse_of_words source hlex (Option.some.inj hword) hs.1
        -- what was read binds the same names as what is spelled
        have hnames := (Statement.readable_of_parse hlex hs').2
        rw [Statement.binds_congr he] at hnames
        obtain ⟨hstatements, hfaults⟩ :=
          @ih (Statement.parse source scope (first :: rest)).2 ss hrest
            (by rw [hnames]; exact hs.2)
        rw [readAll_content, hs']
        refine ⟨?_, fun hall => ?_⟩
        · rw [List.map_cons, ← he, ← hstatements]
          rfl
        · rw [hsound hall.1]
          apply hfaults
          rw [hnames, hall.1.binds]
          exact hall.2

end BodyLine

end ShapeAssembly
