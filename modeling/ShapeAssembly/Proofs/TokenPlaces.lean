import ShapeAssembly.Proofs.Slices

namespace ShapeAssembly

/-- Spans that follow one another in another span, each with a byte at least. -/
structure Span.InTurn (parts : List Span) (whole : Span) : Prop where
  within : ∀ s ∈ parts, s.Within whole
  nonempty : ∀ s ∈ parts, s.start < s.stop
  ordered : parts.Pairwise fun a b => a.stop ≤ b.start

namespace Span.InTurn

variable {parts more : List Span} {whole whole' : Span}

theorem nil (whole : Span) : InTurn [] whole :=
  ⟨fun _ h => (by cases h), fun _ h => (by cases h), .nil⟩

theorem sublist (h : InTurn parts whole) (hs : more.Sublist parts) : InTurn more whole :=
  ⟨fun s hmem => h.within s (hs.subset hmem), fun s hmem => h.nonempty s (hs.subset hmem),
    h.ordered.sublist hs⟩

theorem mono (h : InTurn parts whole) (hw : ∀ s ∈ parts, s.Within whole') : InTurn parts whole' :=
  ⟨hw, h.nonempty, h.ordered⟩

theorem append (h : InTurn parts whole) (h' : InTurn more whole)
    (hlt : ∀ a ∈ parts, ∀ b ∈ more, a.stop ≤ b.start) : InTurn (parts ++ more) whole :=
  ⟨List.forall_mem_append.2 ⟨h.within, h'.within⟩,
    List.forall_mem_append.2 ⟨h.nonempty, h'.nonempty⟩,
    List.pairwise_append.2 ⟨h.ordered, h'.ordered, hlt⟩⟩

end Span.InTurn

theorem Lexeme.chars_ne_nil {n : Nat} {cs : List Char} {l : Lexeme} (h : l ∈ scanAfter n cs) :
    l.chars ≠ [] := by
  induction cs generalizing n with
  | nil => cases n <;> cases h
  | cons c cs ih =>
    cases n with
    | succ n => exact ih h
    | zero =>
      rcases List.mem_cons.1 h with rfl | h
      · exact List.cons_ne_nil _ _
      · exact ih h

namespace Token

/-- Tokens laid out from some byte on, as lexemes become them. -/
inductive Laid : Nat → List Lexeme → List Token → Prop
  | nil {start : Nat} : Laid start [] []
  | blank {start : Nat} {cs : List Char} {ls : List Lexeme} {ts : List Token}
    (h : Laid (start + byteSize cs) ls ts) : Laid start (⟨none, cs⟩ :: ls) ts
  | token {start : Nat} {kind : TokenKind} {cs : List Char} {ls : List Lexeme} {ts : List Token}
    (h : Laid (start + byteSize cs) ls ts) :
    Laid start (⟨some kind, cs⟩ :: ls)
      (⟨kind, String.ofList cs, ⟨start, start + byteSize cs⟩⟩ :: ts)

theorem laid_of_place {start : Nat} {ls : List Lexeme} {ts : List Token}
    (h : place start ls = .ok ts) : Laid start ls ts := by
  induction ls generalizing start ts with
  | nil =>
    cases h
    exact .nil
  | cons l ls ih =>
    obtain ⟨kind, cs⟩ := l
    match kind with
    | none => exact .blank (ih h)
    | some kind =>
      by_cases hk : kind = .unterminatedString
      · rw [hk, place_open] at h
        cases h
      · rw [place_cons hk, map_eq_ok] at h
        obtain ⟨rest, hrest, rfl⟩ := h
        exact .token (ih hrest)

theorem isPart_below (start : Nat) (l : Lexeme) (ls : List Lexeme) :
    Excerpt.IsPart ⟨start + byteSize l.chars, ls.flatMap (·.chars)⟩
      ⟨start, (l :: ls).flatMap (·.chars)⟩ :=
  ⟨l.chars, [], by simp, rfl⟩

/-- A token has the text that stands at its place. -/
theorem Laid.slice? {start : Nat} {ls : List Lexeme} {ts : List Token} (h : Laid start ls ts) :
    ∀ t ∈ ts, Excerpt.slice? ⟨start, ls.flatMap (·.chars)⟩ t.span = some t.text := by
  induction h with
  | nil => exact fun t ht => (by cases ht)
  | blank h ih => exact fun t ht => Excerpt.slice?_of_isPart (isPart_below _ _ _) (ih t ht)
  | @token start kind cs ls ts h ih =>
    refine List.forall_mem_cons.2 ⟨?_, fun t ht =>
      Excerpt.slice?_of_isPart (isPart_below _ ⟨some kind, cs⟩ _) (ih t ht)⟩
    rw [Excerpt.slice?_eq_some, String.toList_ofList]
    exact ⟨⟨[], ls.flatMap (·.chars), rfl, rfl⟩, rfl⟩

theorem Laid.start_le {start : Nat} {ls : List Lexeme} {ts : List Token} (h : Laid start ls ts) :
    ∀ t ∈ ts, start ≤ t.span.start := by
  induction h with
  | nil => exact fun t ht => (by cases ht)
  | blank h ih => exact fun t ht => (Nat.le_add_right _ _).trans (ih t ht)
  | token h ih =>
    exact List.forall_mem_cons.2 ⟨Nat.le_refl _, fun t ht => (Nat.le_add_right _ _).trans (ih t ht)⟩

theorem Laid.pairwise {start : Nat} {ls : List Lexeme} {ts : List Token} (h : Laid start ls ts) :
    ts.Pairwise fun a b => a.span.stop ≤ b.span.start := by
  induction h with
  | nil => exact .nil
  | blank h ih => exact ih
  | token h ih => exact .cons h.start_le ih

/-- Lexemes of one character at least are laid out as spans of whole characters. -/
theorem placed_holds (start : Nat) {ls : List Lexeme} (hl : ∀ l ∈ ls, l.chars ≠ []) :
    Placed (Excerpt.Holds ⟨start, ls.flatMap (·.chars)⟩) (place start ls) := by
  induction ls generalizing start with
  | nil => exact fun t ht => (by cases ht)
  | cons l ls ih =>
    obtain ⟨hl, hls⟩ := List.forall_mem_cons.1 hl
    have hrest := (ih (start + byteSize l.chars) hls).mono fun _ hs =>
      hs.of_isPart (isPart_below start l ls)
    obtain ⟨kind, cs⟩ := l
    have hpos : 0 < byteSize cs := Nat.pos_of_ne_zero fun h => hl (byteSize_eq_zero.1 h)
    have hfirst : Excerpt.Holds ⟨start, (⟨kind, cs⟩ :: ls : List Lexeme).flatMap (·.chars)⟩
        ⟨start, start + byteSize cs⟩ :=
      ⟨⟨[], _, rfl, rfl⟩, ⟨cs, ls.flatMap (·.chars), rfl, rfl⟩, Nat.lt_add_of_pos_right hpos⟩
    match kind with
    | none => exact hrest
    | some kind =>
      by_cases hk : kind = .unterminatedString
      · rw [hk, place_open]
        exact hk ▸ hfirst
      · rw [place_cons hk]
        exact hrest.cons hfirst

/-- Of tokens that follow one another the first and the last reach around all. -/
theorem within_reach {t : Token} {ts : List Token} {whole : Span}
    (h : Span.InTurn ((t :: ts).map (·.span)) whole) :
    ∀ u ∈ t :: ts, u.span.Within (t.reach ts) := by
  have hordered := List.pairwise_map.1 h.ordered
  have hnonempty := List.forall_mem_map.1 h.nonempty
  have hlast : ∀ u ∈ t :: ts, u.span.stop ≤ (ts.getLast?.getD t).span.stop := by
    rcases List.eq_nil_or_concat ts with rfl | ⟨init, last, rfl⟩
    · exact fun u hu => by rw [List.mem_singleton.1 hu]; exact Nat.le_refl _
    · rw [List.concat_eq_append] at *
      rw [List.getLast?_concat]
      intro u hu
      rw [← List.cons_append, List.pairwise_append] at hordered
      rw [← List.cons_append, List.mem_append, List.mem_singleton] at hu
      rcases hu with hu | rfl
      · have hle := hordered.2.2 u hu last (List.mem_singleton_self last)
        have hlt := hnonempty last (by simp)
        exact hle.trans hlt.le
      · exact Nat.le_refl _
  intro u hu
  have hlt := hnonempty u hu
  refine ⟨?_, hlt.le, (hlast u hu).trans (le_max_right _ _)⟩
  apply (min_le_left _ _).trans
  rcases List.mem_cons.1 hu with rfl | hu
  · exact Nat.le_refl _
  · exact (hnonempty t List.mem_cons_self).le.trans ((List.pairwise_cons.1 hordered).1 u hu)

end Token

namespace Excerpt

def Shows (e : Excerpt) (n : Name) : Prop := e.slice? n.span = some n.val

theorem flatMap_chars_scan (e : Excerpt) :
    (Lexeme.scan e.chars).flatMap (·.chars) = e.chars := by
  rw [Lexeme.scan, Lexeme.flatMap_chars_scanAfter, List.drop_zero]

/-- The places of the tokens of a line, or of a string that is not closed there, hold characters
of it. -/
theorem placed_holds (line : Excerpt) : Token.Placed line.Holds line.tokens := by
  have h := Token.placed_holds line.start fun l (hl : l ∈ Lexeme.scan line.chars) =>
    Lexeme.chars_ne_nil hl
  rwa [flatMap_chars_scan] at h

variable {line : Excerpt} {ts : List Token}

theorem shows_of_mem (h : line.tokens = .ok ts) {t : Token} (ht : t ∈ ts) :
    line.Shows t.name := by
  have h := (Token.laid_of_place h).slice? t ht
  rwa [flatMap_chars_scan] at h

theorem holds_of_mem (h : line.tokens = .ok ts) {t : Token} (ht : t ∈ ts) : line.Holds t.span := by
  have hplaced := line.placed_holds
  rw [h] at hplaced
  exact hplaced t ht

/-- The tokens of a line follow one another in it. -/
theorem inTurn_tokens (h : line.tokens = .ok ts) : Span.InTurn (ts.map (·.span)) line.span :=
  ⟨List.forall_mem_map.2 fun _ ht => (holds_of_mem h ht).within,
    List.forall_mem_map.2 fun _ ht => (holds_of_mem h ht).nonempty,
    List.pairwise_map.2 (Token.laid_of_place h).pairwise⟩

end Excerpt

end ShapeAssembly
