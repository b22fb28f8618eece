import ShapeAssembly.Proofs.Layout

namespace ShapeAssembly

theorem splitBytes?_eq_some {n : Nat} {cs before after : List Char} :
    splitBytes? n cs = some (before, after) ↔ cs = before ++ after ∧ byteSize before = n := by
  constructor
  · intro h
    induction cs generalizing n before with
    | nil =>
      cases n with
      | zero =>
        obtain ⟨rfl, rfl⟩ := Prod.mk.inj (Option.some.inj h)
        exact ⟨rfl, rfl⟩
      | succ n => cases h
    | cons c cs ih =>
      cases n with
      | zero =>
        obtain ⟨rfl, rfl⟩ := Prod.mk.inj (Option.some.inj h)
        exact ⟨rfl, rfl⟩
      | succ n =>
        rw [splitBytes?] at h
        split at h
        · obtain ⟨⟨as, bs⟩, hsplit, hpair⟩ := Option.map_eq_some_iff.1 h
          obtain ⟨rfl, rfl⟩ := Prod.mk.inj hpair
          obtain ⟨rfl, hsize⟩ := ih hsplit
          exact ⟨rfl, by rw [byteSize_cons]; omega⟩
        · cases h
  · rintro ⟨rfl, rfl⟩
    exact splitBytes_append before after

theorem byteSize_eq_zero {cs : List Char} : byteSize cs = 0 ↔ cs = [] := by
  cases cs with
  | nil => simp
  | cons c cs =>
    have hc := c.utf8Size_pos
    simp only [byteSize_cons, reduceCtorEq, iff_false]
    omega

namespace Excerpt

/-- An excerpt of an excerpt, at its place. -/
def IsPart (part e : Excerpt) : Prop :=
  ∃ before after, e.chars = before ++ part.chars ++ after ∧
    part.start = e.start + byteSize before

theorem IsPart.refl (e : Excerpt) : e.IsPart e := ⟨[], [], by simp, by simp⟩

theorem IsPart.trans {a b c : Excerpt} (hab : a.IsPart b) (hbc : b.IsPart c) : a.IsPart c := by
  obtain ⟨before, after, hchars, hstart⟩ := hab
  obtain ⟨before', after', hchars', hstart'⟩ := hbc
  refine ⟨before' ++ before, after ++ after', ?_, ?_⟩
  · rw [hchars', hchars]
    simp only [List.append_assoc]
  · rw [hstart, hstart', byteSize_append, Nat.add_assoc]

/-- The lines of a text are parts of it. -/
theorem isPart_of_mem_lines {e l : Excerpt} (h : l ∈ e.lines) : l.IsPart e := by
  obtain ⟨start, cs⟩ := e
  induction cs generalizing start l with
  | nil =>
    obtain rfl := List.mem_singleton.1 h
    exact .refl _
  | cons c cs ih =>
    have hbelow : IsPart ⟨start + c.utf8Size, cs⟩ ⟨start, c :: cs⟩ :=
      ⟨[c], [], by simp, by simp⟩
    by_cases hc : c = '\n'
    · subst hc
      rw [lines_newline] at h
      rcases List.mem_cons.1 h with rfl | h
      · exact ⟨[], '\n' :: cs, rfl, rfl⟩
      · exact (ih _ h).trans hbelow
    · obtain ⟨line, more, hl, hcons⟩ := lines_cons hc start cs
      have ih := fun l => ih (l := l) (start + c.utf8Size)
      rw [hcons] at h
      rw [hl] at ih
      rcases List.mem_cons.1 h with rfl | h
      · -- the first line starts where the text does
        have hfirst : line = ⟨start + c.utf8Size, line.chars⟩ := by
          have hlay := (lines_eq_layOut ⟨start + c.utf8Size, cs⟩).1
          rw [hl] at hlay
          exact (List.cons.inj hlay).1
        obtain ⟨before, after, hchars, hstart⟩ := ih _ List.mem_cons_self
        rw [hfirst] at hstart
        obtain rfl : before = [] := byteSize_eq_zero.1 (by simp only at hstart; omega)
        refine ⟨[], after, ?_, rfl⟩
        simp only at hchars
        rw [hchars]
        rfl
      · exact (ih _ (List.mem_cons_of_mem line h)).trans hbelow

def IsBoundary (e : Excerpt) (offset : Nat) : Prop :=
  ∃ before after, e.chars = before ++ after ∧ offset = e.start + byteSize before

theorem IsBoundary.of_isPart {part e : Excerpt} (h : part.IsPart e) {offset : Nat}
    (hb : part.IsBoundary offset) : e.IsBoundary offset := by
  obtain ⟨before, after, hchars, hstart⟩ := h
  obtain ⟨before', after', hchars', rfl⟩ := hb
  refine ⟨before ++ before', after' ++ after, ?_, ?_⟩
  · rw [hchars, hchars']
    simp only [List.append_assoc]
  · rw [hstart, byteSize_append, Nat.add_assoc]

/-- A span of whole characters of an excerpt, of which there is at least one. -/
structure Holds (e : Excerpt) (s : Span) : Prop where
  start : e.IsBoundary s.start
  stop : e.IsBoundary s.stop
  nonempty : s.start < s.stop

theorem Holds.of_isPart {part e : Excerpt} (h : part.IsPart e) {s : Span} (hs : part.Holds s) :
    e.Holds s :=
  ⟨hs.start.of_isPart h, hs.stop.of_isPart h, hs.nonempty⟩

theorem IsBoundary.within {e : Excerpt} {offset : Nat} (h : e.IsBoundary offset) :
    e.span.start ≤ offset ∧ offset ≤ e.span.stop := by
  obtain ⟨before, after, hchars, rfl⟩ := h
  rw [span, hchars, byteSize_append]
  exact ⟨Nat.le_add_right _ _, by simp only; omega⟩

theorem Holds.within {e : Excerpt} {s : Span} (h : e.Holds s) : s.Within e.span :=
  ⟨h.start.within.1, h.nonempty.le, h.stop.within.2⟩

/-- The least span that covers two spans of whole characters is one. -/
theorem merges_holds (e : Excerpt) : Span.Merges e.Holds := by
  intro a b ha hb
  refine ⟨?_, ?_, ?_⟩
  · rcases min_choice a.start b.start with h | h <;> rw [Span.merge, h]
    · exact ha.start
    · exact hb.start
  · rcases max_choice a.stop b.stop with h | h <;> rw [Span.merge, h]
    · exact ha.stop
    · exact hb.stop
  · exact (min_le_left _ _).trans_lt (ha.nonempty.trans_le (le_max_left _ _))

theorem split?_eq_some {e : Excerpt} {s : Span} {before inner after : List Char} :
    e.split? s = some (before, inner, after) ↔
      e.chars = before ++ inner ++ after ∧ s.start = e.start + byteSize before ∧
        s.stop = s.start + byteSize inner := by
  rw [split?]
  constructor
  · intro h
    split at h
    · cases h
    · obtain ⟨⟨as, rest⟩, has, h⟩ := Option.bind_eq_some_iff.1 h
      obtain ⟨⟨bs, cs⟩, hbs, h⟩ := Option.bind_eq_some_iff.1 h
      cases h
      obtain ⟨hchars, hstart⟩ := splitBytes?_eq_some.1 has
      obtain ⟨rfl, hstop⟩ := splitBytes?_eq_some.1 hbs
      exact ⟨by rw [hchars, List.append_assoc], by omega, by omega⟩
  · rintro ⟨hchars, hstart, hstop⟩
    have hfirst : splitBytes? (s.start - e.start) e.chars = some (before, inner ++ after) :=
      splitBytes?_eq_some.2 ⟨by rw [hchars, List.append_assoc], by omega⟩
    have hsecond : splitBytes? (s.stop - s.start) (inner ++ after) = some (inner, after) :=
      splitBytes?_eq_some.2 ⟨rfl, by omega⟩
    rw [if_neg (by omega)]
    exact Option.bind_eq_some_iff.2 ⟨_, hfirst, Option.bind_eq_some_iff.2 ⟨_, hsecond, rfl⟩⟩

/-- The text at a span is that of the part that stands there. -/
theorem slice?_eq_some {e : Excerpt} {s : Span} {text : String} :
    e.slice? s = some text ↔
      IsPart ⟨s.start, text.toList⟩ e ∧ s.stop = s.start + byteSize text.toList := by
  rw [slice?, Option.map_eq_some_iff]
  constructor
  · rintro ⟨⟨before, inner, after⟩, h, rfl⟩
    obtain ⟨hchars, hstart, hstop⟩ := split?_eq_some.1 h
    rw [String.toList_ofList]
    exact ⟨⟨before, after, hchars, hstart⟩, hstop⟩
  · rintro ⟨⟨before, after, hchars, hstart⟩, hstop⟩
    exact ⟨(before, text.toList, after), split?_eq_some.2 ⟨hchars, hstart, hstop⟩,
      String.ofList_toList⟩

theorem slice?_of_isPart {part e : Excerpt} (h : part.IsPart e) {s : Span} {text : String}
    (hs : part.slice? s = some text) : e.slice? s = some text := by
  obtain ⟨hpart, hstop⟩ := slice?_eq_some.1 hs
  exact slice?_eq_some.2 ⟨hpart.trans h, hstop⟩

theorem Holds.exists_slice? {e : Excerpt} {s : Span} (h : e.Holds s) :
    ∃ text, e.slice? s = some text := by
  obtain ⟨⟨as, rest, hchars, hstart⟩, ⟨bs, after, hchars', hstop⟩, hlt⟩ := h
  rw [hchars] at hchars'
  rcases List.append_eq_append_iff.1 hchars' with ⟨cs, rfl, rfl⟩ | ⟨cs, rfl, rfl⟩
  · refine ⟨String.ofList cs, slice?_eq_some.2 ?_⟩
    rw [String.toList_ofList]
    refine ⟨⟨as, after, by rw [hchars, List.append_assoc], hstart⟩, ?_⟩
    rw [hstop, hstart, byteSize_append, Nat.add_assoc]
  · -- the span would end before it starts
    rw [byteSize_append] at hstart
    omega

/-- The text at a span of a line has no newline. -/
theorem notMem_of_slice? {e : Excerpt} (he : '\n' ∉ e.chars) {s : Span} {text : String}
    (h : e.slice? s = some text) : '\n' ∉ text.toList := by
  obtain ⟨⟨before, after, hchars, -⟩, -⟩ := slice?_eq_some.1 h
  intro hmem
  rw [hchars] at he
  exact he (List.mem_append_left _ (List.mem_append_right _ hmem))

end Excerpt

end ShapeAssembly
