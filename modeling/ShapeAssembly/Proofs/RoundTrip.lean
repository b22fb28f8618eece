import ShapeAssembly.Proofs.Programs

namespace ShapeAssembly

/-! Where the parts of a program stand does not show in its text. -/

theorem Statement.chars_erase (s : Statement) (level : Nat) :
    s.erase.chars level = s.chars level := by
  rw [chars, chars, erase, List.map_map]
  cases s.result <;> rfl

theorem Definition.headerChars_erase (d : Definition) (level : Nat) :
    d.erase.headerChars level = d.headerChars level := by
  rw [headerChars, headerChars, erase, List.map_map]
  cases d.name <;> rfl

theorem Definition.chars_erase (d : Definition) (level : Nat) :
    d.erase.chars level = d.chars level := by
  rw [chars, chars, headerChars_erase, erase, List.flatMap_map]
  simp only [Statement.chars_erase]

namespace Program

theorem render_erase (p : Program) (level : Nat) : p.erase.render level = p.render level := by
  have hdefinitions : p.erase.definitions = p.definitions.map Definition.erase := rfl
  rw [render, render, chars, chars, hdefinitions, List.map_map]
  simp only [Function.comp_def, Definition.chars_erase]

theorem render_congr {p q : Program} (h : p.erase = q.erase) (level : Nat) :
    p.render level = q.render level := by
  rw [← render_erase, h, render_erase]

/-- Printing what was read from any text and reading it again changes nothing, and brings up no
diagnostic where there was none. -/
theorem parse_render_parse (text : String) (level : Nat) :
    let p := (parse text).program
    let r := parse (p.render level)
    r.program.erase = p.erase ∧ r.program.render level = p.render level ∧
      ((parse text).diagnostics = [] → r.diagnostics = []) := by
  intro p r
  have hprint : p.Printable := printable_parse text
  obtain ⟨he, hnone⟩ := parse_of_isTextOf (isTextOf_render hprint level) hprint
  exact ⟨he, render_congr he level, fun h => hnone (isTextOf_parse h).1⟩

/-- The programs that are read without a diagnostic are the well-formed ones. -/
theorem wellFormed_round_trip :
    (∀ (p : Program) (level : Nat), p.WellFormed →
      (parse (p.render level)).diagnostics = [] ∧
        (parse (p.render level)).program.erase = p.erase) ∧
      ∀ text : String, (parse text).diagnostics = [] → (parse text).program.WellFormed := by
  refine ⟨fun p level hwf => ?_, fun text h => (isTextOf_parse h).1⟩
  obtain ⟨he, hnone⟩ := parse_of_isTextOf (isTextOf_render hwf.printable level) hwf.printable
  exact ⟨hnone hwf, he⟩

/-- A program in which a parameter and a result are called `def`. -/
theorem wellFormed_round_trip_def :
    let p := (parse "def (a, b, c, DEF)\ndef = Cuboid(-.5e+3, 1., 2)").program
    p.WellFormed ∧ (parse (p.render 2)).diagnostics = [] ∧
      (parse (p.render 2)).program.erase = p.erase := by
  intro p
  have hwf : p.WellFormed := wellFormed_round_trip.2 _ (by decide +kernel)
  exact ⟨hwf, wellFormed_round_trip.1 p 2 hwf⟩

/-- Formatting keeps the words of every line, except that headers start with `def` and end with a
colon. -/
theorem content_render_parse {text : String} (h : (parse text).diagnostics = []) (level : Nat) :
    ∃ ls : List (List Word), (Excerpt.whole text).content = ls.map some ∧
      (Excerpt.whole ((parse text).program.render level)).content =
        (ls.map Word.canonical).map some := by
  obtain ⟨-, ls, hw, hc⟩ := isTextOf_parse h
  refine ⟨ls, hw, ?_⟩
  rw [content_render (printable_parse text), hc]

theorem content_render_parse_cuboid :
    (parse "DEF f()\n x = cuboid(1, 2., -3e-1) # a box").diagnostics = [] ∧
      ∃ ls : List (List Word),
        (Excerpt.whole "DEF f()\n x = cuboid(1, 2., -3e-1) # a box").content = ls.map some ∧
        (Excerpt.whole ((parse "DEF f()\n x = cuboid(1, 2., -3e-1) # a box").program.render
          0)).content = (ls.map Word.canonical).map some := by
  have h : (parse "DEF f()\n x = cuboid(1, 2., -3e-1) # a box").diagnostics = [] := by
    decide +kernel
  exact ⟨h, content_render_parse h 0⟩

end Program

end ShapeAssembly
