import Mathlib.Data.List.ReduceOption
import ShapeAssembly.Proofs.Contexts

namespace ShapeAssembly

namespace Block

def definition? (isEntry : Bool) (earlier : List String) (b : Block) : Option Definition :=
  if isEntry || (b.read isEntry earlier).named then some (b.read isEntry earlier).definition
  else none

def definitions? (isEntry : Bool) (earlier : List String) : List Block → List (Option Definition)
  | [] => []
  | b :: rest =>
    b.definition? isEntry earlier :: definitions? false (b.opening.nameText?.toList ++ earlier) rest

theorem length_definitions? (isEntry : Bool) (earlier : List String) (blocks : List Block) :
    (definitions? isEntry earlier blocks).length = blocks.length := by
  induction blocks generalizing isEntry earlier with
  | nil => rfl
  | cons b rest ih => exact congrArg (· + 1) (ih _ _)

theorem reduceOption_definitions? (earlier : List String) (blocks : List Block) :
    (definitions? false earlier blocks).reduceOption = (readLater earlier blocks).1 := by
  induction blocks generalizing earlier with
  | nil => rfl
  | cons b rest ih =>
    rw [definitions?, definition?, readLater_cons, Bool.false_or, ← ih]
    split
    · exact List.reduceOption_cons_of_some _ _
    · exact List.reduceOption_cons_of_none _

/-- Blocks below others are read as those below their names. -/
theorem definitions?_append (isEntry : Bool) (earlier : List String) (before after : List Block) :
    definitions? isEntry earlier (before ++ after) =
      definitions? isEntry earlier before ++ definitions? (isEntry && before.isEmpty)
        ((before.filterMap (·.opening.nameText?)).reverse ++ earlier) after := by
  induction before generalizing isEntry earlier with
  | nil => rw [List.nil_append, List.isEmpty_nil, Bool.and_true]; rfl
  | cons b before ih =>
    rw [List.cons_append, definitions?, definitions?, ih, filterMap_cons_toList,
      List.reverse_append, List.append_assoc, List.isEmpty_cons, Bool.and_false, Bool.false_and]
    cases b.opening.nameText? <;> rfl

/-- What a block is read as depends on the names of the blocks before it, and these are read as if
there were no others. -/
theorem exists_definitions?_append (isEntry : Bool) (earlier : List String) (before : List Block) :
    ∃ isEntry' earlier', ∀ (b : Block) (after : List Block),
      definitions? isEntry earlier (before ++ b :: after) =
        definitions? isEntry earlier before ++ b.definition? isEntry' earlier' ::
          definitions? false (b.opening.nameText?.toList ++ earlier') after :=
  ⟨_, _, fun b after => definitions?_append isEntry earlier before (b :: after)⟩

theorem group_append_opening (before : List Line) (o : Opening) (after : List Line) :
    group (before ++ .opening o :: after) =
      ((group before).1, (group before).2 ++ (group (.opening o :: after)).2) := by
  induction before with
  | nil => rfl
  | cons line before ih =>
    rw [List.cons_append, group, group, ih]
    cases line <;> rfl

theorem group_cons_body {line : Excerpt} (h : line.isHeader = false) (rest : List Line) :
    group (Line.ofExcerpt line :: rest) =
      (line.bodyLine :: (group rest).1, (group rest).2) := by
  rw [group, Excerpt.ofExcerpt_of_not_isHeader h]

theorem isEmpty_group (lines : List Excerpt) :
    (group (lines.map Line.ofExcerpt)).2.isEmpty = lines.all (!·.isHeader) := by
  induction lines with
  | nil => rfl
  | cons line rest ih =>
    rw [List.map_cons, List.all_cons, ← ih]
    cases h : line.isHeader with
    | true =>
      obtain ⟨o, ho⟩ := Excerpt.exists_opening h
      rw [ho]
      rfl
    | false => rw [group_cons_body h]; rfl

theorem filterMap_nameText?_group (lines : List Excerpt) :
    (group (lines.map Line.ofExcerpt)).2.filterMap (·.opening.nameText?) =
      lines.filterMap Excerpt.nameText? := by
  induction lines with
  | nil => rfl
  | cons line rest ih =>
    rw [List.map_cons, filterMap_cons_toList, ← ih]
    cases h : line.isHeader with
    | true =>
      obtain ⟨o, ho⟩ := Excerpt.exists_opening h
      obtain ⟨-, -, -, hname⟩ := Excerpt.read_opening ho true []
      rw [ho, ← hname]
      exact filterMap_cons_toList _ _ _
    | false =>
      rw [group_cons_body h, Excerpt.nameText?, Excerpt.headerName?, Excerpt.header?_eq_none h]
      rfl

/-- What holds of all lines holds of those in the blocks. -/
theorem forall_group {P : Line → Prop} {lines : List Line} (h : ∀ l ∈ lines, P l) :
    (∀ l ∈ (group lines).1, P (.body l)) ∧
      ∀ b ∈ (group lines).2, P (.opening b.opening) ∧ ∀ l ∈ b.body, P (.body l) := by
  induction lines with
  | nil => exact ⟨fun l hl => absurd hl List.not_mem_nil, fun b hb => absurd hb List.not_mem_nil⟩
  | cons line rest ih =>
    obtain ⟨hline, hrest⟩ := List.forall_mem_cons.1 h
    obtain ⟨hloose, hblocks⟩ := ih hrest
    rw [group]
    cases line with
    | opening o =>
      exact ⟨fun l hl => absurd hl List.not_mem_nil,
        List.forall_mem_cons.2 ⟨⟨hline, hloose⟩, hblocks⟩⟩
    | body b => exact ⟨List.forall_mem_cons.2 ⟨hline, hloose⟩, hblocks⟩

end Block

theorem Excerpt.countP_isHeader {lines : List Excerpt} (h : ∀ l ∈ lines, l.isHeader = false) :
    lines.countP (·.isHeader) = 0 := by
  rw [List.countP_eq_zero]
  exact fun l hl => Bool.eq_false_iff.1 (h l hl)

namespace Program

/-- For each header line the definition of its block, if that is kept. -/
def blockDefinitions (lines : List Excerpt) : List (Option Definition) :=
  Block.definitions? true [] (Block.group (lines.map Line.ofExcerpt)).2

theorem length_blockDefinitions (lines : List Excerpt) :
    (blockDefinitions lines).length = lines.countP (·.isHeader) := by
  rw [blockDefinitions, Block.length_definitions?]
  induction lines with
  | nil => rfl
  | cons line rest ih =>
    rw [List.map_cons, Block.group]
    cases h : line.isHeader with
    | true =>
      obtain ⟨o, ho⟩ := Excerpt.exists_opening h
      rw [ho, List.countP_cons_of_pos h, ← ih]
      rfl
    | false =>
      rw [Excerpt.ofExcerpt_of_not_isHeader h, List.countP_cons_of_neg (by simp [h]), ← ih]

/-- If there is a header, the definitions of a program are those of the blocks. -/
theorem definitions_ofLines {lines : List Excerpt} (h : ∃ line ∈ lines, line.isHeader) :
    (ofLines (lines.map Line.ofExcerpt)).1.definitions =
      (blockDefinitions lines).reduceOption := by
  have hlen := length_blockDefinitions lines
  have hpos : 0 < lines.countP (·.isHeader) := List.countP_pos_iff.2 h
  rw [ofLines, blockDefinitions] at *
  generalize Block.group (lines.map Line.ofExcerpt) = g at *
  obtain ⟨loose, blocks⟩ := g
  cases blocks with
  | nil => rw [← hlen] at hpos; cases hpos
  | cons entry rest =>
    rw [Block.definitions?, List.append_nil]
    show (entry.read true []).definition :: (Block.readLater _ rest).1 = _
    rw [← Block.reduceOption_definitions?]
    exact (List.reduceOption_cons_of_some _ _).symm

/-- The definitions of the blocks above a header, and what its own block and those below it are
read as, whatever lines stand in them. -/
theorem exists_blockDefinitions_append (before : List Excerpt) {header : Excerpt}
    (hh : header.isHeader) :
    ∃ o isEntry earlier, Line.ofExcerpt header = .opening o ∧
      ∀ body rest : List Excerpt, (∀ l ∈ body, l.isHeader = false) →
        blockDefinitions (before ++ header :: body ++ rest) =
          blockDefinitions before ++
            Block.definition? isEntry earlier
                ⟨o, body.map Excerpt.bodyLine ++ (Block.group (rest.map Line.ofExcerpt)).1⟩ ::
              Block.definitions? false (o.nameText?.toList ++ earlier)
                (Block.group (rest.map Line.ofExcerpt)).2 := by
  obtain ⟨o, ho⟩ := Excerpt.exists_opening hh
  obtain ⟨isEntry, earlier, h⟩ :=
    Block.exists_definitions?_append true [] (Block.group (before.map Line.ofExcerpt)).2
  refine ⟨o, isEntry, earlier, ho, fun body rest hb => ?_⟩
  rw [List.append_assoc, List.cons_append, blockDefinitions, List.map_append, List.map_cons,
    List.map_append, Section.map_ofExcerpt_of_not_isHeader hb, ho, Block.group_append_opening,
    Block.group_opening_append, h]
  rfl

end Program

end ShapeAssembly
