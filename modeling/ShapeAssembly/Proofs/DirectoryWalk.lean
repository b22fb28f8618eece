import Mathlib.Data.String.Basic
import ShapeAssembly.FileTree
import ShapeAssembly.Proofs.Ordering

namespace ShapeAssembly

namespace FileTree

/-- What holds of files, and of a directory if it holds of the trees in it, holds of all trees. -/
theorem inductionOn {P : FileTree → Prop} (file : ∀ bytes, P (file bytes))
    (directory : ∀ entries, (∀ e ∈ entries, P e.2) → P (directory entries)) : ∀ tree, P tree
  | .file bytes => file bytes
  | .directory entries => directory entries fun e he =>
      have hlt : sizeOf e.2 < sizeOf (FileTree.directory entries) := by
        have hmem := List.sizeOf_lt_of_mem he
        obtain ⟨name, tree⟩ := e
        simp only [Prod.mk.sizeOf_spec, FileTree.directory.sizeOf_spec] at hmem ⊢
        omega
      inductionOn file directory e.2
termination_by tree => sizeOf tree
decreasing_by exact hlt

/-- No directory of a tree has two entries of one name. -/
inductive Distinct : FileTree → Prop
  | leaf (bytes : ByteArray) : Distinct (file bytes)
  | node {entries : List (String × FileTree)}
    (hn : entries.Pairwise fun a b => a.1 ≠ b.1) (hs : ∀ e ∈ entries, Distinct e.2) :
    Distinct (directory entries)

/-- The names that lead from a directory to a program beneath it. -/
inductive Beneath : List (String × FileTree) → List String → Prop
  | program {entries : List (String × FileTree)} {name : String} {bytes : ByteArray}
    (h : (name, file bytes) ∈ entries) (hn : isProgramName name = true) : Beneath entries [name]
  | directory {entries inner : List (String × FileTree)} {name : String} {names : List String}
    (h : (name, directory inner) ∈ entries) (hb : Beneath inner names) :
    Beneath entries (name :: names)

/-- Whether the directories in which some names are looked up have paths that are not too long. -/
def Opens (path : String) : List String → Prop
  | [] => True
  | name :: names => isLongPath path = false ∧ Opens (join path name) names

/-- The paths of all programs beneath a directory that can be reached, by the names that lead
there. -/
structure Walks (path : String) (entries : List (String × FileTree)) (walk : List (List String))
    (files : List String) : Prop where
  paths : files = walk.map (·.foldl join path)
  programs : ∀ names, names ∈ walk ↔ Beneath entries names ∧ Opens path names

variable {path name : String} {tree : FileTree} {entries es : List (String × FileTree)}
  {e : String × FileTree} {names : List String} {walk more : List (List String)}
  {files rest : List String}

theorem Beneath.mono (h : Beneath entries names) (hs : entries ⊆ es) : Beneath es names := by
  cases h with
  | program h hn => exact .program (hs h) hn
  | directory h hb => exact .directory (hs h) hb

theorem beneath_cons : Beneath (e :: es) names ↔ Beneath [e] names ∨ Beneath es names := by
  constructor
  · intro h
    cases h with
    | program h hn =>
      rcases List.mem_cons.1 h with rfl | h
      · exact .inl (.program (List.mem_singleton_self _) hn)
      · exact .inr (.program h hn)
    | directory h hb =>
      rcases List.mem_cons.1 h with rfl | h
      · exact .inl (.directory (List.mem_singleton_self _) hb)
      · exact .inr (.directory h hb)
  · rintro (h | h)
    · exact h.mono (by simp)
    · exact h.mono (List.subset_cons_self e es)

/-- The names that lead to a program start with that of an entry. -/
theorem Beneath.exists_cons (h : Beneath entries names) :
    ∃ e ∈ entries, ∃ more, names = e.1 :: more := by
  cases h with
  | program h hn => exact ⟨_, h, [], rfl⟩
  | directory h hb => exact ⟨_, h, _, rfl⟩

theorem beneath_file {bytes : ByteArray} :
    Beneath [(name, file bytes)] names ↔ isProgramName name = true ∧ names = [name] := by
  constructor
  · intro h
    cases h with
    | program h hn =>
      obtain ⟨rfl, -⟩ := Prod.mk.inj (List.mem_singleton.1 h)
      exact ⟨hn, rfl⟩
    | directory h hb => cases (Prod.mk.inj (List.mem_singleton.1 h)).2
  · rintro ⟨hn, rfl⟩
    exact .program (List.mem_singleton_self _) hn

theorem beneath_directory :
    Beneath [(name, directory entries)] names ↔ ∃ more, names = name :: more ∧
      Beneath entries more := by
  constructor
  · intro h
    cases h with
    | program h hn => cases (Prod.mk.inj (List.mem_singleton.1 h)).2
    | directory h hb =>
      obtain ⟨rfl, heq⟩ := Prod.mk.inj (List.mem_singleton.1 h)
      cases heq
      exact ⟨_, rfl, hb⟩
  · rintro ⟨more, rfl, hb⟩
    exact .directory (List.mem_singleton_self _) hb

def entryFiles (path : String) (e : String × FileTree) : List String :=
  if e.2.isDirectory || isProgramName e.1 then programs (join path e.1) e.2 else []

theorem entryPrograms_eq (path : String) (entries : List (String × FileTree)) :
    entryPrograms path entries = entries.map fun e => (e.1, entryFiles path e) := by
  induction entries with
  | nil => rw [entryPrograms, List.map_nil]
  | cons e entries ih =>
    obtain ⟨name, tree⟩ := e
    rw [entryPrograms, ih]
    rfl

/-- A directory is walked through entry by entry, in the order of their names. -/
theorem programs_directory (h : isLongPath path = false) (entries : List (String × FileTree)) :
    programs path (directory entries) =
      (stableSort (fun a b => a.1 ≤ b.1) entries).flatMap (entryFiles path) := by
  have hsort : stableSort (fun a b => a.1 ≤ b.1) (entries.map fun e => (e.1, entryFiles path e)) =
      (stableSort (fun a b => a.1 ≤ b.1) entries).map fun e => (e.1, entryFiles path e) :=
    stableSort_map _ (fun a b => rfl) entries
  rw [programs, if_neg (by simp [h]), entryPrograms_eq, hsort, List.flatMap_map]

namespace Walks

theorem nil (path : String) : Walks path [] [] [] :=
  ⟨rfl, fun names => iff_of_false List.not_mem_nil fun h => by
    obtain ⟨e, he, -⟩ := h.1.exists_cons
    cases he⟩

theorem append (h : Walks path [e] walk files) (hs : Walks path es more rest) :
    Walks path (e :: es) (walk ++ more) (files ++ rest) := by
  refine ⟨by rw [h.paths, hs.paths, List.map_append], fun names => ?_⟩
  rw [List.mem_append, h.programs, hs.programs, ← or_and_right, ← beneath_cons]

theorem congr (h : Walks path es walk files) (hp : es.Perm entries) :
    Walks path entries walk files :=
  ⟨h.paths, fun names => by
    rw [h.programs]
    exact and_congr_left' ⟨fun h => h.mono hp.subset, fun h => h.mono hp.symm.subset⟩⟩

theorem file (hp : isLongPath path = false) (bytes : ByteArray) :
    Walks path [(name, .file bytes)] (if isProgramName name then [[name]] else [])
      (entryFiles path (name, .file bytes)) := by
  by_cases hn : isProgramName name = true
  · rw [if_pos hn, entryFiles, if_pos (by simp [hn]), FileTree.programs]
    refine ⟨rfl, fun names => ?_⟩
    rw [beneath_file, List.mem_singleton]
    exact ⟨fun h => ⟨⟨hn, h⟩, h ▸ ⟨hp, trivial⟩⟩, fun h => h.1.2⟩
  · rw [if_neg hn, entryFiles, if_neg (by simpa [isDirectory] using hn)]
    refine ⟨rfl, fun names => ?_⟩
    rw [beneath_file]
    exact iff_of_false List.not_mem_nil fun h => hn h.1.1

theorem directory (hp : isLongPath path = false)
    (h : Walks (join path name) entries walk
      (FileTree.programs (join path name) (.directory entries))) :
    Walks path [(name, .directory entries)] (walk.map (name :: ·))
      (entryFiles path (name, .directory entries)) := by
  refine ⟨?_, fun names => ?_⟩
  · rw [entryFiles, if_pos (by simp [isDirectory]), h.paths, List.map_map]
    rfl
  · rw [beneath_directory, List.mem_map]
    constructor
    · rintro ⟨more, hmem, rfl⟩
      obtain ⟨hb, ho⟩ := (h.programs more).1 hmem
      exact ⟨⟨more, rfl, hb⟩, hp, ho⟩
    · rintro ⟨⟨more, rfl, hb⟩, ho⟩
      exact ⟨more, (h.programs more).2 ⟨hb, ho.2⟩, rfl⟩

end Walks

/-- Names come in order if those of the entries that they start with do. -/
theorem pairwise_append (h : walk.Pairwise (· < ·)) (hs : more.Pairwise (· < ·))
    (hw : Walks path [e] walk files) (hm : Walks path es more rest)
    (hlt : ∀ e' ∈ es, e.1 < e'.1) : (walk ++ more).Pairwise (· < ·) := by
  refine List.pairwise_append.2 ⟨h, hs, fun a ha b hb => ?_⟩
  obtain ⟨e₁, he₁, as, rfl⟩ := ((hw.programs a).1 ha).1.exists_cons
  obtain ⟨e₂, he₂, bs, rfl⟩ := ((hm.programs b).1 hb).1.exists_cons
  rw [List.mem_singleton.1 he₁]
  exact .rel (hlt e₂ he₂)

def Walked (tree : FileTree) : Prop :=
  ∀ entries, tree = directory entries → ∀ path, ∃ walk,
    Walks path entries walk (programs path tree) ∧ (tree.Distinct → walk.Pairwise (· < ·))

theorem exists_walk_entry (hp : isLongPath path = false) (h : e.2.Walked) :
    ∃ walk, Walks path [e] walk (entryFiles path e) ∧
      (e.2.Distinct → walk.Pairwise (· < ·)) := by
  obtain ⟨name, tree⟩ := e
  cases tree with
  | file bytes =>
    refine ⟨_, .file hp bytes, fun _ => ?_⟩
    split
    · exact List.pairwise_singleton _ _
    · exact .nil
  | directory entries =>
    obtain ⟨walk, hw, hordered⟩ := h entries rfl (join path name)
    refine ⟨_, .directory hp hw, fun hd => List.pairwise_map.2 ((hordered hd).imp ?_)⟩
    exact List.Lex.cons

theorem exists_walk_entries (hp : isLongPath path = false) (h : ∀ e ∈ es, e.2.Walked) :
    ∃ walk, Walks path es walk (es.flatMap (entryFiles path)) ∧
      ((∀ e ∈ es, e.2.Distinct) → es.Pairwise (fun a b => a.1 < b.1) →
        walk.Pairwise (· < ·)) := by
  induction es with
  | nil => exact ⟨[], .nil path, fun _ _ => .nil⟩
  | cons e es ih =>
    obtain ⟨he, hes⟩ := List.forall_mem_cons.1 h
    obtain ⟨walk, hw, hordered⟩ := exists_walk_entry hp he
    obtain ⟨more, hm, hmore⟩ := ih hes
    refine ⟨walk ++ more, hw.append hm, fun hd hs => ?_⟩
    obtain ⟨hde, hdes⟩ := List.forall_mem_cons.1 hd
    obtain ⟨hlt, hs⟩ := List.pairwise_cons.1 hs
    exact pairwise_append (hordered hde) (hmore hdes hs) hw hm hlt

theorem walked (tree : FileTree) : tree.Walked := by
  induction tree using inductionOn with
  | file bytes =>
    intro entries h
    cases h
  | directory entries ih =>
    intro entries' heq path
    cases heq
    cases hp : isLongPath path with
    | true =>
      -- nothing beneath is reached, since every way there starts in this directory
      refine ⟨[], ⟨by rw [programs, if_pos hp]; rfl, fun names => ?_⟩, fun _ => .nil⟩
      refine iff_of_false List.not_mem_nil fun ⟨hb, ho⟩ => ?_
      obtain ⟨e, -, more, rfl⟩ := hb.exists_cons
      exact absurd (hp.symm.trans ho.1) (by decide)
    | false =>
      have hperm := stableSort_perm (fun a b : String × FileTree => decide (a.1 ≤ b.1)) entries
      obtain ⟨walk, hw, hordered⟩ :=
        exists_walk_entries hp fun e he => ih e (hperm.subset he)
      rw [programs_directory hp]
      refine ⟨walk, hw.congr hperm, fun hd => ?_⟩
      cases hd with
      | node hn hs =>
        have hsorted : (stableSort (fun a b => a.1 ≤ b.1) entries).Pairwise fun a b =>
            decide (a.1 ≤ b.1) = true :=
          pairwise_stableSort (fun a b => by simpa using le_total a.1 b.1)
            (fun a b c hab hbc => decide_eq_true
              ((of_decide_eq_true hab).trans (of_decide_eq_true hbc))) entries
        -- without equal names the order is strict
        have hnames := (hperm.pairwise_iff fun h => Ne.symm h).2 hn
        exact hordered (fun e he => hs e (hperm.subset he))
          (hsorted.imp₂ (fun a b hle hne => lt_of_le_of_ne (of_decide_eq_true hle) hne) hnames)

end FileTree

end ShapeAssembly
