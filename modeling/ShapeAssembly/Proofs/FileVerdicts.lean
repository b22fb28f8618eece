import ShapeAssembly.Run
import ShapeAssembly.Proofs.DirectoryWalk

namespace ShapeAssembly

namespace Disk

/-- The files that paths stand for, path by path: a directory for the programs beneath it, in the
order of the names that lead to them, and any other path for itself. -/
inductive Collects (disk : Disk) : List String → List String → Prop
  | nil : Collects disk [] []
  | directory {path : String} {entries : List (String × FileTree)} {walk : List (List String)}
    {walked paths files : List String} (h : disk path = .ok (.directory entries))
    (hw : FileTree.Walks path entries walk walked)
    (ho : (FileTree.directory entries).Distinct → walk.Pairwise (· < ·))
    (hs : Collects disk paths files) : Collects disk (path :: paths) (walked ++ files)
  | other {path : String} {paths files : List String}
    (h : ∀ entries, disk path ≠ .ok (.directory entries)) (hs : Collects disk paths files) :
    Collects disk (path :: paths) (path :: files)

/-- A path of a file with the text of a program that has no errors. -/
def Accepts (disk : Disk) (path : String) : Prop :=
  ∃ text : String, disk path = .ok (.file text.toUTF8) ∧
    ∀ d ∈ (Program.parse text).diagnostics, d.severity ≠ .error

variable {disk : Disk} {path text : String}

theorem collects (disk : Disk) (paths : List String) :
    disk.Collects paths (disk.collect paths) := by
  induction paths with
  | nil => exact .nil
  | cons path paths ih =>
    rw [collect, List.flatMap_cons, ← collect]
    cases h : disk path with
    | error e => exact .other (by simp [h]) ih
    | ok tree =>
      cases tree with
      | file bytes => exact .other (by simp [h]) ih
      | directory entries =>
        obtain ⟨walk, hw, ho⟩ := FileTree.walked (.directory entries) entries rfl path
        exact .directory h hw ho ih

/-- A directory within another comes in its place, and a file is checked again if it is asked for
again. -/
example :
    let tree := ((FileTree.directory []).insert ["d", "b.sa"] (.file ⟨#[]⟩)).insert
      ["d", "a", "c.sa"] (.file ⟨#[]⟩)
    Disk.collect tree.disk ["d", "x.sa", "d/b.sa"] =
      ["d/a/c.sa", "d/b.sa", "x.sa", "d/b.sa"] := by
  decide +kernel

/-- What can be read are the files whose bytes are the encoding of a text. -/
theorem read_eq_ok : disk.read path = .ok text ↔ disk path = .ok (.file text.toUTF8) := by
  rw [read]
  cases disk path with
  | error e => exact iff_of_false (fun h => by cases h) (fun h => by cases h)
  | ok tree =>
    cases tree with
    | directory entries => exact iff_of_false (fun h => by cases h) (fun h => by cases h)
    | file bytes =>
      show FileTree.text (.file bytes) = .ok text ↔ _
      rw [FileTree.text, String.fromUTF8?, Except.ok.injEq, FileTree.file.injEq]
      by_cases hv : bytes.IsValidUTF8
      · rw [dif_pos hv, Except.ok.injEq, ← String.toByteArray_inj]
        rfl
      · rw [dif_neg hv]
        refine iff_of_false (fun h => by cases h) ?_
        rintro rfl
        exact hv text.isValidUTF8

end Disk

namespace ParseResult

variable (r : ParseResult)

theorem length_errors : r.errors.length = r.diagnostics.countP (·.severity = .error) :=
  List.countP_eq_length_filter.symm

theorem length_warnings : r.warnings.length = r.diagnostics.countP (·.severity = .warning) := by
  rw [warnings, ← List.countP_eq_length_filter]
  refine List.countP_congr fun d _ => ?_
  cases h : d.severity <;> simp [Diagnostic.isError, h]

theorem hasErrors_eq_false : r.hasErrors = false ↔ ∀ d ∈ r.diagnostics, d.severity ≠ .error := by
  simp [hasErrors, Diagnostic.isError]

theorem length_errors_eq_zero : r.errors.length = 0 ↔ ∀ d ∈ r.diagnostics, d.severity ≠ .error := by
  simp [length_errors, List.countP_eq_zero]

end ParseResult

theorem Disk.accepts_iff {disk : Disk} {path : String} :
    disk.Accepts path ↔
      ∃ text, disk.read path = .ok text ∧ (Program.parse text).hasErrors = false := by
  simp only [Accepts, read_eq_ok, ParseResult.hasErrors_eq_false]

/-- What a diagnostic prints: its report, and after a report that breaks off the code, the message
and the place in one line. -/
inductive Drawing.Writes (draw : Drawing) (text path : String) (d : Diagnostic) : String → Prop
  | drawn {report : String} (h : draw text path d = ⟨report, true⟩) : Writes draw text path d report
  | undrawn {report : String} (h : draw text path d = ⟨report, false⟩) :
    Writes draw text path d
      (report ++ s!"{path}: {d.code.id}: {d.message} (at {d.span.start}..{d.span.stop})\n")

theorem Diagnostic.append_line (d : Diagnostic) (path : String) :
    s!"{path}: {d.line}\n" =
      s!"{path}: {d.code.id}: {d.message} (at {d.span.start}..{d.span.stop})\n" := by
  simp only [line, toString, String.append_assoc]
  rfl

theorem Drawing.writes_report (draw : Drawing) (text path : String) (d : Diagnostic) :
    draw.Writes text path d (draw.report text path d) := by
  rw [report]
  cases h : draw text path d with
  | mk report finished =>
    cases finished with
    | true => exact .drawn h
    | false =>
      rw [d.append_line]
      exact .undrawn h

/-- What is printed for a file, and where. Of a text the diagnostics are reported, and then one line
says how many functions and warnings the program has, or how many errors. What is no text has one
line that says why. -/
inductive Disk.Reports (draw : Drawing) (disk : Disk) (path : String) :
    List (Channel × String) → Prop
  | accepted {text : String} {reports : List String} {functions warnings : Nat}
    (h : disk path = .ok (.file text.toUTF8))
    (hs : ∀ d ∈ (Program.parse text).diagnostics, d.severity ≠ .error)
    (hr : List.Forall₂ (draw.Writes text path) (Program.parse text).diagnostics reports)
    (hf : functions = (Program.parse text).program.subfunctions.length + 1)
    (hw : warnings = (Program.parse text).diagnostics.countP (·.severity = .warning)) :
    Reports draw disk path (reports.map (.stderr, ·) ++
      [(.stdout, s!"✓ {path} - {functions} functions ({warnings} warnings)\n")])
  | rejected {text : String} {reports : List String} {errors : Nat} {d : Diagnostic}
    (h : disk path = .ok (.file text.toUTF8))
    (hd : d ∈ (Program.parse text).diagnostics) (hs : d.severity = .error)
    (hr : List.Forall₂ (draw.Writes text path) (Program.parse text).diagnostics reports)
    (he : errors = (Program.parse text).diagnostics.countP (·.severity = .error)) :
    Reports draw disk path
      (reports.map (.stderr, ·) ++ [(.stderr, s!"✗ {path} - {errors} errors\n")])
  | undecodable {bytes : ByteArray} (h : disk path = .ok (.file bytes))
    (hb : ∀ text : String, bytes ≠ text.toUTF8) :
    Reports draw disk path
      [(.stderr, s!"Error reading {path}: stream did not contain valid UTF-8\n")]
  | directory {entries : List (String × FileTree)} (h : disk path = .ok (.directory entries)) :
    Reports draw disk path [(.stderr, s!"Error reading {path}: Is a directory (os error 21)\n")]
  | missing {e : FileError} (h : disk path = .error e) :
    Reports draw disk path [(.stderr, s!"Error reading {path}: {e.message}\n")]

theorem FileTree.text_file_eq_error {bytes : ByteArray} {e : FileError}
    (h : (file bytes).text = .error e) : e = .notUtf8 := by
  rw [text] at h
  cases hdecode : String.fromUTF8? bytes with
  | some text =>
    rw [hdecode] at h
    cases h
  | none =>
    rw [hdecode] at h
    cases h
    rfl

theorem FileError.line_eq (e : FileError) (path : String) :
    e.line path = "Error reading " ++ path ++ (": " ++ e.message ++ "\n") := by
  rw [← String.append_assoc, ← String.append_assoc]
  rfl

theorem Disk.reports_of_error {draw : Drawing} {disk : Disk} {path : String} {e : FileError}
    (h : disk.read path = .error e) : disk.Reports draw path [(.stderr, e.line path)] := by
  have hread := h
  rw [read] at h
  cases hpath : disk path with
  | error e' =>
    rw [hpath] at h
    cases h
    exact .missing hpath
  | ok tree =>
    rw [hpath] at h
    cases tree with
    | directory entries =>
      cases h
      rw [FileError.line_eq]
      exact .directory hpath
    | file bytes =>
      have hbytes : ∀ text : String, bytes ≠ text.toUTF8 := by
        rintro text rfl
        rw [read_eq_ok.2 hpath] at hread
        cases hread
      rw [FileTree.text_file_eq_error h, FileError.line_eq]
      exact .undecodable hpath hbytes

namespace Checking

theorem exit_eq_zero (c : Checking) : c.output.exit = 0 ↔ c.allAccepted = true := by
  rw [output]
  cases c.allAccepted <;> simp

theorem exit_output (c : Checking) : c.output.exit = 0 ∨ c.output.exit = 1 := by
  rw [output]
  cases c.allAccepted <;> simp

variable (draw : Drawing) (disk : Disk)

/-- A file adds what is printed for it, and is remembered if it is not accepted. -/
theorem next_reports (c : Checking) (path : String) :
    ∃ entries, disk.Reports draw path entries ∧
      (next draw disk c path).log = c.log ++ entries ∧
      ((next draw disk c path).allAccepted = true ↔ c.allAccepted = true ∧ disk.Accepts path) := by
  rw [next, Disk.accepts_iff]
  cases hread : disk.read path with
  | error e =>
    refine ⟨_, Disk.reports_of_error hread, rfl, iff_of_false Bool.false_ne_true ?_⟩
    rintro ⟨-, text, h, -⟩
    cases h
  | ok text =>
    have hpath := Disk.read_eq_ok.1 hread
    have hreports : List.Forall₂ (draw.Writes text path) (Program.parse text).diagnostics
        ((Program.parse text).diagnostics.map (draw.report text path)) := by
      rw [List.forall₂_map_right_iff, List.forall₂_same]
      exact fun d _ => draw.writes_report text path d
    have hfunctions : (Program.parse text).program.definitions.length =
      (Program.parse text).program.subfunctions.length + 1 := rfl
    have hlog (entry : Channel × String) :
        c.log ++ (Program.parse text).diagnostics.map (fun d => (.stderr, draw.report text path d)) ++
          [entry] =
        c.log ++ (((Program.parse text).diagnostics.map (draw.report text path)).map (.stderr, ·) ++
          [entry]) := by
      rw [List.map_map, List.append_assoc]
      rfl
    simp only [Except.ok.injEq, exists_eq_left', ParseResult.hasErrors_eq_false]
    by_cases hs : ∀ d ∈ (Program.parse text).diagnostics, d.severity ≠ .error
    · rw [if_pos ((ParseResult.length_errors_eq_zero _).2 hs)]
      exact ⟨_, .accepted hpath hs hreports hfunctions (ParseResult.length_warnings _), hlog _,
        (and_iff_left hs).symm⟩
    · rw [if_neg (mt (ParseResult.length_errors_eq_zero _).1 hs)]
      obtain ⟨d, hd, he⟩ : ∃ d ∈ (Program.parse text).diagnostics, d.severity = .error := by
        simpa using hs
      exact ⟨_, .rejected hpath hd he hreports (ParseResult.length_errors _), hlog _,
        iff_of_false Bool.false_ne_true fun h => hs h.2⟩

theorem foldl_reports (files : List String) (c : Checking) :
    ∃ log, List.Forall₂ (disk.Reports draw) files log ∧
      (files.foldl (next draw disk) c).log = c.log ++ log.flatten ∧
      ((files.foldl (next draw disk) c).allAccepted = true ↔
        c.allAccepted = true ∧ ∀ f ∈ files, disk.Accepts f) := by
  induction files generalizing c with
  | nil => exact ⟨[], .nil, (List.append_nil _).symm, by simp⟩
  | cons f files ih =>
    obtain ⟨entries, hentries, hlog, haccepted⟩ := next_reports draw disk c f
    obtain ⟨log, hreports, hrest, hall⟩ := ih (next draw disk c f)
    refine ⟨entries :: log, .cons hentries hreports, ?_, ?_⟩
    · rw [List.foldl_cons, hrest, hlog, List.flatten_cons, List.append_assoc]
    · rw [List.foldl_cons, hall, haccepted, List.forall_mem_cons, and_assoc]

end Checking

section

variable {disk : Disk} {path : String}

/-- A command that fails on a text with errors, and on no other, is done if its file is accepted. -/
theorem Output.exit_ofFile {run : String → Output}
    (h : ∀ text, (run text).exit = if (Program.parse text).hasErrors then 1 else 0) :
    (ofFile disk path run).exit = 0 ↔ disk.Accepts path := by
  rw [ofFile, Disk.accepts_iff]
  cases disk.read path with
  | error e => exact iff_of_false Nat.one_ne_zero fun ⟨_, h, _⟩ => by cases h
  | ok text =>
    simp only [Except.ok.injEq, exists_eq_left', h]
    cases (Program.parse text).hasErrors <;> decide

theorem Command.exit_parseText (style : Json.Style) (text : String) :
    (parseText style text).exit = if (Program.parse text).hasErrors then 1 else 0 := by
  simp only [parseText]

theorem Command.exit_formatText (draw : Drawing) (path text : String) :
    (formatText draw path text).exit = if (Program.parse text).hasErrors then 1 else 0 := by
  rw [formatText]
  cases (Program.parse text).hasErrors <;> rfl

end

/-- A check goes through all the files that its paths stand for, one after the other and whatever
was wrong with those before. For each it prints the reports of its diagnostics and one verdict. It
is done if there are files and all of them are accepted, which are those that can be parsed, or
formatted, alone. -/
theorem Command.check_conjunction (draw : Drawing) (disk : Disk) (paths : List String)
    (input : String) :
    ∃ files log, disk.Collects paths files ∧ List.Forall₂ (disk.Reports draw) files log ∧
      let output := (Command.check paths).run draw disk input
      (output.exit = 0 ↔ files ≠ [] ∧ ∀ f ∈ files, disk.Accepts f) ∧
      (output.exit = 0 ∨ output.exit = 1) ∧
      (∀ f style, ((Command.parse f style).run draw disk input).exit = 0 ↔ disk.Accepts f) ∧
      (∀ f, ((Command.format f).run draw disk input).exit = 0 ↔ disk.Accepts f) ∧
      (files = [] → output = ⟨1, "", "No .sa files found\n"⟩) ∧
      (files ≠ [] →
        (files.foldl (Checking.next draw disk) .start).log = log.flatten ∧
        output.stdout = String.join ((log.flatten.filter (·.1 = .stdout)).map (·.2)) ∧
        output.stderr = String.join ((log.flatten.filter (·.1 = .stderr)).map (·.2))) := by
  obtain ⟨log, hreports, hlog, haccepted⟩ :=
    Checking.foldl_reports draw disk (disk.collect paths) .start
  have hlog : _ = log.flatten := hlog
  refine ⟨disk.collect paths, log, disk.collects paths, hreports, ?_⟩
  have hparse : ∀ f style, ((Command.parse f style).run draw disk input).exit = 0 ↔
      disk.Accepts f := fun f style => Output.exit_ofFile (exit_parseText style)
  have hformat : ∀ f, ((Command.format f).run draw disk input).exit = 0 ↔ disk.Accepts f :=
    fun f => Output.exit_ofFile (exit_formatText draw f)
  intro output
  by_cases hfiles : disk.collect paths = []
  · have houtput : output = ⟨1, "", "No .sa files found\n"⟩ := by
      show checkPaths draw disk paths = _
      rw [checkPaths, hfiles]
    refine ⟨?_, ?_, hparse, hformat, fun _ => houtput, fun h => absurd hfiles h⟩
    · rw [houtput]
      exact iff_of_false Nat.one_ne_zero fun h => h.1 hfiles
    · rw [houtput]
      exact .inr rfl
  · have houtput : output =
        ((disk.collect paths).foldl (Checking.next draw disk) .start).output := by
      show checkPaths draw disk paths = _
      rw [checkPaths]
      split
      · exact absurd ‹_› hfiles
      · rfl
    have haccepted : _ ↔ ∀ f ∈ disk.collect paths, disk.Accepts f :=
      haccepted.trans (and_iff_right rfl)
    rw [houtput]
    refine ⟨?_, Checking.exit_output _, hparse, hformat, fun h => absurd h hfiles,
      fun _ => ⟨hlog, ?_⟩⟩
    · rw [Checking.exit_eq_zero, haccepted]
      exact (and_iff_right hfiles).symm
    · rw [Checking.output, Checking.printed, Checking.printed, hlog]
      exact ⟨rfl, rfl⟩

/-- Neither a path without a file nor a file with errors keeps the next one from its verdict. -/
example :
    let tree := ((FileTree.directory []).insert ["d", "a.sa"] (.file "a = 1".toUTF8)).insert
      ["d", "b.sa"] (.file "def main():".toUTF8)
    (Command.check ["x", "d"]).run .blank tree.disk "" =
      ⟨1, "✓ d/b.sa - 1 functions (0 warnings)\n",
        "Error reading x: No such file or directory (os error 2)\n✗ d/a.sa - 2 errors\n"⟩ := by
  decide +kernel

end ShapeAssembly
