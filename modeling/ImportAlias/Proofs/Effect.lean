import ImportAlias.Proofs.Locations
import ImportAlias.Proofs.Telling

/-!
# The effect of a run

What a run of the command does to a tree without links, from its arguments to the last
file: every candidate fares by its own text and mode in the tree that the run found,
nothing else changes, and the report tells it all in the order of the scan. A candidate
was readable when the scan found it, and what is written to the files before it takes
nothing from that.
-/

namespace ImportAlias

theorem SystemError.message_denied :
    SystemError.denied.message = "Permission denied (os error 13)".toList := by decide

/-- How a candidate fares between two trees: it has a text in the first one, the second one
holds the edited text if that is another one and may be written, and the outcome tells
which of the three cases it was. -/
def Alias.Fared (a : Alias) (cwd : Location) (before after : FileTree) (o : Outcome) : Prop :=
  ∃ loc mode bs text,
    before.locate cwd o.path = .ok loc ∧ before.fileAt? loc = some (mode, bs) ∧
    Utf8.decode? bs = some text ∧
    let e := a.edit cwd o.path text
    after.fileAt? loc = some (mode, if e.changed ∧ mode.write then Utf8.encode e.text else bs) ∧
    (o.status = .fixed ↔ e.changed ∧ mode.write) ∧
    (o.status = .unchanged ↔ ¬ e.changed) ∧
    ∀ cause, o.status = .failed cause ↔
      e.changed ∧ ¬ mode.write ∧ cause = "Permission denied (os error 13)".toList

/-- A file with a text fares so when it is edited, whatever happens to the others. -/
theorem Alias.fared_process {a : Alias} {cwd : Location} {t after : FileTree} {p : Path}
    {loc : Location} {mode : Mode} {bs : Bytes} {text : Text} (hloc : t.locate cwd p = .ok loc)
    (hfile : t.fileAt? loc = some (mode, bs)) (hread : mode.read)
    (htext : Utf8.decode? bs = some text)
    (hafter : after.fileAt? loc = (a.process cwd t p).2.fileAt? loc) :
    a.Fared cwd t after (a.process cwd t p).1 := by
  have hprocess := process_of_file (a := a) hloc hfile hread htext
  have hpath := a.path_process cwd t p
  refine ⟨loc, mode, bs, text, by rw [hpath, hloc], hfile, htext, ?_⟩
  rw [hpath]
  by_cases hchanged : (a.edit cwd p text).changed = true
  · rw [if_pos hchanged] at hprocess
    by_cases hwrite : mode.write = true
    · rw [if_pos hwrite] at hprocess
      rw [hafter, hprocess, FileTree.fileAt?_setContent, if_pos rfl, hfile]
      simp [hchanged, hwrite]
    · rw [if_neg hwrite] at hprocess
      rw [hafter, hprocess, hfile, SystemError.message_denied]
      simp [hchanged, hwrite, eq_comm]
  · rw [if_neg hchanged] at hprocess
    rw [hafter, hprocess, hfile]
    simp [hchanged]

namespace Settings

variable {s : Settings} {cwd : Location} {t : FileTree}

/-- What a scan finds can be read. -/
theorem exists_text_of_mem_scan {p : Path} (h : p ∈ s.scan cwd t) :
    ∃ loc mode bs text, t.locate cwd p = .ok loc ∧ t.fileAt? loc = some (mode, bs) ∧ mode.read ∧
      Utf8.decode? bs = some text := by
  obtain ⟨names, -, -, hcand⟩ := mem_scan h
  simp only [isCandidate, Bool.and_eq_true] at hcand
  obtain ⟨loc, mode, bs, text, hloc, hfile, hread, htext, -⟩ :=
    FileTree.hasRelativeImport_iff.1 hcand.2
  exact ⟨loc, mode, bs, text, hloc, hfile, hread, htext⟩

/-- Without links, every candidate of a run fares by what the first tree holds. -/
theorem fared_pass (h : t.linkFree = true) :
    ∀ o ∈ (s.pass cwd t).report.files, (s.toAlias cwd).Fared cwd t (s.pass cwd t).tree o := by
  intro o ho
  have hapart : (s.scan cwd t).Pairwise (t.Apart cwd) := pairwise_apart_scan h
  rw [files_pass, Alias.outcomes_editEach hapart] at ho
  obtain ⟨p, hp, rfl⟩ := List.mem_map.1 ho
  obtain ⟨loc, mode, bs, text, hloc, hfile, hread, htext⟩ := exists_text_of_mem_scan hp
  refine Alias.fared_process hloc hfile hread htext ?_
  rw [tree_pass]
  exact Alias.fileAt?_editEach hapart hp hloc

/-- Without links, a candidate can be read when its turn comes. -/
theorem readText_of_scan_eq (h : t.linkFree = true) {before after : List Path} {p : Path}
    (hscan : s.scan cwd t = before ++ p :: after) :
    ∃ text, ((s.toAlias cwd).editEach cwd t before).2.readText cwd p = .ok text := by
  have hapart : (s.scan cwd t).Pairwise (t.Apart cwd) := pairwise_apart_scan h
  rw [hscan, List.pairwise_append] at hapart
  have halike := Alias.alike_editEach (a := s.toAlias cwd) fun q hq =>
    hapart.2.2 q hq p List.mem_cons_self
  have hp : p ∈ s.scan cwd t := by
    rw [hscan]
    exact List.mem_append_right _ List.mem_cons_self
  obtain ⟨loc, mode, bs, text, hloc, hfile, hread, htext⟩ := exists_text_of_mem_scan hp
  refine ⟨text, ?_⟩
  rw [halike.readText]
  exact FileTree.readText_eq_ok_iff.2 ⟨loc, mode, bs, hloc, hfile, hread, htext⟩

end Settings

namespace Command

/-- **The effect of a run** on a tree without links, whose root is a directory and which
has extensions to look for, when standard output takes everything. It tells its report;
the report has one outcome for each candidate, in order; every candidate fares by its own
text and mode in the tree that the run found; none of them fails to be read; every other
file keeps its content; and every file, directory and mode is where it was. -/
theorem run_effect (w : World) (args : List Bytes) (c : Choices)
    (hlinks : w.tree.linkFree = true) (hout : w.stdout = .unlimited)
    (hargs : Choices.ofArguments args = .ok c)
    (hroot : w.tree.isDirectory w.cwd (c.settings w.cwd).root = true)
    (hext : (c.settings w.cwd).extensions ≠ []) :
    let s := c.settings w.cwd
    let a := s.toAlias w.cwd
    let candidates := s.scan w.cwd w.tree
    let report := (s.pass w.cwd w.tree).report
    let final := (run w args).tree
    run w args = account c.json (c.useColor w) report final ∧
    report.files.map (·.path) = candidates ∧
    (∀ o ∈ report.files, a.Fared w.cwd w.tree final o) ∧
    (∀ before p after, candidates = before ++ p :: after →
      ∃ text, (a.editAll w.cwd (fun (_ : Unit) _ => ()) () w.tree before).tree.readText w.cwd p =
        .ok text) ∧
    (∀ loc, (∀ p ∈ candidates, w.tree.locate w.cwd p ≠ .ok loc) →
      final.fileAt? loc = w.tree.fileAt? loc) ∧
    final.shape = w.tree.shape := by
  intro s a candidates report final
  have hrun : run w args = account c.json (c.useColor w) report (s.pass w.cwd w.tree).tree :=
    run_unlimited hout hargs hroot hext
  have hfinal : final = (s.pass w.cwd w.tree).tree := by
    show (run w args).tree = _
    rw [hrun, tree_account]
  rw [hfinal]
  refine ⟨hrun, ?_, Settings.fared_pass hlinks, ?_, ?_, s.shape_pass w.cwd w.tree⟩
  · rw [Settings.files_pass]
    exact a.paths_editEach w.cwd w.tree candidates
  · intro before p after hscan
    rw [Alias.tree_editAll]
    exact Settings.readText_of_scan_eq hlinks hscan
  · intro loc hloc
    rw [Settings.tree_pass]
    exact Alias.fileAt?_editEach_of_ne hloc

/-- A world with two files that need a change, of which one may not be written. -/
def sampleWorld : World :=
  let text := Utf8.encode "import a from '../a'".toList
  let place := fun n : String => ["src", "x", n].map fun n => Utf8.encode n.toList
  { tree := (FileTree.empty.put (place "y.ts") (.file text) none).put (place "z.ts") (.file text)
      (some ⟨true, false, false⟩)
    cwd := []
    noColor := false
    forceColor := false
    stdout := .unlimited }

/-- A run without arguments in the sample world changes one of the two files. -/
theorem run_effect_sampleWorld :
    let s := Choices.empty.settings sampleWorld.cwd
    let report := (s.pass sampleWorld.cwd sampleWorld.tree).report
    Choices.ofArguments [] = .ok .empty ∧ sampleWorld.tree.linkFree = true ∧
      sampleWorld.stdout = .unlimited ∧
      sampleWorld.tree.isDirectory sampleWorld.cwd s.root = true ∧ s.extensions ≠ [] ∧
      report.files.map (·.status) = [.fixed, .failed "Permission denied (os error 13)".toList] ∧
      ∀ o ∈ report.files, (s.toAlias sampleWorld.cwd).Fared sampleWorld.cwd sampleWorld.tree
        (run sampleWorld []).tree o := by
  have hargs : Choices.ofArguments [] = .ok .empty := rfl
  have hlinks : sampleWorld.tree.linkFree = true := by decide +kernel
  have hroot : sampleWorld.tree.isDirectory sampleWorld.cwd
      (Choices.empty.settings sampleWorld.cwd).root = true := by decide +kernel
  have hext : (Choices.empty.settings sampleWorld.cwd).extensions ≠ [] := by decide +kernel
  have heffect := run_effect sampleWorld [] .empty hlinks rfl hargs hroot hext
  exact ⟨hargs, hlinks, rfl, hroot, hext, by decide +kernel, heffect.2.2.1⟩

end Command

end ImportAlias
