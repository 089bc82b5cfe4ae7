import ImportAlias.Editing
import ImportAlias.Proofs.Contents
import ImportAlias.Scan.Candidate

/-!
# One file after the other

What a run over several files does, step by step. `editEach` is the run without its
observer and its counts: the outcomes in order and the tree afterwards. `editAll_eq` says
that the report and what the observer makes of it are folds over those outcomes.
`process_cases` says once what the step for one file can do. A `pass` is a whole run: a
scan, and the files that it found edited in turn.
-/

namespace ImportAlias

/-- A report counts the outcomes that it records and keeps them in order. -/
theorem Report.foldl_record (os : List Outcome) (r : Report) :
    os.foldl record r =
      { root := r.root
        examined := r.examined + os.length
        fixed := r.fixed + os.countP Outcome.isFixed
        unchanged := r.unchanged + os.countP Outcome.isUnchanged
        failed := r.failed + os.countP Outcome.isFailed
        files := r.files ++ os } := by
  induction os generalizing r with
  | nil => simp
  | cons o os ih =>
    rw [List.foldl_cons, ih]
    cases ho : o.status <;>
      simp [record, ho, Outcome.isFixed, Outcome.isUnchanged, Outcome.isFailed] <;> omega

namespace Alias

/-! ### Several files -/

/-- The outcomes of editing files one after the other, and the tree afterwards. -/
def editEach (a : Alias) (cwd : Location) : FileTree → List Path → List Outcome × FileTree
  | t, [] => ([], t)
  | t, p :: ps =>
    let r := a.process cwd t p
    let rs := a.editEach cwd r.2 ps
    (r.1 :: rs.1, rs.2)

/-- A run over several files tells its observer and records what `editEach` gives. -/
theorem editAll_eq {σ : Type} (a : Alias) (cwd : Location) (observe : σ → Outcome → σ) (seen : σ)
    (t : FileTree) (ps : List Path) :
    a.editAll cwd observe seen t ps =
      { tree := (a.editEach cwd t ps).2
        report := (a.editEach cwd t ps).1.foldl Report.record (.new a.root)
        seen := (a.editEach cwd t ps).1.foldl observe seen } := by
  have hfold : ∀ (ps : List Path) (s : Progress σ),
      ps.foldl (a.step cwd observe) s =
        { tree := (a.editEach cwd s.tree ps).2
          report := (a.editEach cwd s.tree ps).1.foldl Report.record s.report
          seen := (a.editEach cwd s.tree ps).1.foldl observe s.seen } := by
    intro ps
    induction ps with
    | nil => intro s; rfl
    | cons p ps ih =>
      intro s
      rw [List.foldl_cons, ih]
      rfl
  exact hfold ps _

theorem tree_editAll {σ : Type} (a : Alias) (cwd : Location) (observe : σ → Outcome → σ) (seen : σ)
    (t : FileTree) (ps : List Path) :
    (a.editAll cwd observe seen t ps).tree = (a.editEach cwd t ps).2 := by
  rw [editAll_eq]

theorem files_editAll {σ : Type} (a : Alias) (cwd : Location) (observe : σ → Outcome → σ)
    (seen : σ) (t : FileTree) (ps : List Path) :
    (a.editAll cwd observe seen t ps).report.files = (a.editEach cwd t ps).1 := by
  rw [editAll_eq, Report.foldl_record]
  rfl

/-! ### One file -/

/-- A file that cannot be read fails and nothing happens. -/
theorem process_of_error {a : Alias} {cwd : Location} {t : FileTree} {p : Path} {f : Fault}
    (h : t.readText cwd p = .error f) :
    a.process cwd t p = (⟨p, p.displayFrom a.displayBase, .failed f.message, 0⟩, t) := by
  simp only [process, editFile, h]
  rfl

/-- A file with a text is written if its text changes and it may be written. -/
theorem process_of_file {a : Alias} {cwd : Location} {t : FileTree} {p : Path} {loc : Location}
    {mode : Mode} {bs : Bytes} {text : Text} (hloc : t.locate cwd p = .ok loc)
    (hfile : t.fileAt? loc = some (mode, bs)) (hread : mode.read)
    (htext : Utf8.decode? bs = some text) :
    a.process cwd t p =
      if (a.edit cwd p text).changed then
        if mode.write then
          (⟨p, p.displayFrom a.displayBase, .fixed, (a.edit cwd p text).replacements⟩,
            t.setContent loc (Utf8.encode (a.edit cwd p text).text))
        else (⟨p, p.displayFrom a.displayBase, .failed SystemError.denied.message, 0⟩, t)
      else (⟨p, p.displayFrom a.displayBase, .unchanged, 0⟩, t) := by
  have hok : t.readText cwd p = .ok text :=
    FileTree.readText_eq_ok_iff.2 ⟨loc, mode, bs, hloc, hfile, hread, htext⟩
  simp only [process, editFile, hok, FileTree.writeText_eq hloc hfile]
  by_cases hchanged : (a.edit cwd p text).changed = true
  · by_cases hwrite : mode.write = true
    · simp only [hchanged, hwrite, if_true, Outcome.ofResult]
    · simp only [hchanged, hwrite, if_true, if_false, Bool.false_eq_true, Outcome.ofResult]
      rfl
  · simp only [hchanged, if_false, Bool.false_eq_true, Outcome.ofResult]

/-- **What the step for one file can do**: write the file's new text, or nothing. -/
theorem process_cases (a : Alias) (cwd : Location) (t : FileTree) (p : Path) :
    (∃ loc mode bs text, t.locate cwd p = .ok loc ∧ t.fileAt? loc = some (mode, bs) ∧
      Utf8.decode? bs = some text ∧ (a.edit cwd p text).changed ∧
      a.process cwd t p =
        (⟨p, p.displayFrom a.displayBase, .fixed, (a.edit cwd p text).replacements⟩,
          t.setContent loc (Utf8.encode (a.edit cwd p text).text))) ∨
    ((a.process cwd t p).1.isFixed = false ∧ (a.process cwd t p).1.replacements = 0 ∧
      (a.process cwd t p).2 = t) := by
  cases hread : t.readText cwd p with
  | error f =>
    rw [process_of_error hread]
    exact .inr ⟨rfl, rfl, rfl⟩
  | ok text =>
    obtain ⟨loc, mode, bs, hloc, hfile, hmode, htext⟩ := FileTree.readText_eq_ok_iff.1 hread
    have hprocess := process_of_file (a := a) hloc hfile hmode htext
    by_cases hchanged : (a.edit cwd p text).changed = true
    · rw [if_pos hchanged] at hprocess
      by_cases hwrite : mode.write = true
      · rw [if_pos hwrite] at hprocess
        exact .inl ⟨loc, mode, bs, text, hloc, hfile, htext, hchanged, hprocess⟩
      · rw [if_neg hwrite] at hprocess
        rw [hprocess]
        exact .inr ⟨rfl, rfl, rfl⟩
    · rw [if_neg hchanged] at hprocess
      rw [hprocess]
      exact .inr ⟨rfl, rfl, rfl⟩

/-- A step that reports no change makes none. -/
theorem process_eq_of_not_fixed {a : Alias} {cwd : Location} {t : FileTree} {p : Path}
    (h : (a.process cwd t p).1.isFixed = false) : (a.process cwd t p).2 = t := by
  rcases a.process_cases cwd t p with ⟨loc, mode, bs, text, -, -, -, -, heq⟩ | ⟨-, -, heq⟩
  · rw [heq] at h
    cases h
  · exact heq

theorem path_process (a : Alias) (cwd : Location) (t : FileTree) (p : Path) :
    (a.process cwd t p).1.path = p := by
  simp only [process]
  cases (a.editFile cwd t p).1 with
  | error e => rfl
  | ok e =>
    rw [Outcome.ofResult]
    split <;> rfl

/-- A run gives one outcome for each path, in their order. -/
theorem paths_editEach (a : Alias) (cwd : Location) (t : FileTree) (ps : List Path) :
    (a.editEach cwd t ps).1.map (·.path) = ps := by
  induction ps generalizing t with
  | nil => rfl
  | cons p ps ih => rw [editEach, List.map_cons, path_process, ih]

/-- What holds of the outcome of every step holds of all outcomes of a run. -/
theorem forall_mem_editEach {a : Alias} {cwd : Location} {P : Outcome → Prop}
    (h : ∀ t p, P (a.process cwd t p).1) (t : FileTree) (ps : List Path) :
    ∀ o ∈ (a.editEach cwd t ps).1, P o := by
  induction ps generalizing t with
  | nil => simp [editEach]
  | cons p ps ih => exact List.forall_mem_cons.2 ⟨h t p, ih _⟩

theorem shape_process (a : Alias) (cwd : Location) (t : FileTree) (p : Path) :
    (a.process cwd t p).2.shape = t.shape := by
  rcases a.process_cases cwd t p with ⟨loc, mode, bs, text, -, -, -, -, h⟩ | ⟨-, -, h⟩
  · rw [h, FileTree.shape_setContent]
  · rw [h]

/-- A run over several files keeps the shape of the tree. -/
theorem shape_editEach (a : Alias) (cwd : Location) (t : FileTree) (ps : List Path) :
    (a.editEach cwd t ps).2.shape = t.shape := by
  induction ps generalizing t with
  | nil => rfl
  | cons p ps ih => exact (ih _).trans (a.shape_process cwd t p)

end Alias

/-! ### A whole run -/

namespace Settings

/-- A run: the files to look at are found and edited. -/
def pass (s : Settings) (cwd : Location) (t : FileTree) : Alias.Progress Unit :=
  (s.toAlias cwd).editAll cwd (fun _ _ => ()) () t (s.scan cwd t)

theorem tree_pass (s : Settings) (cwd : Location) (t : FileTree) :
    (s.pass cwd t).tree = ((s.toAlias cwd).editEach cwd t (s.scan cwd t)).2 :=
  Alias.tree_editAll _ cwd _ _ t _

theorem files_pass (s : Settings) (cwd : Location) (t : FileTree) :
    (s.pass cwd t).report.files = ((s.toAlias cwd).editEach cwd t (s.scan cwd t)).1 :=
  Alias.files_editAll _ cwd _ _ t _

/-- Whoever watches a run sees the files of its report one after the other. -/
theorem editAll_scan {σ : Type} (s : Settings) (cwd : Location) (t : FileTree)
    (observe : σ → Outcome → σ) (seen : σ) :
    (s.toAlias cwd).editAll cwd observe seen t (s.scan cwd t) =
      { tree := (s.pass cwd t).tree
        report := (s.pass cwd t).report
        seen := (s.pass cwd t).report.files.foldl observe seen } := by
  rw [files_pass, pass, Alias.editAll_eq, Alias.editAll_eq]

/-- A report has one file for each candidate. -/
theorem length_files_pass (s : Settings) (cwd : Location) (t : FileTree) :
    (s.pass cwd t).report.files.length = (s.scan cwd t).length := by
  rw [files_pass, ← congrArg List.length ((s.toAlias cwd).paths_editEach cwd t (s.scan cwd t)),
    List.length_map]

/-- A report counts its files. -/
theorem examined_pass (s : Settings) (cwd : Location) (t : FileTree) :
    (s.pass cwd t).report.examined = (s.pass cwd t).report.files.length := by
  rw [pass, Alias.editAll_eq, Report.foldl_record]
  simp [Report.new]

/-- A run keeps the shape of the tree. -/
theorem shape_pass (s : Settings) (cwd : Location) (t : FileTree) :
    (s.pass cwd t).tree.shape = t.shape := by
  rw [tree_pass]
  exact Alias.shape_editEach _ cwd t _

end Settings

end ImportAlias
