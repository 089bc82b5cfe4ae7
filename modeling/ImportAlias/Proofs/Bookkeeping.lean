import ImportAlias.Proofs.AnyOrder
import ImportAlias.Proofs.Editing

/-!
# The books of a run

A report is kept by recording one outcome after the other. Whatever is recorded, its counts are
those of the outcomes that it lists (`Tallied`). A run records one outcome for each path, in
their order and as its observer sees it, and that outcome is what becomes of the path in the
tree that the paths before it have left. It counts replacements if and only if a text was
changed.
-/

namespace ImportAlias

theorem Outcome.isFailed_iff {o : Outcome} :
    o.isFailed = true ↔ ∃ cause, o.status = .failed cause := by
  unfold isFailed
  cases o.status <;> simp

namespace Report

/-- The counts of a report are those of the outcomes that it lists. -/
structure Tallied (r : Report) : Prop where
  examined : r.examined = r.files.length
  total : r.examined = r.fixed + r.unchanged + r.failed
  fixed : r.fixed = r.files.countP (·.status = .fixed)
  unchanged : r.unchanged = r.files.countP (·.status = .unchanged)
  failed : r.failed = r.files.countP Outcome.isFailed

/-- Every outcome is of one of the three kinds. -/
theorem length_eq_countP (os : List Outcome) :
    os.length = os.countP Outcome.isFixed + os.countP Outcome.isUnchanged +
      os.countP Outcome.isFailed := by
  induction os with
  | nil => rfl
  | cons o os ih =>
    rw [List.length_cons, List.countP_cons, List.countP_cons, List.countP_cons]
    cases ho : o.status <;>
      simp [Outcome.isFixed, Outcome.isUnchanged, Outcome.isFailed, ho] at ih ⊢ <;> omega

/-- Whatever is recorded, a report that started empty has counted it. -/
theorem tallied_foldl_record (root : Path) (os : List Outcome) :
    (os.foldl record (new root)).Tallied := by
  rw [foldl_record]
  exact {
    examined := Nat.zero_add _
    total := by simpa [new] using length_eq_countP os
    fixed := Nat.zero_add _
    unchanged := Nat.zero_add _
    failed := Nat.zero_add _ }

theorem root_foldl_record (root : Path) (os : List Outcome) :
    (os.foldl record (new root)).root = root := by
  rw [foldl_record]
  rfl

theorem files_foldl_record (root : Path) (os : List Outcome) :
    (os.foldl record (new root)).files = os := by
  rw [foldl_record]
  rfl

/-- There are failures if and only if some outcome is one. -/
theorem Tallied.hasFailures_iff {r : Report} (h : r.Tallied) :
    r.hasFailures = true ↔ ∃ o ∈ r.files, ∃ cause, o.status = .failed cause := by
  rw [hasFailures, decide_eq_true_eq, h.failed, List.countP_pos_iff]
  simp only [Outcome.isFailed_iff]

end Report

namespace Alias

/-- A run over more paths goes on where the run over the first ones has come. -/
theorem editEach_append (a : Alias) (cwd : Location) (t : FileTree) (ps qs : List Path) :
    a.editEach cwd t (ps ++ qs) =
      let first := a.editEach cwd t ps
      let rest := a.editEach cwd first.2 qs
      (first.1 ++ rest.1, rest.2) := by
  induction ps generalizing t with
  | nil => rfl
  | cons p ps ih => simp only [List.cons_append, editEach, ih]

theorem length_editEach (a : Alias) (cwd : Location) (t : FileTree) (ps : List Path) :
    (a.editEach cwd t ps).1.length = ps.length := by
  rw [← congrArg List.length (a.paths_editEach cwd t ps), List.length_map]

/-- The outcome of a path is what becomes of it in the tree that the paths before it leave. -/
theorem getElem?_editEach (a : Alias) (cwd : Location) (t : FileTree) (before : List Path)
    (p : Path) (after : List Path) :
    (a.editEach cwd t (before ++ p :: after)).1[before.length]? =
      some (a.process cwd (a.editEach cwd t before).2 p).1 := by
  rw [editEach_append, ← a.length_editEach cwd t before]
  simp [editEach]

/-- An outcome counts replacements if and only if the text of its file was changed. -/
theorem replacements_pos_iff (a : Alias) (cwd : Location) (t : FileTree) (p : Path) :
    0 < (a.process cwd t p).1.replacements ↔ (a.process cwd t p).1.status = .fixed := by
  rcases a.process_cases cwd t p with
    ⟨loc, mode, bs, text, -, -, -, hchanged, hprocess⟩ | ⟨hfixed, hnone, -⟩
  · rw [hprocess]
    exact iff_of_true (replacements_pos_of_changed hchanged) rfl
  · rw [hnone]
    exact iff_of_false (Nat.lt_irrefl 0) (of_decide_eq_false hfixed)

/-- **A report tells what happened.** The report of a run has the root of the alias and lists
one outcome for each path, in their order. Its observer was shown these outcomes, once and in
this order. Each of them is what becomes of its path in the tree that the paths before it have
left, and it counts replacements if and only if the text of the file was changed. The report is
what recording the outcomes gives; and whatever is recorded in a new report, it lists it in
order, its counts are those of what it lists, and it has failures if and only if it lists one. -/
theorem report_editAll_tells {σ : Type} (a : Alias) (cwd : Location) (observe : σ → Outcome → σ)
    (seen : σ) (t : FileTree) (ps : List Path) :
    let run := a.editAll cwd observe seen t
    let report := (run ps).report
    report.root = a.root ∧
    report.files.map (·.path) = ps ∧
    (run ps).seen = report.files.foldl observe seen ∧
    (∀ before p after, ps = before ++ p :: after →
      report.files[before.length]? = some (a.process cwd (run before).tree p).1) ∧
    (∀ o ∈ report.files, 0 < o.replacements ↔ o.status = .fixed) ∧
    report = report.files.foldl Report.record (.new a.root) ∧
    ∀ (root : Path) (os : List Outcome),
      let r := os.foldl Report.record (.new root)
      r.root = root ∧ r.files = os ∧ r.Tallied ∧
        (r.hasFailures = true ↔ ∃ o ∈ os, ∃ cause, o.status = .failed cause) := by
  intro run report
  have hfiles : report.files = (a.editEach cwd t ps).1 := files_editAll a cwd observe seen t ps
  have hreport : report = report.files.foldl Report.record (.new a.root) := by
    rw [hfiles]
    simp only [report, run, editAll_eq]
  refine ⟨?_, ?_, ?_, ?_, ?_, hreport, fun root os => ?_⟩
  · rw [hreport]
    exact Report.root_foldl_record a.root _
  · rw [hfiles]
    exact a.paths_editEach cwd t ps
  · rw [hfiles]
    simp only [run, editAll_eq]
  · rintro before p after rfl
    have htree : (run before).tree = _ := tree_editAll a cwd observe seen t before
    rw [hfiles, htree]
    exact a.getElem?_editEach cwd t before p after
  · rw [hfiles]
    exact forall_mem_editEach (a.replacements_pos_iff cwd) t ps
  · have hlisted := Report.files_foldl_record root os
    have htallied := Report.tallied_foldl_record root os
    have hfailures := htallied.hasFailures_iff
    rw [hlisted] at hfailures
    exact ⟨Report.root_foldl_record root os, hlisted, htallied, hfailures⟩

/-- The paths of the mixed tree, and the first of them once more: its text is changed once, and
the second time there is nothing left to change. -/
theorem report_editAll_tells_mixedTree :
    let a := Settings.default.toAlias []
    let again := Path.ofText "/src/x/a.ts".toList
    let run := a.editAll [] (fun shown (o : Outcome) => shown ++ [o.status]) [] mixedTree
    let report := (run (mixedPaths ++ [again])).report
    report.files.map (·.path) = mixedPaths ++ [again] ∧
    (run (mixedPaths ++ [again])).seen =
      [.fixed, .failed SystemError.denied.message, .failed Fault.notText.message,
        .failed SystemError.notFound.message, .unchanged] ∧
    report.files[4]? = some (a.process [] (run mixedPaths).tree again).1 ∧
    report.Tallied ∧ report.hasFailures = true ∧
    ∀ o ∈ report.files, 0 < o.replacements ↔ o.status = .fixed := by
  intro a again run report
  obtain ⟨-, hpaths, -, hturn, hcounted, hreport, hnew⟩ := report_editAll_tells a []
    (fun shown (o : Outcome) => shown ++ [o.status]) [] mixedTree (mixedPaths ++ [again])
  have htallied := (hnew a.root report.files).2.2.1
  rw [← hreport] at htallied
  exact ⟨hpaths, by decide +kernel, hturn mixedPaths again [] rfl, htallied, by decide +kernel,
    hcounted⟩

end Alias

end ImportAlias
