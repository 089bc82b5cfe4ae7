import ImportAlias.Proofs.Sequence

/-!
# Files that are edited independently

The step for one file reads what its path leads to and writes nothing else. So where the
paths of a run lead to different files, each file fares as it would in a run of its own:
its outcome and its new content are those of the first tree, whatever was done before,
and every other file keeps its content.

## The model

`Alike` says of two trees that a path leads to the same file in both. A step for another
file keeps the trees alike, and a step for the file itself does the same in both.
-/

namespace ImportAlias

namespace FileTree

/-- Two trees of the same shape in which a path leads to the same file. -/
structure Alike (cwd : Location) (p : Path) (t t' : FileTree) : Prop where
  shape : t'.shape = t.shape
  file : ∀ loc, t.locate cwd p = .ok loc → t'.fileAt? loc = t.fileAt? loc

/-- Two paths that do not lead to the same location. -/
def Apart (t : FileTree) (cwd : Location) (p q : Path) : Prop :=
  ∀ loc, t.locate cwd p = .ok loc → t.locate cwd q ≠ .ok loc

/-- Reading a location depends on the shape and on the file there. -/
theorem contentAt_eq (t : FileTree) (loc : Location) :
    t.contentAt loc =
      match t.fileAt? loc with
      | some (mode, bs) => if mode.read then .ok bs else .error (.system .denied)
      | none => t.shape.contentAt loc := by
  unfold contentAt fileAt?
  rw [get?_shape]
  match t.get? loc with
  | none => rfl
  | some (.dir mode inside) => rfl
  | some (.leaf (.link target)) => rfl
  | some (.leaf (.file mode bs)) => rfl

theorem Alike.readText {cwd : Location} {p : Path} {t t' : FileTree} (h : Alike cwd p t t') :
    t'.readText cwd p = t.readText cwd p := by
  unfold FileTree.readText readBytes
  rw [locate_of_shape h.shape]
  cases hloc : t.locate cwd p with
  | error e => rfl
  | ok loc =>
    have hcontent : t'.contentAt loc = t.contentAt loc := by
      rw [contentAt_eq t', contentAt_eq t, h.file loc hloc, h.shape]
    simp only [hcontent]

end FileTree

open FileTree (Alike)

namespace Alias

variable {a : Alias} {cwd : Location} {t t' : FileTree}

/-! ### One file -/

/-- A file fares alike in trees that are alike for it. -/
theorem process_alike {p : Path} (h : Alike cwd p t t') :
    (a.process cwd t' p).1 = (a.process cwd t p).1 ∧
      ∀ loc, t.locate cwd p = .ok loc →
        (a.process cwd t' p).2.fileAt? loc = (a.process cwd t p).2.fileAt? loc := by
  cases hread : t.readText cwd p with
  | error f =>
    have hread' : t'.readText cwd p = .error f := by rw [h.readText, hread]
    rw [process_of_error hread, process_of_error hread']
    exact ⟨rfl, h.file⟩
  | ok text =>
    obtain ⟨loc, mode, bs, hloc, hfile, hmode, htext⟩ := FileTree.readText_eq_ok_iff.1 hread
    have hloc' : t'.locate cwd p = .ok loc := by rw [FileTree.locate_of_shape h.shape, hloc]
    have hfile' : t'.fileAt? loc = some (mode, bs) := by rw [h.file loc hloc, hfile]
    rw [process_of_file hloc hfile hmode htext, process_of_file hloc' hfile' hmode htext]
    by_cases hchanged : (a.edit cwd p text).changed = true
    · by_cases hwrite : mode.write = true
      · simp only [hchanged, hwrite, if_true, FileTree.fileAt?_setContent, true_and]
        intro loc' hloc'
        rw [h.file loc' hloc']
      · simp only [hchanged, hwrite, if_true, if_false, Bool.false_eq_true, true_and]
        exact h.file
    · simp only [hchanged, if_false, Bool.false_eq_true, true_and]
      exact h.file

/-- The step for one file changes no other file. -/
theorem fileAt?_process_of_ne {p : Path} {loc : Location} (h : t.locate cwd p ≠ .ok loc) :
    (a.process cwd t p).2.fileAt? loc = t.fileAt? loc := by
  rcases a.process_cases cwd t p with ⟨loc', mode, bs, text, hloc', -, -, -, heq⟩ | ⟨-, -, heq⟩
  · have hne : loc ≠ loc' := by
      rintro rfl
      exact h hloc'
    rw [heq, FileTree.fileAt?_setContent, if_neg hne]
  · rw [heq]

theorem alike_process {p q : Path} (h : t.Apart cwd p q) :
    Alike cwd q t (a.process cwd t p).2 where
  shape := a.shape_process cwd t p
  file loc hloc := fileAt?_process_of_ne fun hp => h loc hp hloc

/-! ### Several files -/

/-- A run changes no file that none of its paths leads to. -/
theorem fileAt?_editEach_of_ne {ps : List Path} {loc : Location}
    (h : ∀ p ∈ ps, t.locate cwd p ≠ .ok loc) :
    (a.editEach cwd t ps).2.fileAt? loc = t.fileAt? loc := by
  induction ps generalizing t with
  | nil => rfl
  | cons p ps ih =>
    have hrest : ∀ q ∈ ps, (a.process cwd t p).2.locate cwd q ≠ .ok loc := by
      intro q hq
      rw [FileTree.locate_of_shape (a.shape_process cwd t p)]
      exact h q (List.mem_cons_of_mem _ hq)
    exact (ih hrest).trans (fileAt?_process_of_ne (h p List.mem_cons_self))

/-- A run leaves the tree as it was for a path that leads to another file than all of its. -/
theorem alike_editEach {ps : List Path} {p : Path} (h : ∀ q ∈ ps, t.Apart cwd q p) :
    Alike cwd p t (a.editEach cwd t ps).2 where
  shape := a.shape_editEach cwd t ps
  file loc hloc := fileAt?_editEach_of_ne fun q hq hloc' => h q hq loc hloc' hloc

theorem pairwise_apart_process {p : Path} {ps : List Path} (h : ps.Pairwise (t.Apart cwd)) :
    ps.Pairwise ((a.process cwd t p).2.Apart cwd) := by
  refine h.imp fun {q r} hqr loc => ?_
  rw [FileTree.locate_of_shape (a.shape_process cwd t p),
    FileTree.locate_of_shape (a.shape_process cwd t p)]
  exact hqr loc

/-- **Files are edited independently.** If its paths lead to different files, a run gives
each file the outcome that it would have alone. -/
theorem outcomes_editEach {ps : List Path} (h : ps.Pairwise (t.Apart cwd)) :
    (a.editEach cwd t ps).1 = ps.map fun p => (a.process cwd t p).1 := by
  induction ps generalizing t with
  | nil => rfl
  | cons p ps ih =>
    obtain ⟨hp, hps⟩ := List.pairwise_cons.1 h
    have hrest : (ps.map fun q => (a.process cwd (a.process cwd t p).2 q).1) =
        ps.map fun q => (a.process cwd t q).1 :=
      List.map_congr_left fun q hq => (process_alike (alike_process (hp q hq))).1
    rw [editEach, List.map_cons, ih (pairwise_apart_process hps), hrest]

/-- If its paths lead to different files, a run leaves in each file what it would hold had
it been edited alone. -/
theorem fileAt?_editEach {ps : List Path} (h : ps.Pairwise (t.Apart cwd)) {p : Path}
    (hp : p ∈ ps) {loc : Location} (hloc : t.locate cwd p = .ok loc) :
    (a.editEach cwd t ps).2.fileAt? loc = (a.process cwd t p).2.fileAt? loc := by
  induction ps generalizing t with
  | nil => cases hp
  | cons q ps ih =>
    obtain ⟨hq, hps⟩ := List.pairwise_cons.1 h
    have hshape := a.shape_process cwd t q
    rcases List.mem_cons.1 hp with rfl | hmem
    · have hothers : ∀ r ∈ ps, (a.process cwd t p).2.locate cwd r ≠ .ok loc := by
        intro r hr
        rw [FileTree.locate_of_shape hshape]
        exact hq r hr loc hloc
      exact fileAt?_editEach_of_ne (t := (a.process cwd t p).2) hothers
    · have hloc' : (a.process cwd t q).2.locate cwd p = .ok loc := by
        rw [FileTree.locate_of_shape hshape, hloc]
      calc (a.editEach cwd t (q :: ps)).2.fileAt? loc
          = (a.process cwd (a.process cwd t q).2 p).2.fileAt? loc :=
            ih (pairwise_apart_process hps) hmem hloc'
        _ = (a.process cwd t p).2.fileAt? loc :=
            (process_alike (alike_process (hq p hmem))).2 loc hloc

end Alias

end ImportAlias
