import ImportAlias.Proofs.Balance
import ImportAlias.Proofs.Scanning
import ImportAlias.Proofs.Sequence

/-!
# Runs converge

Runs with the same settings, one after the other on the same tree. One run may leave
work for the next: an edit of an edited text can find more to do, and a path through a
link may lead to a file that another path leads to as well. But every replacement that a
run reports is one relative specifier less in the files of the tree, and nothing that a
run does adds one. So the number of relative specifiers bounds the number of runs that
change something, and the first run that changes nothing is the last one of interest.

## The model

`relativeTotal` is the number of relative specifiers that start in the files of a tree.
`treeAfter` is the tree after so many runs. What one file's step does to the number is
`relativeTotal_process`; `relativeTotal_editEach` is the same of a whole run.
-/

namespace ImportAlias

open Import (QuoteFree)

/-! ### The number that falls -/

/-- How many relative specifiers start in the text that bytes spell. Bytes that are not
UTF-8 have none. -/
def relativeIn (bs : Bytes) : Nat := ((Utf8.decode? bs).map Import.countRelative).getD 0

theorem relativeIn_of_decode? {bs : Bytes} {text : Text} (h : Utf8.decode? bs = some text) :
    relativeIn bs = Import.countRelative text := by
  rw [relativeIn, h]
  rfl

@[simp] theorem relativeIn_encode (text : Text) :
    relativeIn (Utf8.encode text) = Import.countRelative text :=
  relativeIn_of_decode? (Utf8.decode?_encode text)

namespace FileTree

/-- How many relative specifiers start in the files of a tree. -/
def relativeTotal (t : FileTree) : Nat := t.total relativeIn

/-- How many relative specifiers start in the file at a location. -/
def relativeAt (t : FileTree) (loc : Location) : Nat :=
  ((t.fileAt? loc).map fun f => relativeIn f.2).getD 0

end FileTree

namespace Alias

variable {a : Alias} {cwd : Location}

/-- **The step for one file** lowers the number by what it reports. -/
theorem relativeTotal_process (ha : Specifier.Proper a.spelling) {p : Path}
    (hd : ∀ d ∈ a.directories cwd p, QuoteFree d) (t : FileTree) :
    (a.process cwd t p).2.relativeTotal + (a.process cwd t p).1.replacements =
      t.relativeTotal := by
  rcases a.process_cases cwd t p with ⟨loc, mode, bs, text, -, hfile, htext, -, h⟩ | ⟨-, hzero, h⟩
  · have hbalance := countRelative_edit ha hd text
    have htotal := FileTree.total_setContent relativeIn
      (Utf8.encode (a.edit cwd p text).text) hfile
    rw [relativeIn_encode, relativeIn_of_decode? htext] at htotal
    rw [h]
    simp only [FileTree.relativeTotal]
    omega
  · rw [h, hzero]
    rfl

/-- The step for one file raises the number in no file. -/
theorem relativeAt_process_le (ha : Specifier.Proper a.spelling) {p : Path}
    (hd : ∀ d ∈ a.directories cwd p, QuoteFree d) (t : FileTree) (loc : Location) :
    (a.process cwd t p).2.relativeAt loc ≤ t.relativeAt loc := by
  rcases a.process_cases cwd t p with ⟨loc', mode, bs, text, -, hfile, htext, -, h⟩ | ⟨-, -, h⟩
  · have hbalance := countRelative_edit ha hd text
    rw [h, FileTree.relativeAt, FileTree.relativeAt, FileTree.fileAt?_setContent]
    by_cases hloc : loc = loc'
    · rw [if_pos hloc, hloc, hfile]
      simp only [Option.map_some, Option.getD_some, relativeIn_encode, relativeIn_of_decode? htext]
      omega
    · exact Nat.le_of_eq (by rw [if_neg hloc])
  · exact Nat.le_of_eq (by rw [h])

/-- A file that is reported as changed has something replaced in it. -/
theorem replacements_process_pos {t : FileTree} {p : Path}
    (h : (a.process cwd t p).1.isFixed = true) : 0 < (a.process cwd t p).1.replacements := by
  rcases a.process_cases cwd t p with ⟨loc, mode, bs, text, -, -, -, hchanged, heq⟩ | ⟨hfixed, -, -⟩
  · rw [heq]
    exact replacements_pos_of_changed hchanged
  · rw [hfixed] at h
    cases h

/-! ### One run -/

/-- How many replacements outcomes report. -/
def reported (os : List Outcome) : Nat := (os.map (·.replacements)).sum

/-- **A run over several files** lowers the number by what it reports. -/
theorem relativeTotal_editEach (ha : Specifier.Proper a.spelling) {ps : List Path}
    (hd : ∀ p ∈ ps, ∀ d ∈ a.directories cwd p, QuoteFree d) (t : FileTree) :
    (a.editEach cwd t ps).2.relativeTotal + reported (a.editEach cwd t ps).1 =
      t.relativeTotal := by
  induction ps generalizing t with
  | nil => rfl
  | cons p ps ih =>
    have hstep := relativeTotal_process ha (hd p List.mem_cons_self) t
    have hrest := ih (fun q hq => hd q (List.mem_cons_of_mem _ hq)) (a.process cwd t p).2
    simp only [editEach, reported, List.map_cons, List.sum_cons] at hrest ⊢
    omega

theorem relativeAt_editEach_le (ha : Specifier.Proper a.spelling) {ps : List Path}
    (hd : ∀ p ∈ ps, ∀ d ∈ a.directories cwd p, QuoteFree d) (t : FileTree) (loc : Location) :
    (a.editEach cwd t ps).2.relativeAt loc ≤ t.relativeAt loc := by
  induction ps generalizing t with
  | nil => exact Nat.le_refl _
  | cons p ps ih =>
    have hstep := relativeAt_process_le ha (hd p List.mem_cons_self) t loc
    have hrest := ih (fun q hq => hd q (List.mem_cons_of_mem _ hq)) (a.process cwd t p).2
    exact Nat.le_trans hrest hstep

theorem reported_pos_of_fixed {t : FileTree} {ps : List Path}
    (h : (a.editEach cwd t ps).1.any Outcome.isFixed = true) :
    0 < reported (a.editEach cwd t ps).1 := by
  induction ps generalizing t with
  | nil => cases h
  | cons p ps ih =>
    simp only [editEach, List.any_cons, Bool.or_eq_true] at h
    simp only [editEach, reported, List.map_cons, List.sum_cons]
    rcases h with h | h
    · have := replacements_process_pos h
      omega
    · have := ih h
      simp only [reported] at this
      omega

theorem editEach_eq_of_not_fixed {t : FileTree} {ps : List Path}
    (h : (a.editEach cwd t ps).1.any Outcome.isFixed = false) : (a.editEach cwd t ps).2 = t := by
  induction ps generalizing t with
  | nil => rfl
  | cons p ps ih =>
    simp only [editEach, List.any_cons, Bool.or_eq_false_iff] at h
    exact (ih h.2).trans (process_eq_of_not_fixed h.1)

end Alias

/-! ### Run after run -/

namespace Settings

/-- The tree after so many runs. -/
def treeAfter (s : Settings) (cwd : Location) (t : FileTree) : Nat → FileTree
  | 0 => t
  | n + 1 => (s.pass cwd (s.treeAfter cwd t n)).tree

/-- No directory below the source root has a quote in its name. -/
def QuoteFreeBelow (s : Settings) (cwd : Location) (t : FileTree) : Prop :=
  ∀ n ∈ (s.below cwd t).directoryNames, QuoteFree (Utf8.decodeLossy n)

instance (s : Settings) (cwd : Location) (t : FileTree) : Decidable (s.QuoteFreeBelow cwd t) :=
  inferInstanceAs (Decidable (∀ n ∈ (s.below cwd t).directoryNames, _))

variable {s : Settings} {cwd : Location} {t : FileTree}

theorem QuoteFreeBelow.of_shape {t' : FileTree} (h : s.QuoteFreeBelow cwd t)
    (hshape : t'.shape = t.shape) : s.QuoteFreeBelow cwd t' := by
  unfold QuoteFreeBelow at h ⊢
  rwa [← directoryNames_below_shape, hshape, directoryNames_below_shape]

theorem QuoteFreeBelow.directories (h : s.QuoteFreeBelow cwd t) :
    ∀ p ∈ s.scan cwd t, ∀ d ∈ (s.toAlias cwd).directories cwd p, QuoteFree d := by
  intro p hp d hd
  obtain ⟨n, hn, rfl⟩ := exists_of_mem_directories hp hd
  exact h n hn

theorem shape_treeAfter (s : Settings) (cwd : Location) (t : FileTree) (n : Nat) :
    (s.treeAfter cwd t n).shape = t.shape := by
  induction n with
  | zero => rfl
  | succ n ih => exact (s.shape_pass cwd _).trans ih

/-- One run lowers the number of relative specifiers by what it reports. -/
theorem relativeTotal_pass (hs : Specifier.Proper s.spelling) (hd : s.QuoteFreeBelow cwd t) :
    (s.pass cwd t).tree.relativeTotal + Alias.reported (s.pass cwd t).report.files =
      t.relativeTotal := by
  rw [tree_pass, files_pass]
  exact Alias.relativeTotal_editEach hs hd.directories t

theorem pass_eq_of_not_fixed (h : (s.pass cwd t).report.files.any Outcome.isFixed = false) :
    (s.pass cwd t).tree = t := by
  rw [files_pass] at h
  rw [tree_pass]
  exact Alias.editEach_eq_of_not_fixed h

/-- What is a candidate after a run was one before. -/
theorem isCandidate_of_pass (hs : Specifier.Proper s.spelling) (hd : s.QuoteFreeBelow cwd t)
    {p : Path} (h : s.isCandidate cwd (s.pass cwd t).tree p = true) :
    s.isCandidate cwd t p = true := by
  have hshape := s.shape_pass cwd t
  simp only [isCandidate, Bool.and_eq_true] at h ⊢
  obtain ⟨⟨hfile, hname⟩, himport⟩ := h
  refine ⟨⟨?_, hname⟩, ?_⟩
  · rwa [← FileTree.isFile_shape, ← hshape, FileTree.isFile_shape]
  · obtain ⟨loc, mode, bs', text', hloc, hfile', hmode, htext', hfound⟩ :=
      FileTree.hasRelativeImport_iff.1 himport
    rw [FileTree.locate_of_shape hshape] at hloc
    obtain ⟨bs, hfile⟩ := FileTree.exists_fileAt?_of_shape hshape hfile'
    have hle : (s.pass cwd t).tree.relativeAt loc ≤ t.relativeAt loc := by
      rw [tree_pass]
      exact Alias.relativeAt_editEach_le hs hd.directories t loc
    have hpos : 0 < relativeIn bs := by
      have hpos' := (Import.hasRelativeImport_iff text').1 hfound
      simp only [FileTree.relativeAt, hfile, hfile', Option.map_some, Option.getD_some,
        relativeIn_of_decode? htext'] at hle
      omega
    cases htext : Utf8.decode? bs with
    | none => simp [relativeIn, htext] at hpos
    | some text =>
      rw [relativeIn_of_decode? htext] at hpos
      exact FileTree.hasRelativeImport_iff.2
        ⟨loc, mode, bs, text, hloc, hfile, hmode, htext, (Import.hasRelativeImport_iff text).2 hpos⟩

/-- Without ignore files, what a scan finds after a run it found before, in the same order. -/
theorem scan_pass_sublist (hs : Specifier.Proper s.spelling) (hd : s.QuoteFreeBelow cwd t)
    (hi : s.ignoreFiles = false) :
    (s.scan cwd (s.pass cwd t).tree).Sublist (s.scan cwd t) := by
  have hwalk : s.walk cwd (s.pass cwd t).tree = s.walk cwd t := by
    rw [← walk_shape hi, shape_pass, walk_shape hi]
  have hscan : s.scan cwd (s.pass cwd t).tree =
      (s.scan cwd t).filter (s.isCandidate cwd (s.pass cwd t).tree) := by
    rw [scan, scan, hwalk, List.filter_filter]
    refine List.filter_congr fun p _ => ?_
    rw [Bool.eq_iff_iff, Bool.and_eq_true]
    exact ⟨fun h => ⟨h, isCandidate_of_pass hs hd h⟩, fun h => h.1⟩
  rw [hscan]
  exact List.filter_sublist

/-- The runs so far that changed something have used up a relative specifier each. -/
theorem countP_fixed_add_le (hs : Specifier.Proper s.spelling) (hd : s.QuoteFreeBelow cwd t)
    (n : Nat) :
    (List.range n).countP (fun i =>
        (s.pass cwd (s.treeAfter cwd t i)).report.files.any Outcome.isFixed) +
      (s.treeAfter cwd t n).relativeTotal ≤ t.relativeTotal := by
  induction n with
  | zero => simp [treeAfter]
  | succ n ih =>
    have hbalance := relativeTotal_pass hs (hd.of_shape (s.shape_treeAfter cwd t n))
    rw [List.range_succ, List.countP_append, treeAfter]
    by_cases hfixed : (s.pass cwd (s.treeAfter cwd t n)).report.files.any Outcome.isFixed = true
    · have hpos : 0 < Alias.reported (s.pass cwd (s.treeAfter cwd t n)).report.files := by
        rw [files_pass] at hfixed ⊢
        exact Alias.reported_pos_of_fixed hfixed
      simp only [List.countP_singleton, hfixed, if_true]
      omega
    · simp only [List.countP_singleton, hfixed, Bool.false_eq_true, if_false]
      omega

/-- A tree that a run does not change stays as it is. -/
theorem treeAfter_eq_of_le {n : Nat}
    (h : (s.pass cwd (s.treeAfter cwd t n)).tree = s.treeAfter cwd t n) {m : Nat} (hm : n ≤ m) :
    s.treeAfter cwd t m = s.treeAfter cwd t n := by
  obtain ⟨k, rfl⟩ := Nat.exists_eq_add_of_le hm
  clear hm
  induction k with
  | zero => rfl
  | succ k ih => rw [← Nat.add_assoc, treeAfter, ih, h]

/-- Among the first runs, one more than there are relative specifiers, one changes nothing. -/
theorem exists_not_fixed (hs : Specifier.Proper s.spelling) (hd : s.QuoteFreeBelow cwd t) :
    ∃ n ≤ t.relativeTotal,
      (s.pass cwd (s.treeAfter cwd t n)).report.files.any Outcome.isFixed = false := by
  let fixes := fun i => (s.pass cwd (s.treeAfter cwd t i)).report.files.any Outcome.isFixed
  have hcount : (List.range (t.relativeTotal + 1)).countP fixes +
      (s.treeAfter cwd t (t.relativeTotal + 1)).relativeTotal ≤ t.relativeTotal :=
    countP_fixed_add_le hs hd (t.relativeTotal + 1)
  cases hall : (List.range (t.relativeTotal + 1)).all fixes with
  | true =>
    have hlen := List.countP_eq_length.2 (List.all_eq_true.1 hall)
    rw [List.length_range] at hlen
    omega
  | false =>
    obtain ⟨n, hn, hfixes⟩ := List.all_eq_false.1 hall
    exact ⟨n, Nat.le_of_lt_succ (List.mem_range.1 hn), Bool.eq_false_iff.2 hfixes⟩

/-- **Runs converge.** With a proper spelling and no quotes in the names of directories:
each run lowers the number of relative specifiers by exactly what it reports; at most so
many runs as there are relative specifiers change a file, and one that changes none comes
within as many; after such a run the tree stays the same; and without ignore files each
scan finds a part of what the one before it found. -/
theorem passes_converge (s : Settings) (cwd : Location) (t : FileTree)
    (hs : Specifier.Proper s.spelling) (hd : s.QuoteFreeBelow cwd t) :
    let run := fun n => s.pass cwd (s.treeAfter cwd t n)
    let fixes := fun n => (run n).report.files.any Outcome.isFixed
    (∀ n, (run n).tree.relativeTotal + ((run n).report.files.map (·.replacements)).sum =
      (s.treeAfter cwd t n).relativeTotal) ∧
    (∀ n, (List.range n).countP fixes ≤ t.relativeTotal) ∧
    (∃ n ≤ t.relativeTotal, fixes n = false) ∧
    (∀ n, fixes n = false → ∀ m, n ≤ m → s.treeAfter cwd t m = s.treeAfter cwd t n) ∧
    (s.ignoreFiles = false → ∀ n,
      (s.scan cwd (s.treeAfter cwd t (n + 1))).Sublist (s.scan cwd (s.treeAfter cwd t n))) := by
  intro run fixes
  have hbelow : ∀ n, s.QuoteFreeBelow cwd (s.treeAfter cwd t n) := fun n =>
    hd.of_shape (s.shape_treeAfter cwd t n)
  refine ⟨fun n => ?_, fun n => ?_, exists_not_fixed hs hd, fun n hn m hm => ?_, fun hi n => ?_⟩
  · exact relativeTotal_pass hs (hbelow n)
  · exact Nat.le_of_add_right_le (countP_fixed_add_le hs hd n)
  · exact treeAfter_eq_of_le (pass_eq_of_not_fixed hn) hm
  · exact scan_pass_sublist hs (hbelow n) hi

/-- A tree with one file, in which an import is followed by a re-export. -/
def sampleTree : FileTree :=
  FileTree.empty.put (["src", "x", "y.ts"].map fun n => Utf8.encode n.toList)
    (.file (Utf8.encode "import a from '../a'\nexport * from '../b'\n".toList)) none

/-- In the sample tree two runs change something and no more. -/
theorem passes_converge_sampleTree :
    Specifier.Proper default.spelling ∧ default.QuoteFreeBelow [] sampleTree ∧
      (default.treeAfter [] sampleTree 1).relativeTotal = 1 ∧
      ∀ n, (List.range n).countP (fun i => (default.pass [] (default.treeAfter [] sampleTree i)
        ).report.files.any Outcome.isFixed) ≤ 2 := by
  have hs : Specifier.Proper default.spelling := Specifier.proper_default
  have hd : default.QuoteFreeBelow [] sampleTree := by decide +kernel
  have htotal : sampleTree.relativeTotal = 2 := by decide +kernel
  refine ⟨hs, hd, by decide +kernel, fun n => ?_⟩
  rw [← htotal]
  exact (passes_converge default [] sampleTree hs hd).2.1 n

end Settings

end ImportAlias
