import ImportAlias.Proofs.Editing
import ImportAlias.Proofs.FlatScan

/-!
# Files behind links

A walk does not go through links to directories, but it meets links to files, and whatever
reads or writes a path follows them. So several paths of one scan may lead to the same file,
which may lie anywhere, and each of them edits it as if the file lay where the path is spelled.

## The model

`waysTo` lists the paths of a scan that lead to a location, and `editAlong` is what they make of
a text one after the other; a run leaves exactly that in the file. `ConfinedAt` says what is to
be expected of a run: a file that it changes lies below the source root, and its specifiers are
named from there as seen from its own directory. This holds of every file that no link of the
scan leads to.
-/

namespace ImportAlias

namespace FileTree

/-- Whether a path leads to a location. -/
def leadsTo (t : FileTree) (cwd loc : Location) (p : Path) : Bool :=
  (t.locate cwd p).toOption = some loc

theorem leadsTo_iff {t : FileTree} {cwd loc : Location} {p : Path} :
    t.leadsTo cwd loc p = true ↔ t.locate cwd p = .ok loc := by
  unfold leadsTo
  cases t.locate cwd p <;> simp [Except.toOption]

theorem leadsTo_of_shape {t t' : FileTree} (h : t'.shape = t.shape) (cwd loc : Location) :
    t'.leadsTo cwd loc = t.leadsTo cwd loc := by
  funext p
  rw [leadsTo, leadsTo, locate_of_shape h]

end FileTree

/-! ### Several paths to one file -/

namespace Alias

variable {a : Alias} {cwd loc : Location} {t : FileTree} {mode : Mode} {text : Text}

/-- What is made of a text that is edited as the text of several files, one after the other. -/
def editAlong (a : Alias) (cwd : Location) (ps : List Path) (text : Text) : Text :=
  ps.foldl (fun text p => (a.edit cwd p text).text) text

/-- **The step for one file**, seen from a location with a text: the text is edited if the path
leads there and the file may be written. -/
theorem fileAt?_process (hfile : t.fileAt? loc = some (mode, Utf8.encode text))
    (hread : mode.read = true) (p : Path) :
    (a.process cwd t p).2.fileAt? loc =
      some (mode, Utf8.encode
        (if t.leadsTo cwd loc p ∧ mode.write then (a.edit cwd p text).text else text)) := by
  by_cases hleads : t.leadsTo cwd loc p = true
  · have hloc := FileTree.leadsTo_iff.1 hleads
    rw [process_of_file hloc hfile hread (Utf8.decode?_encode text)]
    by_cases hchanged : (a.edit cwd p text).changed = true
    · by_cases hwrite : mode.write = true
      · simp only [hchanged, hwrite, hleads, and_self, if_true, FileTree.fileAt?_setContent, hfile]
        rfl
      · simp only [hchanged, hwrite, if_true, Bool.false_eq_true, if_false, and_false, hfile]
    · -- an edit that changes nothing gives the text back
      have hsame : (a.edit cwd p text).text = text := by
        rw [changed_edit, decide_eq_true_eq] at hchanged
        exact Classical.not_not.1 hchanged
      simp only [hchanged, Bool.false_eq_true, if_false, hsame, ite_self, hfile]
  · have hne : t.locate cwd p ≠ .ok loc := fun hloc => hleads (FileTree.leadsTo_iff.2 hloc)
    rw [fileAt?_process_of_ne hne, hfile, if_neg fun h => hleads h.1]

/-- **A run over several files**, seen from a location with a text: if the file may be written,
the text is edited along all paths that lead there. -/
theorem fileAt?_editEach_eq (hfile : t.fileAt? loc = some (mode, Utf8.encode text))
    (hread : mode.read = true) (ps : List Path) :
    (a.editEach cwd t ps).2.fileAt? loc =
      some (mode, Utf8.encode
        (if mode.write then a.editAlong cwd (ps.filter (t.leadsTo cwd loc)) text else text)) := by
  induction ps generalizing t text with
  | nil =>
    rw [List.filter_nil, editAlong, List.foldl_nil, ite_self]
    exact hfile
  | cons p ps ih =>
    have hstep : (a.process cwd t p).2.fileAt? loc = some (mode, _) :=
      fileAt?_process hfile hread p
    have hrest := ih hstep
    rw [FileTree.leadsTo_of_shape (a.shape_process cwd t p)] at hrest
    rw [editEach, hrest]
    by_cases hwrite : mode.write = true
    · by_cases hleads : t.leadsTo cwd loc p = true
      · simp only [hwrite, hleads, and_self, if_true, List.filter_cons_of_pos]
        rfl
      · simp only [hwrite, hleads, false_and, Bool.false_eq_true, if_true, if_false,
          not_false_eq_true, List.filter_cons_of_neg]
    · simp only [hwrite, Bool.false_eq_true, and_false, if_false]

end Alias

/-! ### The paths of a scan -/

namespace Settings

variable {s : Settings} {cwd loc : Location} {t : FileTree}

/-- The paths of a scan that lead to a location, in order. -/
def waysTo (s : Settings) (cwd : Location) (t : FileTree) (loc : Location) : List Path :=
  (s.scan cwd t).filter (t.leadsTo cwd loc)

theorem mem_waysTo {p : Path} :
    p ∈ s.waysTo cwd t loc ↔ p ∈ s.scan cwd t ∧ t.locate cwd p = .ok loc := by
  rw [waysTo, List.mem_filter, FileTree.leadsTo_iff]

/-- Whether the walk came to a path at a link. -/
def EndsInLink (s : Settings) (cwd : Location) (t : FileTree) (p : Path) : Prop :=
  ∃ root names target, p = (s.absoluteRoot cwd).descend names ∧ s.Approach cwd t root names ∧
    t.get? (root ++ names) = some (.leaf (.link target))

/-- What is to be expected of a run at a location. If the file there is changed, real directories
lead to it from the source root, and the new text is the old one with its relative specifiers
named from the root as seen from these directories. -/
def ConfinedAt (s : Settings) (cwd : Location) (t : FileTree) (loc : Location) : Prop :=
  (s.pass cwd t).tree.fileAt? loc ≠ t.fileAt? loc →
    ∃ root names mode text,
      t.locate cwd (s.absoluteRoot cwd) = .ok root ∧ names ≠ [] ∧ loc = root ++ names ∧
      (∀ i < names.length, ∃ mode inside,
        t.get? (root ++ names.take i) = some (.dir mode inside)) ∧
      t.fileAt? loc = some (mode, Utf8.encode text) ∧
      (s.pass cwd t).tree.fileAt? loc = some (mode, Utf8.encode ((Import.segment text).mapSpecs
        (Specifier.resolve (names.dropLast.map Utf8.decodeLossy) s.spelling)))

/-- A path that leads to a location is spelled by the names that lead there, or ends in a link. -/
theorem approach_of_mem_waysTo {p : Path} (h : p ∈ s.waysTo cwd t loc) :
    ∃ root names, p = (s.absoluteRoot cwd).descend names ∧ s.Approach cwd t root names ∧
      (loc = root ++ names ∨ s.EndsInLink cwd t p) := by
  obtain ⟨hscan, hloc⟩ := mem_waysTo.1 h
  obtain ⟨root, names, rfl, happroach⟩ := Approach.of_mem_scan hscan
  refine ⟨root, names, rfl, happroach, ?_⟩
  rcases happroach.finish with ⟨target, hlink⟩ | ⟨-, hplace⟩
  · exact .inr ⟨root, names, target, rfl, happroach, hlink⟩
  · rw [hloc] at hplace
    cases hplace
    exact .inl rfl

/-- Where no path ends in a link, at most one path leads to a location. -/
theorem waysTo_eq_singleton (hlinks : ∀ p ∈ s.waysTo cwd t loc, ¬ s.EndsInLink cwd t p) {p : Path}
    (hp : p ∈ s.waysTo cwd t loc) : s.waysTo cwd t loc = [p] := by
  have hsame : ∀ q ∈ s.waysTo cwd t loc, q = p := by
    intro q hq
    obtain ⟨root, names, rfl, happroach, hplace⟩ := approach_of_mem_waysTo hp
    obtain ⟨root', names', rfl, happroach', hplace'⟩ := approach_of_mem_waysTo hq
    have hroot : root' = root := Except.ok.inj (happroach'.start.symm.trans happroach.start)
    have hnames : root' ++ names' = root ++ names :=
      (hplace'.resolve_right (hlinks _ hq)).symm.trans (hplace.resolve_right (hlinks _ hp))
    rw [hroot] at hnames
    rw [List.append_cancel_left hnames]
  have hnodup : (s.waysTo cwd t loc).Nodup := (s.nodup_scan cwd t).filter _
  have hrepeat := List.eq_replicate_of_mem hsame
  have hlength : (s.waysTo cwd t loc).length = 1 := by
    have hpos := List.length_pos_of_mem hp
    have hone : (s.waysTo cwd t loc).length ≤ 1 := by
      rwa [hrepeat, List.nodup_replicate] at hnodup
    omega
  rw [hrepeat, hlength]
  rfl

/-! ### What a run leaves in a file -/

/-- A run leaves a file as it was if no path leads to it. Otherwise the file holds a text, and if
it may be written the run edits that text along all paths that lead there. -/
theorem fileAt?_pass (s : Settings) (cwd : Location) (t : FileTree) (loc : Location) :
    (s.waysTo cwd t loc = [] → (s.pass cwd t).tree.fileAt? loc = t.fileAt? loc) ∧
    (s.waysTo cwd t loc ≠ [] → ∃ mode text, t.fileAt? loc = some (mode, Utf8.encode text) ∧
      (s.pass cwd t).tree.fileAt? loc = some (mode, Utf8.encode
        (if mode.write then (s.toAlias cwd).editAlong cwd (s.waysTo cwd t loc) text
          else text))) := by
  rw [tree_pass]
  constructor
  · intro hnone
    refine Alias.fileAt?_editEach_of_ne fun p hp hloc => ?_
    have hmem : p ∈ s.waysTo cwd t loc := mem_waysTo.2 ⟨hp, hloc⟩
    rw [hnone] at hmem
    cases hmem
  · intro hsome
    obtain ⟨p, hp⟩ := List.exists_mem_of_ne_nil _ hsome
    obtain ⟨hscan, hloc⟩ := mem_waysTo.1 hp
    obtain ⟨-, -, -, hcand⟩ := mem_scan hscan
    obtain ⟨-, loc', mode, bs, text, hloc', hfile, hread, htext, -⟩ := isCandidate_iff.1 hcand
    rw [hloc] at hloc'
    cases hloc'
    rw [Utf8.decode?_eq_some_iff] at htext
    rw [htext] at hfile
    exact ⟨mode, text, hfile, Alias.fileAt?_editEach_eq hfile hread _⟩

/-- A run is confined at every location that no link of its scan leads to. -/
theorem confinedAt_of_no_link (hlinks : ∀ p ∈ s.waysTo cwd t loc, ¬ s.EndsInLink cwd t p) :
    s.ConfinedAt cwd t loc := by
  intro hchanged
  obtain ⟨hnone, hsome⟩ := s.fileAt?_pass cwd t loc
  have hne : s.waysTo cwd t loc ≠ [] := fun hempty => hchanged (hnone hempty)
  obtain ⟨p, hp⟩ := List.exists_mem_of_ne_nil _ hne
  obtain ⟨mode, text, hfile, hfinal⟩ := hsome hne
  obtain ⟨root, names, rfl, happroach, hplace⟩ := approach_of_mem_waysTo hp
  refine ⟨root, names, mode, text, happroach.start, happroach.nonempty,
    hplace.resolve_right (hlinks _ hp), fun i hi => ?_, hfile, ?_⟩
  · obtain ⟨mode', inside, hget, -⟩ := happroach.way i hi
    exact ⟨mode', inside, hget⟩
  · have hwrite : mode.write = true := by
      refine Classical.not_not.1 fun hwrite => hchanged ?_
      rw [hfinal, if_neg hwrite, hfile]
    have hdirs : (s.toAlias cwd).directories cwd ((s.absoluteRoot cwd).descend names) =
        names.dropLast.map Utf8.decodeLossy :=
      Alias.directories_descend (a := s.toAlias cwd) cwd
        (isAbsolute_absoluteRoot happroach.start) happroach.valid
    rw [hfinal, if_pos hwrite, waysTo_eq_singleton hlinks hp, ← hdirs]
    rfl

/-- **A run reaches through links to files.** A file that no path of the scan leads to stays as
it was. Any other file holds a text, and if it may be written this is edited along all paths
that lead there, one after the other; each of them is spelled by the names that lead to the file
or ends in a link. Where none ends in a link, the run is confined. -/
theorem pass_through_links (s : Settings) (cwd : Location) (t : FileTree) (loc : Location) :
    let final := (s.pass cwd t).tree
    let ways := s.waysTo cwd t loc
    (ways = [] → final.fileAt? loc = t.fileAt? loc) ∧
    (ways ≠ [] → ∃ mode text, t.fileAt? loc = some (mode, Utf8.encode text) ∧
      final.fileAt? loc = some (mode, Utf8.encode
        (if mode.write then (s.toAlias cwd).editAlong cwd ways text else text))) ∧
    (∀ p ∈ ways, ∃ root names, p = (s.absoluteRoot cwd).descend names ∧
      s.Approach cwd t root names ∧ (loc = root ++ names ∨ s.EndsInLink cwd t p)) ∧
    ((∀ p ∈ ways, ¬ s.EndsInLink cwd t p) → s.ConfinedAt cwd t loc) := by
  intro final ways
  obtain ⟨hnone, hsome⟩ := s.fileAt?_pass cwd t loc
  exact ⟨hnone, hsome, fun p hp => approach_of_mem_waysTo hp, confinedAt_of_no_link⟩

/-! ### A tree with links to files -/

/-- A path does not end in a link if its names lead to something else. -/
theorem not_endsInLink {root : Location} {names : List Name}
    (hroot : t.locate cwd (s.absoluteRoot cwd) = .ok root) (hvalid : ∀ n ∈ names, n.Valid)
    {mode : Mode} {bs : Bytes} (hfile : t.fileAt? (root ++ names) = some (mode, bs)) :
    ¬ s.EndsInLink cwd t ((s.absoluteRoot cwd).descend names) := by
  rintro ⟨root', names', target, hspelled, happroach, hlink⟩
  have hstart : root' = root := Except.ok.inj (happroach.start.symm.trans hroot)
  have hnames : names = names' :=
    Path.descend_injective (isAbsolute_absoluteRoot hroot) hvalid happroach.valid hspelled
  rw [hstart, ← hnames, FileTree.fileAt?_eq_some_iff.1 hfile] at hlink
  cases hlink

/-- A tree with a link to a file outside the source root, and a link to a file that lies deeper
below the root than the link does. -/
def linkedTree : FileTree :=
  let place := fun names : List String => names.map fun n => Utf8.encode n.toList
  let text := fun t : String => FileTree.Item.file (Utf8.encode t.toList)
  let link := fun target : String => FileTree.Item.link (.ofText target.toList)
  let t := FileTree.empty
  let t := t.put (place ["src", "x", "y", "b.ts"]) (text "import c from '../c';\n") none
  let t := t.put (place ["src", "x", "f.ts"]) (text "import g from '../g';\n") none
  let t := t.put (place ["out", "e.ts"]) (text "import e from '../e';\n") none
  let t := t.put (place ["src", "a.ts"]) (link "x/y/b.ts") none
  t.put (place ["src", "l.ts"]) (link "../out/e.ts") none

/-- The file that no link leads to is edited as it should be. -/
theorem pass_through_links_linkedTree :
    let place := fun names : List String => names.map fun n => Utf8.encode n.toList
    let loc := place ["src", "x", "f.ts"]
    (∀ p ∈ default.waysTo [] linkedTree loc, ¬ default.EndsInLink [] linkedTree p) ∧
    (default.pass [] linkedTree).tree.fileAt? loc =
      some (.all, Utf8.encode "import g from '@/g';\n".toList) ∧
    default.ConfinedAt [] linkedTree loc := by
  intro place loc
  have hroot : linkedTree.locate [] (default.absoluteRoot []) = .ok (place ["src"]) :=
    FileTree.leadsTo_iff.1 (by decide +kernel)
  have hfile : linkedTree.fileAt? (place ["src"] ++ place ["x", "f.ts"]) =
      some (.all, Utf8.encode "import g from '../g';\n".toList) := by decide +kernel
  have hways : default.waysTo [] linkedTree loc =
      [(default.absoluteRoot []).descend (place ["x", "f.ts"])] := by decide +kernel
  have hlinks : ∀ p ∈ default.waysTo [] linkedTree loc,
      ¬ default.EndsInLink [] linkedTree p := by
    rw [hways]
    intro p hp
    rw [List.mem_singleton.1 hp]
    exact not_endsInLink hroot (by decide +kernel) hfile
  exact ⟨hlinks, by decide +kernel, (pass_through_links default [] linkedTree loc).2.2.2 hlinks⟩

/-- The run also edits the file outside the root, and it edits the deeper file as if it lay
where the link is. -/
theorem not_confinedAt_linkedTree :
    let place := fun names : List String => names.map fun n => Utf8.encode n.toList
    let final := (default.pass [] linkedTree).tree
    let outside := place ["out", "e.ts"]
    let deeper := place ["src", "x", "y", "b.ts"]
    linkedTree.isDirectory [] default.root = true ∧
    final.fileAt? outside = some (.all, Utf8.encode "import e from '@/e';\n".toList) ∧
    final.fileAt? deeper = some (.all, Utf8.encode "import c from '@/c';\n".toList) ∧
    ¬ default.ConfinedAt [] linkedTree outside ∧ ¬ default.ConfinedAt [] linkedTree deeper := by
  intro place final outside deeper
  have hroot : linkedTree.locate [] (default.absoluteRoot []) = .ok (place ["src"]) :=
    FileTree.leadsTo_iff.1 (by decide +kernel)
  obtain ⟨houtside, hdeeper⟩ :
      final.fileAt? outside = some (.all, Utf8.encode "import e from '@/e';\n".toList) ∧
      final.fileAt? deeper = some (.all, Utf8.encode "import c from '@/c';\n".toList) := by
    decide +kernel
  have hbefore : linkedTree.fileAt? deeper =
      some (.all, Utf8.encode "import c from '../c';\n".toList) := by decide +kernel
  refine ⟨by decide +kernel, houtside, hdeeper, fun h => ?_, fun h => ?_⟩
  · have hchanged : final.fileAt? outside ≠ linkedTree.fileAt? outside := by
      rw [houtside]
      decide +kernel
    obtain ⟨root, names, -, -, hstart, -, hloc, -⟩ := h hchanged
    rw [← Except.ok.inj (hroot.symm.trans hstart)] at hloc
    exact absurd (List.cons.inj hloc).1 (by decide +kernel)
  · have hchanged : final.fileAt? deeper ≠ linkedTree.fileAt? deeper := by
      rw [hdeeper, hbefore]
      decide +kernel
    obtain ⟨root, names, mode, text, hstart, -, hloc, -, hfile, hfinal⟩ := h hchanged
    rw [← Except.ok.inj (hroot.symm.trans hstart)] at hloc
    have hnames : names = place ["x", "y", "b.ts"] := (List.cons.inj hloc).2.symm
    have htext : text = "import c from '../c';\n".toList :=
      Utf8.encode_injective (congrArg Prod.snd (Option.some.inj (hfile.symm.trans hbefore)))
    rw [hnames, htext] at hfinal
    have hsame := Utf8.encode_injective
      (congrArg Prod.snd (Option.some.inj (hfinal.symm.trans hdeeper)))
    exact absurd hsame (by decide +kernel)

end Settings

end ImportAlias
