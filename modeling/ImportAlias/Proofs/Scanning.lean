import ImportAlias.Proofs.Components
import ImportAlias.Proofs.Contents
import ImportAlias.Proofs.Walking
import ImportAlias.Scan.Candidate

/-!
# What a scan finds

Every file that a scan finds is spelled from the source root by names that the walk went
along, so the alias sees it in directories below the root. With no ignore files to read,
what the walk meets depends on the shape of the tree alone.
-/

namespace ImportAlias

theorem Listing.WellFormed.get? {l : Listing} (h : l.WellFormed) {loc : Location} {node : Node}
    (hget : l.get? loc = some node) : node.WellFormed := by
  induction l generalizing loc with
  | done => cases loc <;> cases hget
  | leaf n what rest ih =>
    cases loc with
    | nil => cases hget
    | cons k ks =>
      rw [Listing.get?] at hget
      split at hget
      · split at hget
        · cases hget
          trivial
        · cases hget
      · exact ih h.2.2 hget
  | dir n mode inside rest ih₁ ih₂ =>
    cases loc with
    | nil => cases hget
    | cons k ks =>
      rw [Listing.get?] at hget
      split at hget
      · split at hget
        · cases hget
          exact h.2.1
        · exact ih₁ h.2.1 hget
      · exact ih₂ h.2.2.2 hget

theorem FileTree.wellFormed_get? {t : FileTree} {loc : Location} {node : Node}
    (h : t.get? loc = some node) : node.WellFormed := by
  unfold get? at h
  split at h
  · cases h
    exact t.wellFormed
  · exact t.wellFormed.get? h

/-- A relative import is found where a path leads to a readable text with one. -/
theorem FileTree.hasRelativeImport_iff {t : FileTree} {cwd : Location} {p : Path} :
    t.hasRelativeImport cwd p ↔ ∃ loc mode bs text, t.locate cwd p = .ok loc ∧
      t.fileAt? loc = some (mode, bs) ∧ mode.read ∧ Utf8.decode? bs = some text ∧
      Import.hasRelativeImport text := by
  unfold hasRelativeImport
  constructor
  · intro h
    split at h
    · next text hread =>
      obtain ⟨loc, mode, bs, hloc, hfile, hmode, htext⟩ := readText_eq_ok_iff.1 hread
      exact ⟨loc, mode, bs, text, hloc, hfile, hmode, htext, h⟩
    · cases h
  · rintro ⟨loc, mode, bs, text, hloc, hfile, hmode, htext, h⟩
    rw [readText_eq_ok_iff.2 ⟨loc, mode, bs, hloc, hfile, hmode, htext⟩]
    exact h

theorem Listing.directoryNames_shape (l : Listing) :
    l.shape.directoryNames = l.directoryNames := by
  induction l with
  | done => rfl
  | leaf n what rest ih => exact ih
  | dir n mode inside rest ih₁ ih₂ => rw [shape, directoryNames, directoryNames, ih₁, ih₂]

namespace Settings

/-- What the source root holds, if it is a directory. -/
def below (s : Settings) (cwd : Location) (t : FileTree) : Listing :=
  match t.locate cwd (s.absoluteRoot cwd) with
  | .error _ => .done
  | .ok loc =>
    match t.get? loc with
    | some (.dir _ inside) => inside
    | _ => .done

theorem wellFormed_below (s : Settings) (cwd : Location) (t : FileTree) :
    (s.below cwd t).WellFormed := by
  unfold below
  split
  · trivial
  · split
    · next mode inside hget => exact FileTree.wellFormed_get? hget
    · trivial

/-- A path that leads somewhere has an absolute form. -/
theorem isAbsolute_absoluteRoot {s : Settings} {cwd : Location} {t : FileTree} {loc : Location}
    (h : t.locate cwd (s.absoluteRoot cwd) = .ok loc) : (s.absoluteRoot cwd).isAbsolute := by
  refine Path.isAbsolute_absolute fun hempty => ?_
  have hroot : s.absoluteRoot cwd = s.root := by rw [absoluteRoot, Path.absolute, if_pos hempty]
  rw [hroot, FileTree.locate, hempty] at h
  simp at h

/-- What the walk gives, in terms of the source root. -/
theorem mem_walk {s : Settings} {cwd : Location} {t : FileTree} {names : List Name}
    (h : names ∈ s.walk cwd t) :
    (s.absoluteRoot cwd).isAbsolute ∧ (s.below cwd t).Met names := by
  unfold walk at h
  cases hloc : t.locate cwd (s.absoluteRoot cwd) with
  | error e => simp [hloc] at h
  | ok loc =>
    refine ⟨isAbsolute_absoluteRoot hloc, ?_⟩
    have hbelow := s.wellFormed_below cwd t
    unfold below at hbelow ⊢
    simp only [hloc] at h hbelow ⊢
    split at h
    · next mode inside hget =>
      split at h
      · simp only [hget] at hbelow ⊢
        obtain ⟨tail, rfl, hm⟩ := Listing.met_of_mem_walk hbelow h
        exact hm
      · cases h
    · cases h

/-- A file that a scan finds is spelled by names that the walk went along. -/
theorem mem_scan {s : Settings} {cwd : Location} {t : FileTree} {p : Path}
    (h : p ∈ s.scan cwd t) :
    ∃ names ∈ s.walk cwd t, p = (s.absoluteRoot cwd).descend names ∧ s.isCandidate cwd t p := by
  obtain ⟨hmem, hcand⟩ := List.mem_filter.1 h
  obtain ⟨names, hnames, rfl⟩ := List.mem_map.1 hmem
  exact ⟨names, hnames, rfl, hcand⟩

/-- The alias sees a file that a scan finds in directories below the source root. -/
theorem exists_of_mem_directories {s : Settings} {cwd : Location} {t : FileTree} {p : Path}
    (h : p ∈ s.scan cwd t) {d : Text} (hd : d ∈ (s.toAlias cwd).directories cwd p) :
    ∃ n ∈ (s.below cwd t).directoryNames, d = Utf8.decodeLossy n := by
  obtain ⟨names, hnames, rfl, -⟩ := mem_scan h
  obtain ⟨habs, hm⟩ := mem_walk hnames
  have hdirs : (s.toAlias cwd).directories cwd ((s.absoluteRoot cwd).descend names) =
      names.dropLast.map Utf8.decodeLossy :=
    Alias.directories_descend (a := s.toAlias cwd) cwd habs hm.valid
  rw [hdirs] at hd
  obtain ⟨n, hn, rfl⟩ := List.mem_map.1 hd
  exact ⟨n, hm.directories n hn, rfl⟩

/-! ### What depends on the shape -/

theorem directoryNames_below_shape (s : Settings) (cwd : Location) (t : FileTree) :
    (s.below cwd t.shape).directoryNames = (s.below cwd t).directoryNames := by
  unfold below
  rw [FileTree.locate_shape]
  cases t.locate cwd (s.absoluteRoot cwd) with
  | error e => rfl
  | ok loc =>
    simp only [FileTree.get?_shape]
    match t.get? loc with
    | none => rfl
    | some (.leaf what) => rfl
    | some (.dir mode inside) => exact inside.directoryNames_shape

/-- With no ignore files to read, the walk meets the same names in the shape. -/
theorem walk_shape {s : Settings} (hs : s.ignoreFiles = false) (cwd : Location) (t : FileTree) :
    s.walk cwd t.shape = s.walk cwd t := by
  have hskips : ∀ (t' : FileTree) (root : Location), s.skips cwd t' root =
      fun names _ => excludesName s.patterns (names.getLast?.getD []) := by
    intro t' root
    funext names isDirectory
    rw [skips, hs, Bool.false_and, Bool.or_false]
  unfold walk
  rw [FileTree.locate_shape]
  cases t.locate cwd (s.absoluteRoot cwd) with
  | error e => rfl
  | ok loc =>
    simp only [FileTree.get?_shape, hskips]
    match t.get? loc with
    | none => rfl
    | some (.leaf what) => rfl
    | some (.dir mode inside) => simp only [Option.map_some, Node.shape, Listing.walk_shape]

end Settings

end ImportAlias
