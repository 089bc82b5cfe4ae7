import ImportAlias.Proofs.FlatScan
import Mathlib.Data.List.Basic

/-!
# Filters of the walk

What a scan is told to leave out can only take files away from it, and what it is told to look
for can only add some; the order of the others stays. What is left out is left out with
everything below it: no rule for an entry further down, be it in the same ignore file or in one
further down, brings anything back.

## The model

`Listing.walk_sublist` compares two walks through one tree of which one leaves out more. All
that is said about single filters follows from it by comparing what they leave out. For what
lies below an entry the walk is asked which places it passed on its way (`Settings.Approach`).
-/

namespace ImportAlias

/-- A walk that leaves out more meets less, in the same order. -/
theorem Listing.walk_sublist {skip skip' : List Name → Bool → Bool}
    (h : ∀ names b, skip names b = true → skip' names b = true) (l : Listing) (enter : Bool)
    (here : List Name) : (l.walk skip' enter here).Sublist (l.walk skip enter here) := by
  induction l generalizing enter here with
  | done => exact List.Sublist.refl _
  | leaf n what rest ih =>
    rw [walk, walk]
    refine List.Sublist.append ?_ (ih enter here)
    by_cases hskip' : skip' (here ++ [n]) false = true
    · rw [if_pos hskip']
      exact List.nil_sublist _
    · rw [if_neg hskip', if_neg fun hskip => hskip' (h _ _ hskip)]
  | dir n mode inside rest ih₁ ih₂ =>
    rw [walk, walk]
    refine List.Sublist.append ?_ (ih₂ enter here)
    by_cases hskip' : (skip' (here ++ [n]) true || !enter || !mode.read) = true
    · rw [if_pos hskip']
      exact List.nil_sublist _
    · have hskip : ¬ (skip (here ++ [n]) true || !enter || !mode.read) = true := by
        simp only [Bool.or_eq_true, not_or] at hskip' ⊢
        exact ⟨⟨fun hskip => hskip'.1.1 (h _ _ hskip), hskip'.1.2⟩, hskip'.2⟩
      rw [if_neg hskip', if_neg hskip]
      exact ih₁ mode.enter (here ++ [n])

/-- More patterns exclude more names. -/
theorem excludesName_append {patterns : List Text} {n : Name} (h : excludesName patterns n = true)
    (more : List Text) : excludesName (patterns ++ more) n = true := by
  simp only [excludesName, Bool.or_eq_true, List.any_append] at h ⊢
  exact h.imp_right .inl

/-- Whether there is a directory at a location. -/
def FileTree.isDirectoryAt (t : FileTree) (loc : Location) : Bool :=
  match t.get? loc with
  | some (.dir _ _) => true
  | _ => false

namespace Settings

variable {s s' : Settings} {cwd : Location} {t : FileTree}

/-! ### Leaving out more -/

/-- From the same root, a walk that leaves out more meets less. -/
theorem walk_sublist (hroot : s'.root = s.root)
    (hskips : ∀ root names b, s.skips cwd t root names b = true →
      s'.skips cwd t root names b = true) :
    (s'.walk cwd t).Sublist (s.walk cwd t) := by
  have habs : s'.absoluteRoot cwd = s.absoluteRoot cwd := by rw [absoluteRoot, absoluteRoot, hroot]
  unfold walk
  rw [habs]
  split
  · exact List.Sublist.refl _
  · split
    · split
      · exact Listing.walk_sublist (hskips _) _ _ _
      · exact List.Sublist.refl _
    · exact List.Sublist.refl _

/-- From the same root, a scan that leaves out more and looks for less finds less, in the same
order. -/
theorem scan_sublist (hroot : s'.root = s.root)
    (hskips : ∀ root names b, s.skips cwd t root names b = true →
      s'.skips cwd t root names b = true)
    (hext : ∀ ext ∈ s'.extensions, ext ∈ s.extensions) :
    (s'.scan cwd t).Sublist (s.scan cwd t) := by
  have habs : s'.absoluteRoot cwd = s.absoluteRoot cwd := by rw [absoluteRoot, absoluteRoot, hroot]
  have hcandidate : ∀ p, s'.isCandidate cwd t p = true → s.isCandidate cwd t p = true := by
    intro p hp
    rw [isCandidate_iff] at hp ⊢
    obtain ⟨⟨n, name, hn, hname, ext, hmem, hends⟩, hfile⟩ := hp
    exact ⟨⟨n, name, hn, hname, ext, hext ext hmem, hends⟩, hfile⟩
  unfold scan
  rw [habs]
  exact (((walk_sublist hroot hskips).map _).filter _).trans
    (List.monotone_filter_right _ hcandidate)

/-! ### Below what is left out -/

/-- Whether an entry below the root is to be left out: by its name, or, where ignore files
decide, by what they say of it or because it is hidden and they say nothing. -/
def Excludes (s : Settings) (cwd : Location) (t : FileTree) (root : Location)
    (entry : List Name) : Prop :=
  (∃ n, entry.getLast? = some n ∧ ¬ s.Keeps n) ∨
    s.ignoreFiles = true ∧
      t.isIgnored cwd (root ++ entry) (t.isDirectoryAt (root ++ entry)) = true

theorem Excludes.skips {root : Location} {entry : List Name}
    (h : s.Excludes cwd t root entry) :
    s.skips cwd t root entry (t.isDirectoryAt (root ++ entry)) = true := by
  rw [Settings.skips, Bool.or_eq_true, Bool.and_eq_true]
  refine h.imp_left ?_
  rintro ⟨n, hlast, hkeeps⟩
  rw [hlast, Option.getD_some]
  exact (Bool.eq_false_or_eq_true _).resolve_right fun hn =>
    hkeeps ((excludesName_eq_false_iff n).1 hn)

/-- On the way to what a scan finds, the entries before the last one are directories and the
last one is none. -/
theorem Approach.isDirectoryAt_take {root : Location} {names : List Name}
    (h : s.Approach cwd t root names) (i : Nat) :
    t.isDirectoryAt (root ++ names.take i) = decide (i < names.length) := by
  by_cases hlt : i < names.length
  · obtain ⟨mode, inside, hget, -⟩ := h.way i hlt
    simp [FileTree.isDirectoryAt, hget, hlt]
  · rw [List.take_of_length_le (Nat.le_of_not_lt hlt)]
    rcases h.finish with ⟨target, hget⟩ | ⟨⟨mode, bs, hget⟩, -⟩ <;>
      simp [FileTree.isDirectoryAt, hget, hlt]

/-- The walk comes to nothing at or below an entry that is to be left out. -/
theorem Approach.not_isPrefix {root : Location} {names entry : List Name}
    (h : s.Approach cwd t root names) (hne : entry ≠ []) (hentry : s.Excludes cwd t root entry) :
    ¬ entry <+: names := by
  intro hbelow
  have htake : names.take entry.length = entry := (List.prefix_iff_eq_take.1 hbelow).symm
  have hlength := hbelow.length_le
  have hpos := List.length_pos_iff.2 hne
  have hpassed := h.passes (entry.length - 1) (by omega)
  rw [Nat.sub_add_cancel hpos, ← h.isDirectoryAt_take, htake, List.nil_append,
    hentry.skips] at hpassed
  cases hpassed

/-- No path of a scan starts with the components of an entry that is to be left out. -/
theorem not_isPrefix_of_mem_scan {root : Location} {entry : List Name} {p : Path}
    (hroot : t.locate cwd (s.absoluteRoot cwd) = .ok root) (hne : entry ≠ [])
    (hentry : s.Excludes cwd t root entry) (hp : p ∈ s.scan cwd t) :
    ¬ (s.absoluteRoot cwd).components ++ entry.map .normal <+: p.components := by
  obtain ⟨root', names, rfl, happroach⟩ := Approach.of_mem_scan hp
  have hsame : root' = root := by
    have hstart := happroach.start
    rw [hroot] at hstart
    cases hstart
    rfl
  subst hsame
  rw [(Path.descend_spec (isAbsolute_absoluteRoot hroot) happroach.valid).2,
    List.prefix_append_right_inj, List.prefix_map_iff_of_injective fun _ _ => Component.normal.inj]
  exact happroach.not_isPrefix hne hentry

/-! ### All filters -/

/-- **Filters only take away.** Honouring ignore files, or leaving out more patterns, gives a
part of what a scan finds without it, in the same order; looking for more extensions, in any
form, gives a scan that what was found before is a part of. And if an entry below the root is to
be left out, no path of the scan leads to it or to anything below it. -/
theorem scan_narrows (s : Settings) (cwd : Location) (t : FileTree) :
    ({ s with ignoreFiles := true }.scan cwd t).Sublist (s.scan cwd t) ∧
    (∀ more, ({ s with patterns := s.patterns ++ more }.scan cwd t).Sublist (s.scan cwd t)) ∧
    (∀ more, (s.scan cwd t).Sublist ({ s with extensions := s.extensions ++ more }.scan cwd t)) ∧
    (∀ given more, ((s.withExtensions given).scan cwd t).Sublist
      ((s.withExtensions (given ++ more)).scan cwd t)) ∧
    (∀ root entry, t.locate cwd (s.absoluteRoot cwd) = .ok root → entry ≠ [] →
      s.Excludes cwd t root entry → ∀ p ∈ s.scan cwd t,
        ¬ (s.absoluteRoot cwd).components ++ entry.map .normal <+: p.components) := by
  refine ⟨?_, fun more => ?_, fun more => ?_, fun given more => ?_,
    fun root entry hroot hne hentry p hp => not_isPrefix_of_mem_scan hroot hne hentry hp⟩
  · refine scan_sublist rfl (fun root names b hskips => ?_) fun ext hext => hext
    simp only [skips, Bool.or_eq_true, Bool.and_eq_true] at hskips ⊢
    exact hskips.imp_right fun h => ⟨trivial, h.2⟩
  · refine scan_sublist rfl (fun root names b hskips => ?_) fun ext hext => hext
    simp only [skips, Bool.or_eq_true] at hskips ⊢
    exact hskips.imp_left fun h => excludesName_append h more
  · exact scan_sublist rfl (fun _ _ _ hskips => hskips) fun ext => List.mem_append_left more
  · refine scan_sublist rfl (fun _ _ _ hskips => hskips) fun ext hext => ?_
    simp only [withExtensions, List.filterMap_append] at hext ⊢
    exact List.mem_append_left _ hext

/-- A tree with a directory that an ignore file leaves out. The same file and another one inside
the directory ask to keep what is below it. -/
def vendoredTree : FileTree :=
  let text := FileTree.Item.file (Utf8.encode "import a from '../a'".toList)
  let place := fun names : List String => names.map fun n => Utf8.encode n.toList
  let rules := fun t : String => FileTree.Item.file (Utf8.encode t.toList)
  let t := FileTree.empty.put (place ["src", "app.ts"]) text none
  let t := t.put (place ["src", "vendor", "kept.ts"]) text none
  let t := t.put (place ["src", ".gitignore"]) (rules "vendor/\n!vendor/kept.ts\n") none
  t.put (place ["src", "vendor", ".ignore"]) (rules "!*.ts\n") none

/-- In this tree the rules keep a file, but not the directory it lies in, and no scan that
honours ignore files finds it. -/
theorem scan_narrows_vendoredTree :
    let s := { default with ignoreFiles := true }
    let place := fun names : List String => names.map fun n => Utf8.encode n.toList
    vendoredTree.ignoreVerdict? [] (place ["src", "vendor", "kept.ts"]) false = some .keep ∧
    s.Excludes [] vendoredTree (place ["src"]) (place ["vendor"]) ∧
    (s.scan [] vendoredTree).Sublist (default.scan [] vendoredTree) ∧
    (default.scan [] vendoredTree).map (fun p => String.ofList p.display) =
      ["/src/app.ts", "/src/vendor/kept.ts"] ∧
    ∀ p ∈ s.scan [] vendoredTree,
      ¬ (s.absoluteRoot []).components ++ (place ["vendor"]).map .normal <+: p.components := by
  intro s place
  have hexcluded : s.Excludes [] vendoredTree (place ["src"]) (place ["vendor"]) :=
    .inr ⟨rfl, by decide +kernel⟩
  refine ⟨by decide +kernel, hexcluded, (scan_narrows default [] vendoredTree).1,
    by decide +kernel, ?_⟩
  exact (scan_narrows s [] vendoredTree).2.2.2.2 (place ["src"]) (place ["vendor"])
    (by decide +kernel) (by decide) hexcluded

end Settings

end ImportAlias
