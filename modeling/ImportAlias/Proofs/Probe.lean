import ImportAlias.Editing
import ImportAlias.Proofs.Editing
import ImportAlias.Proofs.FlatScan
import ImportAlias.Proofs.Rereading

/-!
# The probe

A scan does not look for import statements in a file. It only asks whether a relative
specifier starts anywhere in the text, which is less to look for. The answer may be yes where
nothing is to be changed, but it is never no where something is: an edit takes clauses, and
every clause starts with what the probe looks for. So a scan leaves out no file that an edit
would change.
-/

namespace ImportAlias

namespace Import

/-- The probe finds `from`, white space, a quote and `../` wherever they stand. -/
theorem hasRelativeImport_iff_exists {t : Text} :
    hasRelativeImport t = true ↔
      ∃ u gap q v, t = u ++ (fromWord ++ gap ++ q :: (Specifier.parentStep ++ v)) ∧ Opens gap q := by
  induction t with
  | nil => simp [hasRelativeImport, fromWord]
  | cons c t ih =>
    rw [hasRelativeImport, Bool.or_eq_true, opensRelative_iff, ih]
    constructor
    · rintro (⟨gap, q, v, ht, ho⟩ | ⟨u, gap, q, v, rfl, ho⟩)
      · exact ⟨[], gap, q, v, ht, ho⟩
      · exact ⟨c :: u, gap, q, v, rfl, ho⟩
    · rintro ⟨u, gap, q, v, ht, ho⟩
      cases u with
      | nil => exact .inl ⟨gap, q, v, ht, ho⟩
      | cons d u => exact .inr ⟨u, gap, q, v, (List.cons.inj ht).2, ho⟩

/-- Where the probe finds nothing, a reading has nothing to replace. -/
theorem Reads.specsOf_eq_nil {live : Bool} {t : Text} {ms : List Mark} (h : Reads live t ms)
    (ht : hasRelativeImport t = false) : specsOf ms = [] := by
  induction h with
  | done => rfl
  | keep _ _ ih =>
    rw [hasRelativeImport, Bool.or_eq_false_iff] at ht
    exact ih ht.2
  | @clause t rest c ms here _ _ =>
    obtain ⟨rfl, hv⟩ := Clause.read?_eq_some_iff.1 here
    obtain ⟨v, hspec⟩ := hv.relative
    have hfound : hasRelativeImport (c.text ++ rest) = true :=
      hasRelativeImport_iff_exists.2 ⟨[], c.gap, c.openQuote, v ++ c.closeQuote :: rest,
        by simp [Clause.text, Clause.head, hspec], hv.opens⟩
    rw [hfound] at ht
    cases ht

end Import

namespace Alias

open Import

/-- Where the probe finds nothing, an edit does nothing, whatever the alias. -/
theorem edit_of_not_hasRelativeImport (a : Alias) (cwd : Location) (p : Path) {t : Text}
    (h : hasRelativeImport t = false) : a.edit cwd p t = ⟨t, 0, false⟩ := by
  have hr := reads_segment t
  have hspecs := hr.specsOf_eq_nil h
  rw [edit_of_reads hr, hspecs, hr.eq_plain_of_specsOf hspecs]
  simp

/-- A tree is changed only by an edit of a text that was read. -/
theorem exists_text_of_editFile {a : Alias} {cwd : Location} {tree : FileTree} {p : Path}
    (h : (a.editFile cwd tree p).2 ≠ tree) :
    ∃ text, tree.readText cwd p = .ok text ∧ (a.edit cwd p text).changed = true := by
  unfold editFile at h
  split at h
  · exact absurd rfl h
  · next text hread =>
    refine ⟨text, hread, ?_⟩
    by_cases hc : (a.edit cwd p text).changed = true
    · exact hc
    · simp [hc] at h

end Alias

namespace Settings

/-- The walk comes to a file along `names`, and the extension of the last one counts. -/
structure ComesTo (s : Settings) (cwd : Location) (tree : FileTree) (names : List Name) : Prop where
  walked : names ∈ s.walk cwd tree
  extension : ∃ n name, names.getLast? = some n ∧ Utf8.decode? n = some name ∧
    ∃ ext ∈ s.extensions, ext <:+ name

/-- What the walk comes to is found by the scan if it is a text with a relative specifier. -/
theorem ComesTo.mem_scan {s : Settings} {cwd : Location} {tree : FileTree} {names : List Name}
    (h : s.ComesTo cwd tree names) {text : Text}
    (hread : tree.readText cwd ((s.absoluteRoot cwd).descend names) = .ok text)
    (hrel : Import.hasRelativeImport text = true) :
    (s.absoluteRoot cwd).descend names ∈ s.scan cwd tree := by
  obtain ⟨habs, hm⟩ := mem_walk h.walked
  obtain ⟨n, name, hlast, hname, hext⟩ := h.extension
  obtain ⟨loc, mode, bs, hloc, hfile, hmode, htext⟩ := FileTree.readText_eq_ok_iff.1 hread
  refine List.mem_filter.2 ⟨List.mem_map.2 ⟨names, h.walked, rfl⟩, isCandidate_iff.2 ⟨?_, ?_⟩⟩
  · exact ⟨n, name, (fileName?_descend habs hm.valid hm.nonempty).trans hlast, hname, hext⟩
  · exact ⟨loc, mode, bs, text, hloc, hfile, hmode, htext, hrel⟩

/-- **The probe hides nothing.** It finds exactly what it looks for. Where it finds nothing, an
edit leaves the text as it is, whatever the alias and the directories are. So a file that the
walk comes to, with an extension that counts and a text that can be read, is found by the scan
if an edit would change its text, and in particular if the edit of the file changes the tree. -/
theorem probe_hides_nothing (t : Text) (s : Settings) (a : Alias) (cwd : Location)
    (tree : FileTree) :
    (Import.hasRelativeImport t = true ↔ ∃ u gap q v,
      t = u ++ (Import.fromWord ++ gap ++ q :: (Specifier.parentStep ++ v)) ∧ Import.Opens gap q) ∧
    (Import.hasRelativeImport t = false → ∀ p, a.edit cwd p t = ⟨t, 0, false⟩) ∧
    ∀ names, s.ComesTo cwd tree names →
      let p := (s.absoluteRoot cwd).descend names
      (∀ text, tree.readText cwd p = .ok text → (a.edit cwd p text).changed = true →
        p ∈ s.scan cwd tree) ∧
      ((a.editFile cwd tree p).2 ≠ tree → p ∈ s.scan cwd tree) := by
  refine ⟨Import.hasRelativeImport_iff_exists,
    fun h p => a.edit_of_not_hasRelativeImport cwd p h, ?_⟩
  intro names hnames p
  have hfound : ∀ text, tree.readText cwd p = .ok text → (a.edit cwd p text).changed = true →
      p ∈ s.scan cwd tree := by
    intro text hread hchanged
    refine hnames.mem_scan hread ?_
    cases hrel : Import.hasRelativeImport text with
    | true => rfl
    | false =>
      rw [a.edit_of_not_hasRelativeImport cwd p hrel] at hchanged
      cases hchanged
  refine ⟨hfound, fun hne => ?_⟩
  obtain ⟨text, hread, hchanged⟩ := Alias.exists_text_of_editFile hne
  exact hfound text hread hchanged

/-- An alias with a quote in it changes a file that a scan of the tangled tree finds, and leaves
a text alone in which every `from` misses something. -/
theorem probe_hides_nothing_tangledTree :
    let a : Alias := ⟨.ofText "/src".toList, "it's/".toList⟩
    let t := "import fromfrom from'../a' from from '.. /a' from '".toList
    let names := ["a", "x.ts"].map fun n => Utf8.encode n.toList
    let p := (tangledSettings.absoluteRoot []).descend names
    Import.hasRelativeImport t = false ∧ a.edit [] p t = ⟨t, 0, false⟩ ∧
      tangledSettings.ComesTo [] tangledTree names ∧
      tangledTree.readText [] p = .ok "import a from '../a'".toList ∧
      a.edit [] p "import a from '../a'".toList = ⟨"import a from 'it's/a'".toList, 1, true⟩ ∧
      p ∈ tangledSettings.scan [] tangledTree := by
  intro a t names p
  have ht : Import.hasRelativeImport t = false := by decide +kernel
  have hnames : tangledSettings.ComesTo [] tangledTree names :=
    ⟨by decide +kernel, Utf8.encode "x.ts".toList, "x.ts".toList, by decide +kernel,
      by decide +kernel, ".ts".toList, by decide +kernel, ⟨['x'], by decide +kernel⟩⟩
  have hread : tangledTree.readText [] p = .ok "import a from '../a'".toList := rfl
  have hedit : a.edit [] p "import a from '../a'".toList =
      ⟨"import a from 'it's/a'".toList, 1, true⟩ := by decide +kernel
  obtain ⟨-, hnone, hscan⟩ := probe_hides_nothing t tangledSettings a [] tangledTree
  exact ⟨ht, hnone ht p, hnames, hread, hedit,
    (hscan names hnames).1 _ hread (congrArg Edit.changed hedit)⟩

end Settings

end ImportAlias
