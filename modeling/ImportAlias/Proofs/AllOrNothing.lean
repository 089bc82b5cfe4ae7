import ImportAlias.Proofs.Editing
import ImportAlias.Proofs.Sequence

/-!
# All or nothing

Editing one file does everything that there is to do, or it leaves the tree exactly as it was.
What decides is the file that the path leads to. Where there is no text to read, the edit fails
in reading. Where there is one, the edit fails in writing if the text would change and may not,
and otherwise it succeeds; then the file holds the new text, and nothing else is different.

## The model

`HasText` says what a path leads to, `SameBut` in what two trees may differ. Neither of them
mentions how a file is read or written.
-/

namespace ImportAlias

namespace FileTree

/-- A path leads to a location with a file that may be read and holds a text. -/
structure HasText (t : FileTree) (cwd : Location) (p : Path) (loc : Location) (mode : Mode)
    (text : Text) : Prop where
  leads : t.locate cwd p = .ok loc
  file : t.fileAt? loc = some (mode, Utf8.encode text)
  readable : mode.read = true

/-- Two trees that differ at most in the content of the file at a location. -/
structure SameBut (loc : Location) (t t' : FileTree) : Prop where
  shape : t'.shape = t.shape
  file : ∀ other ≠ loc, t'.fileAt? other = t.fileAt? other

variable {t : FileTree} {cwd : Location} {p : Path} {loc : Location} {mode : Mode} {text : Text}

/-- The text that is read is the text that the path leads to. -/
theorem readText_eq_ok_iff_hasText :
    t.readText cwd p = .ok text ↔ ∃ loc mode, t.HasText cwd p loc mode text := by
  rw [readText_eq_ok_iff]
  constructor
  · rintro ⟨loc, mode, bs, hloc, hfile, hread, htext⟩
    rw [Utf8.decode?_eq_some_iff] at htext
    exact ⟨loc, mode, hloc, htext ▸ hfile, hread⟩
  · rintro ⟨loc, mode, hloc, hfile, hread⟩
    exact ⟨loc, mode, _, hloc, hfile, hread, Utf8.decode?_encode text⟩

theorem sameBut_setContent (t : FileTree) (loc : Location) (bs : Bytes) :
    SameBut loc t (t.setContent loc bs) :=
  ⟨t.shape_setContent loc bs, fun other hne => by rw [fileAt?_setContent, if_neg hne]⟩

/-- After a write the path leads to the new text, at the same place and with the same mode. -/
theorem HasText.setContent (h : t.HasText cwd p loc mode text) (text' : Text) :
    (t.setContent loc (Utf8.encode text')).HasText cwd p loc mode text' where
  leads := (locate_of_shape (t.shape_setContent loc _) cwd p).trans h.leads
  file := by rw [fileAt?_setContent, if_pos rfl, h.file, Option.map_some]
  readable := h.readable

end FileTree

namespace Alias

open FileTree (HasText SameBut)

variable {a : Alias} {cwd : Location} {t : FileTree} {p : Path}

/-- Where there is no text, the edit fails in reading. -/
theorem editFile_of_no_text (h : ¬ ∃ loc mode text, t.HasText cwd p loc mode text) :
    ∃ f, a.editFile cwd t p = (.error ⟨.read, p, f⟩, t) := by
  cases hread : t.readText cwd p with
  | error f => exact ⟨f, by simp only [editFile, hread]⟩
  | ok text =>
    obtain ⟨loc, mode, htext⟩ := FileTree.readText_eq_ok_iff_hasText.1 hread
    exact absurd ⟨loc, mode, text, htext⟩ h

section

variable {loc : Location} {mode : Mode} {text : Text}

/-- Where there is a text, it is written if it changes and may be written. -/
theorem editFile_of_hasText (h : t.HasText cwd p loc mode text) :
    a.editFile cwd t p =
      let e := a.edit cwd p text
      if e.changed then
        if mode.write then (.ok e, t.setContent loc (Utf8.encode e.text))
        else (.error ⟨.write, p, .system .denied⟩, t)
      else (.ok e, t) := by
  have hread : t.readText cwd p = .ok text :=
    FileTree.readText_eq_ok_iff_hasText.2 ⟨loc, mode, h⟩
  simp only [editFile, hread, FileTree.writeText_eq h.leads h.file]
  by_cases hwrite : mode.write = true
  · simp only [hwrite, if_true]
  · simp only [hwrite, Bool.false_eq_true, if_false]

theorem editFile_unchanged (h : t.HasText cwd p loc mode text)
    (hchanged : (a.edit cwd p text).changed = false) :
    a.editFile cwd t p = (.ok (a.edit cwd p text), t) := by
  simp [editFile_of_hasText h, hchanged]

theorem editFile_refused (h : t.HasText cwd p loc mode text)
    (hchanged : (a.edit cwd p text).changed = true) (hwrite : mode.write = false) :
    a.editFile cwd t p = (.error ⟨.write, p, .system .denied⟩, t) := by
  simp [editFile_of_hasText h, hchanged, hwrite]

theorem editFile_written (h : t.HasText cwd p loc mode text)
    (hchanged : (a.edit cwd p text).changed = true) (hwrite : mode.write = true) :
    a.editFile cwd t p =
      (.ok (a.edit cwd p text), t.setContent loc (Utf8.encode (a.edit cwd p text).text)) := by
  simp [editFile_of_hasText h, hchanged, hwrite]

end

/-- **What editing a file can do**: it fails in one of two ways and nothing happens, it finds
nothing to change, or it writes the new text. -/
theorem editFile_cases (a : Alias) (cwd : Location) (t : FileTree) (p : Path) :
    (∃ f, a.editFile cwd t p = (.error ⟨.read, p, f⟩, t)) ∨
    ∃ loc mode text, t.HasText cwd p loc mode text ∧
      (a.editFile cwd t p = (.error ⟨.write, p, .system .denied⟩, t) ∨
        a.editFile cwd t p = (.ok (a.edit cwd p text), t) ∨
        (a.edit cwd p text).changed = true ∧ a.editFile cwd t p =
          (.ok (a.edit cwd p text), t.setContent loc (Utf8.encode (a.edit cwd p text).text))) := by
  by_cases hsome : ∃ loc mode text, t.HasText cwd p loc mode text
  · obtain ⟨loc, mode, text, htext⟩ := hsome
    refine .inr ⟨loc, mode, text, htext, ?_⟩
    cases hchanged : (a.edit cwd p text).changed with
    | false => exact .inr (.inl (editFile_unchanged htext hchanged))
    | true =>
      cases hwrite : mode.write with
      | false => exact .inl (editFile_refused htext hchanged hwrite)
      | true => exact .inr (.inr ⟨rfl, editFile_written htext hchanged hwrite⟩)
  · exact .inl (editFile_of_no_text hsome)

/-- A failed edit names the path that it was given and leaves the tree as it was. -/
theorem editFile_failed {err : FileError} (h : (a.editFile cwd t p).1 = .error err) :
    err.path = p ∧ (a.editFile cwd t p).2 = t := by
  rcases a.editFile_cases cwd t p with
    ⟨f, hedit⟩ | ⟨loc, mode, text, -, hedit | hedit | ⟨-, hedit⟩⟩ <;> rw [hedit] at h ⊢ <;> cases h
  · exact ⟨rfl, rfl⟩
  · exact ⟨rfl, rfl⟩

/-- An edit that finds nothing to change leaves the tree as it was. -/
theorem editFile_idle {e : Edit} (h : (a.editFile cwd t p).1 = .ok e)
    (hchanged : e.changed = false) : (a.editFile cwd t p).2 = t := by
  rcases a.editFile_cases cwd t p with
    ⟨f, hedit⟩ | ⟨loc, mode, text, -, hedit | hedit | ⟨hyes, hedit⟩⟩ <;> rw [hedit] at h ⊢
  -- only the last case writes, and there the text changes
  cases h
  rw [hyes] at hchanged
  cases hchanged

/-- Reading fails where there is no text, and only there. -/
theorem editFile_read_error_iff :
    (∃ f, (a.editFile cwd t p).1 = .error ⟨.read, p, f⟩) ↔
      ¬ ∃ loc mode text, t.HasText cwd p loc mode text := by
  constructor
  · rintro ⟨f, h⟩ ⟨loc, mode, text, htext⟩
    rw [editFile_of_hasText htext] at h
    dsimp only at h
    split at h
    · split at h <;> cases h
    · cases h
  · intro hnone
    obtain ⟨f, hedit⟩ := editFile_of_no_text (a := a) hnone
    exact ⟨f, by rw [hedit]⟩

/-- Writing fails where the text changes and may not be written, and only there. -/
theorem editFile_write_error_iff {loc : Location} {mode : Mode} {text : Text}
    (h : t.HasText cwd p loc mode text) :
    (∃ f, (a.editFile cwd t p).1 = .error ⟨.write, p, f⟩) ↔
      (a.edit cwd p text).changed = true ∧ mode.write = false := by
  constructor
  · rintro ⟨f, hfailed⟩
    rw [editFile_of_hasText h] at hfailed
    dsimp only at hfailed
    split at hfailed
    · next hchanged =>
      split at hfailed
      · cases hfailed
      · next hwrite => exact ⟨hchanged, Bool.eq_false_iff.2 hwrite⟩
    · cases hfailed
  · rintro ⟨hchanged, hwrite⟩
    exact ⟨.system .denied, by rw [editFile_refused h hchanged hwrite]⟩

/-- **Editing a file is all or nothing.** It fails in reading if and only if the path leads to no
text. Where it leads to one, an edit that does not change the text succeeds whether or not the
file may be written; the edit fails in writing if and only if the text changes and may not be
written; and if it changes and may be, the path leads to the new text afterwards and no other
file is different. A failure names the path that was given, and the tree stays exactly as it was
in every failure and whenever there was nothing to change. -/
theorem editFile_all_or_nothing (a : Alias) (cwd : Location) (t : FileTree) (p : Path) :
    let r := a.editFile cwd t p
    ((∃ f, r.1 = .error ⟨.read, p, f⟩) ↔ ¬ ∃ loc mode text, t.HasText cwd p loc mode text) ∧
    (∀ loc mode text, t.HasText cwd p loc mode text →
      let e := a.edit cwd p text
      (e.changed = false → r.1 = .ok e) ∧
      ((∃ f, r.1 = .error ⟨.write, p, f⟩) ↔ e.changed = true ∧ mode.write = false) ∧
      (e.changed = true → mode.write = true →
        r.1 = .ok e ∧ e.text ≠ text ∧ r.2.HasText cwd p loc mode e.text ∧ SameBut loc t r.2)) ∧
    (∀ err, r.1 = .error err → err.path = p ∧ r.2 = t) ∧
    (∀ e, r.1 = .ok e → e.changed = false → r.2 = t) := by
  intro r
  refine ⟨editFile_read_error_iff, fun loc mode text htext => ⟨fun hchanged => ?_,
    editFile_write_error_iff htext, fun hchanged hwrite => ?_⟩, fun err => editFile_failed,
    fun e => editFile_idle⟩
  · show (a.editFile cwd t p).1 = _
    rw [editFile_unchanged htext hchanged]
  · have hedit : r = _ := editFile_written htext hchanged hwrite
    have hdiffers : (a.edit cwd p text).text ≠ text := by
      rwa [changed_edit, decide_eq_true_eq] at hchanged
    rw [hedit]
    exact ⟨rfl, hdiffers, htext.setContent _, t.sameBut_setContent loc _⟩

/-- A tree with a file that needs a change, one that needs it too but may not be written, one
that may not be written and needs no change, and a link to the first one. -/
def guardedTree : FileTree :=
  let place := fun names : List String => names.map fun n => Utf8.encode n.toList
  let text := fun t : String => FileTree.Item.file (Utf8.encode t.toList)
  let t := FileTree.empty
  let t := t.put (place ["src", "x", "a.ts"]) (text "import a from '../a'") none
  let readOnly : Mode := ⟨true, false, false⟩
  let t := t.put (place ["src", "x", "b.ts"]) (text "import b from '../b'") (some readOnly)
  let t := t.put (place ["src", "x", "c.ts"]) (text "from '../c'") (some readOnly)
  t.put (place ["src", "l.ts"]) (.link (.ofText "x/a.ts".toList)) none

/-- The first file is written through the link, the second one is refused, the third one needs
no permission, and a directory holds no text. -/
theorem editFile_guardedTree :
    let place := fun names : List String => names.map fun n => Utf8.encode n.toList
    let path := fun p : String => Path.ofText p.toList
    let edit := fun p => (Settings.default.toAlias []).editFile [] guardedTree (path p)
    let readOnly : Mode := ⟨true, false, false⟩
    (guardedTree.HasText [] (path "/src/l.ts") (place ["src", "x", "a.ts"]) .all
        "import a from '../a'".toList ∧
      (edit "/src/l.ts").2.HasText [] (path "/src/l.ts") (place ["src", "x", "a.ts"]) .all
        "import a from '@/a'".toList ∧
      SameBut (place ["src", "x", "a.ts"]) guardedTree (edit "/src/l.ts").2) ∧
    (guardedTree.HasText [] (path "/src/x/b.ts") (place ["src", "x", "b.ts"]) readOnly
        "import b from '../b'".toList ∧
      ∃ f, (edit "/src/x/b.ts").1 = .error ⟨.write, path "/src/x/b.ts", f⟩) ∧
    (guardedTree.HasText [] (path "/src/x/c.ts") (place ["src", "x", "c.ts"]) readOnly
        "from '../c'".toList ∧
      (edit "/src/x/c.ts").1 = .ok ⟨"from '../c'".toList, 0, false⟩) ∧
    (edit "/src/x").1 = .error ⟨.read, path "/src/x", .system .isDirectory⟩ ∧
    (edit "/src/x").2 = guardedTree := by
  intro place path edit readOnly
  have first : guardedTree.HasText [] (path "/src/l.ts") (place ["src", "x", "a.ts"]) .all
      "import a from '../a'".toList := ⟨rfl, by decide +kernel, rfl⟩
  have second : guardedTree.HasText [] (path "/src/x/b.ts") (place ["src", "x", "b.ts"]) readOnly
      "import b from '../b'".toList := ⟨rfl, by decide +kernel, rfl⟩
  have third : guardedTree.HasText [] (path "/src/x/c.ts") (place ["src", "x", "c.ts"]) readOnly
      "from '../c'".toList := ⟨rfl, by decide +kernel, rfl⟩
  have hdirectory : (edit "/src/x").1 = .error ⟨.read, path "/src/x", .system .isDirectory⟩ := rfl
  have hall := fun p =>
    editFile_all_or_nothing (Settings.default.toAlias []) [] guardedTree (path p)
  obtain ⟨-, -, hwritten, hsame⟩ :=
    ((hall "/src/l.ts").2.1 _ _ _ first).2.2 (by decide +kernel) rfl
  have hnew : ((Settings.default.toAlias []).edit [] (path "/src/l.ts")
      "import a from '../a'".toList).text = "import a from '@/a'".toList := by decide +kernel
  rw [hnew] at hwritten
  have hrefused := ((hall "/src/x/b.ts").2.1 _ _ _ second).2.1.2 ⟨by decide +kernel, rfl⟩
  have hidle := ((hall "/src/x/c.ts").2.1 _ _ _ third).1 (by decide +kernel)
  have hedit : (Settings.default.toAlias []).edit [] (path "/src/x/c.ts") "from '../c'".toList =
      ⟨"from '../c'".toList, 0, false⟩ := by decide +kernel
  rw [hedit] at hidle
  exact ⟨⟨first, hwritten, hsame⟩, ⟨second, hrefused⟩, ⟨third, hidle⟩, hdirectory,
    ((hall "/src/x").2.2.1 _ hdirectory).2⟩

end Alias

end ImportAlias
