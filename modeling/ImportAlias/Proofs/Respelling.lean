import ImportAlias.Proofs.AllOrNothing
import ImportAlias.Proofs.Bookkeeping

/-!
# Replacements and changes

An edit counts the specifiers that it spells in another way, and it says whether the whole text
has become another one. Each of the two follows from the other: replacements that make a text
longer and shorter never add up to the text that was there before.

What rules this out are the quotes. A specifier has none, so every quote in its alias form is one
more in the text. If the text stays what it was, no alias form has a quote; then it ends at the
quote where the specifier ended, and it is the specifier. Nothing is asked of the alias or of the
names of the directories for this.

So a file is written, and reported as changed, if and only if it may be written and an alias form
of one of its specifiers differs from that specifier (`Alias.Due`).
-/

namespace ImportAlias

/-! ### Quotes -/

namespace Import

/-- New specifiers bring their quotes into a text, and the old ones take none away. -/
theorem Reads.countP_isQuote_fill {live : Bool} {t : Text} {ms : List Mark} (h : Reads live t ms)
    (f : Text → Text) :
    (fill f ms).countP isQuote =
      t.countP isQuote + ((specsOf ms).map fun s => (f s).countP isQuote).sum := by
  induction h with
  | done => rfl
  | @keep live c t ms _ _ ih =>
    rw [fill, specsOf, List.countP_cons, List.countP_cons, ih]
    omega
  | @clause t rest c ms here _ ih =>
    obtain ⟨rfl, hv⟩ := Clause.read?_eq_some_iff.1 here
    have hspec : c.spec.countP isQuote = 0 :=
      List.countP_eq_zero.2 fun x hx => Bool.eq_false_iff.1 (hv.quoteFree x hx)
    rw [fill_append, Clause.fill_marks, specsOf_append, Clause.specsOf_marks, Clause.text]
    simp only [List.countP_append, List.singleton_append, List.map_cons, List.sum_cons, ih, hspec]
    omega

/-- **Replacements do not cancel each other**: if the new text is the old one, then each specifier
was replaced by itself. -/
theorem Reads.eq_of_fill_eq_self {f : Text → Text} {live : Bool} {t : Text} {ms : List Mark}
    (h : Reads live t ms) (he : fill f ms = t) : ∀ s ∈ specsOf ms, f s = s := by
  -- the same text has as many quotes, and the new specifiers would bring theirs
  have hsum : ((specsOf ms).map fun s => (f s).countP isQuote).sum = 0 := by
    have hcount := h.countP_isQuote_fill f
    rw [he] at hcount
    exact Nat.left_eq_add.1 hcount
  rw [List.sum_eq_zero_iff_forall_eq_nat] at hsum
  refine h.eq_of_fill_eq (fun s hs x hx => ?_) he
  have hfree := hsum _ (List.mem_map_of_mem hs)
  exact Bool.eq_false_iff.2 (List.countP_eq_zero.1 hfree x hx)

end Import

/-! ### Texts -/

namespace Alias

open FileTree (HasText)

/-- The alias form of some specifier of a text differs from it. -/
def Respells (a : Alias) (cwd : Location) (p : Path) (t : Text) : Prop :=
  ∃ s ∈ (Import.segment t).specs, a.resolve cwd p s ≠ s

instance (a : Alias) (cwd : Location) (p : Path) (t : Text) : Decidable (a.Respells cwd p t) :=
  inferInstanceAs (Decidable (∃ s ∈ (Import.segment t).specs, a.resolve cwd p s ≠ s))

variable {a : Alias} {cwd : Location} {p : Path}

theorem replacements_edit_pos_iff (t : Text) :
    0 < (a.edit cwd p t).replacements ↔ a.Respells cwd p t := by
  refine List.countP_pos_iff.trans ?_
  simp only [decide_eq_true_eq]
  rfl

/-- A text changes if and only if one of its specifiers does. -/
theorem changed_iff_respells (t : Text) :
    (a.edit cwd p t).changed = true ↔ a.Respells cwd p t := by
  rw [← replacements_edit_pos_iff]
  refine ⟨replacements_pos_of_changed, fun hpos => ?_⟩
  obtain ⟨s, hs, hne⟩ := (replacements_edit_pos_iff t).1 hpos
  rw [Import.Segmented.specs_eq_specsOf] at hs
  have hr := Import.reads_segment t
  rw [edit_of_reads hr]
  exact decide_eq_true fun he => hne (hr.eq_of_fill_eq_self he s hs)

/-! ### Files -/

/-- A path leads to a file that may be written and in which a specifier is to be respelled. -/
def Due (a : Alias) (cwd : Location) (t : FileTree) (p : Path) : Prop :=
  ∃ loc mode text, t.HasText cwd p loc mode text ∧ mode.write = true ∧ a.Respells cwd p text

variable {t : FileTree}

/-- What becomes of a file with a text. -/
theorem process_of_hasText {loc : Location} {mode : Mode} {text : Text}
    (h : t.HasText cwd p loc mode text) :
    a.process cwd t p =
      if a.Respells cwd p text then
        if mode.write then
          (⟨p, p.displayFrom a.displayBase, .fixed, (a.edit cwd p text).replacements⟩,
            t.setContent loc (Utf8.encode (a.edit cwd p text).text))
        else (⟨p, p.displayFrom a.displayBase, .failed SystemError.denied.message, 0⟩, t)
      else (⟨p, p.displayFrom a.displayBase, .unchanged, 0⟩, t) := by
  rw [process_of_file h.leads h.file h.readable (Utf8.decode?_encode text)]
  simp only [changed_iff_respells]

/-- A file is reported as changed if and only if it is due. -/
theorem status_process_eq_fixed_iff :
    (a.process cwd t p).1.status = .fixed ↔ a.Due cwd t p := by
  constructor
  · intro hfixed
    by_cases hsome : ∃ loc mode text, t.HasText cwd p loc mode text
    · obtain ⟨loc, mode, text, htext⟩ := hsome
      rw [process_of_hasText htext] at hfixed
      split at hfixed
      · next hrespells =>
        split at hfixed
        · next hwrite => exact ⟨loc, mode, text, htext, hwrite, hrespells⟩
        · cases hfixed
      · cases hfixed
    · obtain ⟨f, hedit⟩ := editFile_of_no_text (a := a) hsome
      rw [process, hedit] at hfixed
      cases hfixed
  · rintro ⟨loc, mode, text, htext, hwrite, hrespells⟩
    rw [process_of_hasText htext, if_pos hrespells, if_pos hwrite]

/-- A file is written if and only if it is due. -/
theorem tree_process_ne_iff : (a.process cwd t p).2 ≠ t ↔ a.Due cwd t p := by
  constructor
  · intro hne
    rw [← status_process_eq_fixed_iff]
    apply Decidable.byContradiction
    intro hfixed
    exact hne (process_eq_of_not_fixed (decide_eq_false hfixed))
  · rintro ⟨loc, mode, text, htext, hwrite, hrespells⟩ hsame
    rw [process_of_hasText htext, if_pos hrespells, if_pos hwrite] at hsame
    dsimp only at hsame
    have hnew := (htext.setContent (a.edit cwd p text).text).file
    rw [hsame, htext.file, Option.some.injEq, Prod.mk.injEq] at hnew
    have hchanged := (changed_iff_respells text).2 hrespells
    rw [changed_edit, decide_eq_true_eq] at hchanged
    exact hchanged (Utf8.encode_injective hnew.2).symm

/-- **The count and the flag agree.** For every alias, working directory and path:
* an edit changes a text if and only if it counts a replacement, that is, if and only if the alias
  form of some specifier differs from it;
* a file is reported as changed, has replacements in its outcome, and is written if and only if
  it may be written and one of its specifiers is respelled; where one is and the file may not be
  written, it fails in writing; and it is reported as unchanged if and only if none is;
* in a run over several files, this is so of each of them at its turn. -/
theorem replacements_tell_change {σ : Type} (a : Alias) (cwd : Location) (p : Path)
    (observe : σ → Outcome → σ) (seen : σ) :
    (∀ text, let e := a.edit cwd p text
      (e.changed = true ↔ 0 < e.replacements) ∧ (0 < e.replacements ↔ a.Respells cwd p text)) ∧
    (∀ t, let r := a.process cwd t p
      (r.1.status = .fixed ↔ a.Due cwd t p) ∧ (0 < r.1.replacements ↔ a.Due cwd t p) ∧
      (r.2 ≠ t ↔ a.Due cwd t p) ∧
      ∀ loc mode text, t.HasText cwd p loc mode text →
        ((∃ f, (a.editFile cwd t p).1 = .error ⟨.write, p, f⟩) ↔
          a.Respells cwd p text ∧ mode.write = false) ∧
        (r.1.status = .unchanged ↔ ¬ a.Respells cwd p text)) ∧
    ∀ t before after, let run := a.editAll cwd observe seen t
      ∃ o, (run (before ++ p :: after)).report.files[before.length]? = some o ∧ o.path = p ∧
        (o.status = .fixed ↔ a.Due cwd (run before).tree p) := by
  refine ⟨fun text => ?_, fun t => ?_, fun t before after => ?_⟩
  · exact ⟨(changed_iff_respells text).trans (replacements_edit_pos_iff text).symm,
      replacements_edit_pos_iff text⟩
  · refine ⟨status_process_eq_fixed_iff,
      (a.replacements_pos_iff cwd t p).trans status_process_eq_fixed_iff, tree_process_ne_iff,
      fun loc mode text htext => ⟨?_, ?_⟩⟩
    · rw [editFile_write_error_iff htext, changed_iff_respells]
    · rw [process_of_hasText htext]
      by_cases hrespells : a.Respells cwd p text
      · by_cases hwrite : mode.write = true <;> simp [hrespells, hwrite]
      · simp [hrespells]
  · have hturn := a.getElem?_editEach cwd t before p after
    rw [← files_editAll a cwd observe seen t, ← tree_editAll a cwd observe seen t before] at hturn
    exact ⟨_, hturn, a.path_process cwd _ p, status_process_eq_fixed_iff⟩

/-- With the alias `../`, the first specifier of the file is its own alias form and the second one
is not. The file is due; a file with the first specifier alone is not, and it stays as it is. -/
theorem replacements_tell_change_selfAlias :
    let place := fun names : List String => names.map fun n => Utf8.encode n.toList
    let path := fun p : String => Path.ofText p.toList
    let a := ofPath [] (path "/src") "../".toList
    let both := "import b from '../b'import c from '../../c'".toList
    let one := "import b from '../b'".toList
    let t := (FileTree.empty.put (place ["src", "x", "f.ts"]) (.file (Utf8.encode both)) none).put
      (place ["src", "x", "g.ts"]) (.file (Utf8.encode one)) none
    t.HasText [] (path "/src/x/f.ts") (place ["src", "x", "f.ts"]) .all both ∧
    t.HasText [] (path "/src/x/g.ts") (place ["src", "x", "g.ts"]) .all one ∧
    (a.edit [] (path "/src/x/f.ts") both).replacements = 1 ∧
    (a.edit [] (path "/src/x/f.ts") both).changed = true ∧
    (a.process [] t (path "/src/x/f.ts")).1.status = .fixed ∧
    (a.process [] t (path "/src/x/g.ts")).1.status = .unchanged ∧
    (a.process [] t (path "/src/x/g.ts")).2 = t := by
  intro place path a both one t
  have hf : t.HasText [] (path "/src/x/f.ts") (place ["src", "x", "f.ts"]) .all both :=
    ⟨rfl, by decide +kernel, rfl⟩
  have hg : t.HasText [] (path "/src/x/g.ts") (place ["src", "x", "g.ts"]) .all one :=
    ⟨rfl, by decide +kernel, rfl⟩
  have hone : (a.edit [] (path "/src/x/f.ts") both).replacements = 1 := by decide +kernel
  have hnone : ¬ a.Respells [] (path "/src/x/g.ts") one := by decide +kernel
  obtain ⟨hedit, hfile, -⟩ :=
    replacements_tell_change a [] (path "/src/x/f.ts") (fun (_ : Unit) _ => ()) ()
  obtain ⟨-, hidle, -⟩ :=
    replacements_tell_change a [] (path "/src/x/g.ts") (fun (_ : Unit) _ => ()) ()
  obtain ⟨hchanged, hrespells⟩ := hedit both
  have hpos : 0 < (a.edit [] (path "/src/x/f.ts") both).replacements := by
    rw [hone]
    decide
  have hstays : (a.process [] t (path "/src/x/g.ts")).1.status = .unchanged :=
    ((hidle t).2.2.2 _ _ _ hg).2.2 hnone
  refine ⟨hf, hg, hone, hchanged.2 hpos, (hfile t).1.2 ⟨_, _, _, hf, rfl, hrespells.1 hpos⟩, hstays,
    Decidable.byContradiction fun hne => ?_⟩
  have hfixed := (hidle t).1.2 ((hidle t).2.2.1.1 hne)
  rw [hstays] at hfixed
  cases hfixed

end Alias

end ImportAlias
