import ImportAlias.Proofs.Editing
import ImportAlias.Proofs.Rereading

/-!
# Editing twice

An edit of a text that was edited before. With the usual alias `@/` it changes nothing
exactly if the kept text after each new specifier, up to the next one, has no relative
clause in reach: none that follows the statement's own `import`, or another one, without
a semicolon in between. So an edit has to be repeated when a statement without a
semicolon is followed by something like a re-export.
-/

namespace ImportAlias.Alias

open Import

/-- With a proper spelling, an edit that finds nothing is one of a text in which no clause
is in reach. -/
theorem edit_unchanged_iff {a : Alias} {cwd : Location} {p : Path} (ha : Specifier.Proper a.spelling)
    (t : Text) :
    (a.edit cwd p t).changed = false ∧ (a.edit cwd p t).replacements = 0 ↔
      reaches false t = false := by
  have hr := reads_segment t
  rw [replacements_of_reads ha hr, List.length_eq_zero_iff, hr.specsOf_eq_nil_iff]
  refine and_iff_right_of_imp fun h => ?_
  have hms := hr.eq_plain_of_specsOf (hr.specsOf_eq_nil_iff.2 h)
  rw [edit_of_reads hr, hms]
  simp

/-- **When a second edit changes nothing.** -/
theorem edit_edit_unchanged_iff (root : Path) (cwd : Location) (p : Path) (t : Text) :
    let a := (Settings.ofRoot root).toAlias cwd
    let again := a.edit cwd p (a.edit cwd p t).text
    (again.changed = false ∧ again.replacements = 0) ↔
      ∀ x ∈ stretches (segment t).marks, reaches true (a.resolve cwd p x.1 ++ x.2) = false := by
  intro a again
  have ha : Specifier.Proper a.spelling := Specifier.proper_default
  have hr := reads_segment t
  have hlead : reaches false (lead (segment t).marks) = false := by
    rcases hr.cases_block with ⟨hms, h⟩ | ⟨l, s, q, ms, hms, hb⟩
    · rw [hms, lead_plain, h]
    · rw [hms, lead_plain_append, lead, List.append_nil, hb.not_reaches]
  have hfill : reaches false (fill (a.resolve cwd p) (segment t).marks) =
      (stretches (segment t).marks).any fun x => reaches true (a.resolve cwd p x.1 ++ x.2) := by
    have h := hr.reaches_fill (after?_resolve ha cwd p) false []
    rw [List.nil_append, List.nil_append, hlead, Bool.false_or] at h
    exact h
  rw [edit_unchanged_iff ha, edit_of_reads hr, hfill, List.any_eq_false]
  simp only [Bool.not_eq_true]

/-- A re-export after an import without a semicolon is left alone by the first edit and
changed by the second one. -/
theorem edit_reexport_twice :
    let a := (Settings.ofRoot (.ofText "/src".toList)).toAlias []
    let p := Path.ofText "/src/x/y.ts".toList
    let e := a.edit [] p "import a from '../a'\nexport * from '../b'\n".toList
    e.text = "import a from '@/a'\nexport * from '../b'\n".toList ∧
      a.edit [] p e.text =
        ⟨"import a from '@/a'\nexport * from '@/b'\n".toList, 1, true⟩ := by
  decide +kernel

end ImportAlias.Alias
