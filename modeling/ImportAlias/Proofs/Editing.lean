import ImportAlias.Proofs.OnePass
import ImportAlias.Settings

/-!
# Edits

What `Alias.edit` does to a text, in terms of the reader: the marks of the text are
filled with the alias forms of its specifiers. Every specifier that is replaced is
relative, and the alias form of a specifier is the spelling of the alias, the
directories that are left, and what the specifier names from there.
-/

namespace ImportAlias

/-! ### Specifiers -/

namespace Specifier

theorem climb_parentStep (v : Text) :
    climb (parentStep ++ v) = ((climb v).1 + 1, (climb v).2) := by
  simp [parentStep, climb]

/-- The directories that a climb leaves, each with its slash. -/
def stem (dirs : List Text) (levels : Nat) : Text :=
  if dirs.length ≤ levels then []
  else List.intercalate ['/'] (dirs.take (dirs.length - levels)) ++ ['/']

/-- An alias form is the spelling, the directories that are left, and the rest. -/
theorem resolve_eq (dirs : List Text) (spelling spec : Text) :
    resolve dirs spelling spec = spelling ++ stem dirs (climb spec).1 ++ (climb spec).2 := by
  by_cases h : dirs.length ≤ (climb spec).1 <;> simp [resolve, stem, h]

/-- A spelling that cannot be taken for a relative specifier or for the end of one: it has
no quote, ends with a slash and does not start with `../`. -/
structure Proper (spelling : Text) : Prop where
  quoteFree : Import.QuoteFree spelling
  ends : ∃ u, spelling = u ++ ['/']
  notRelative : after? parentStep spelling = none

theorem mem_of_mem_climb {t : Text} {c : Char} (h : c ∈ (climb t).2) : c ∈ t := by
  rw [← replicate_climb t]
  exact List.mem_append_right _ h

theorem mem_intercalate {l : List Text} {c : Char} (h : c ∈ List.intercalate ['/'] l) :
    c = '/' ∨ ∃ d ∈ l, c ∈ d := by
  induction l with
  | nil => cases h
  | cons d l ih =>
    cases l with
    | nil => exact .inr ⟨d, by simp, by simpa [List.intercalate] using h⟩
    | cons e l =>
      rw [List.intercalate_cons_cons] at h
      simp only [List.append_assoc, List.mem_append, List.mem_singleton] at h
      rcases h with h | h | h
      · exact .inr ⟨d, by simp, h⟩
      · exact .inl h
      · rcases ih h with h | ⟨d', hd', h⟩
        · exact .inl h
        · exact .inr ⟨d', List.mem_cons_of_mem _ hd', h⟩

theorem proper_default : Proper "@/".toList :=
  ⟨by decide, ⟨['@'], rfl⟩, by decide⟩

/-- What starts with a proper spelling is not relative. -/
theorem Proper.after?_append {spelling : Text} (h : Proper spelling) (x : Text) :
    after? parentStep (spelling ++ x) = none := by
  cases hx : after? parentStep (spelling ++ x) with
  | none => rfl
  | some v =>
    obtain ⟨u, rfl⟩ := h.ends
    have hn := h.notRelative
    -- a slash ends `../` and there is none before it, so all of `../` is in the spelling
    match u, after?_eq_some_iff.1 hx with
    | [], e | [_], e => simp [parentStep] at e
    | a :: b :: u, e =>
      simp only [parentStep, List.cons_append, List.nil_append, List.cons.injEq] at e
      obtain ⟨rfl, rfl, e⟩ := e
      cases u with
      | nil => exact absurd hn (by decide)
      | cons d u =>
        simp only [List.cons_append, List.cons.injEq] at e
        obtain ⟨rfl, -⟩ := e
        simp [parentStep, after?] at hn

/-- The alias form of a specifier is not relative. -/
theorem Proper.after?_resolve {spelling : Text} (h : Proper spelling) (dirs : List Text)
    (spec x : Text) : after? parentStep (resolve dirs spelling spec ++ x) = none := by
  rw [resolve_eq, List.append_assoc, List.append_assoc]
  exact h.after?_append _

/-- So it is another text than the specifier. -/
theorem Proper.resolve_ne {spelling : Text} (h : Proper spelling) (dirs : List Text) (v : Text) :
    resolve dirs spelling (parentStep ++ v) ≠ parentStep ++ v := by
  intro e
  have := h.after?_resolve dirs (parentStep ++ v) []
  rw [List.append_nil, e, ImportAlias.after?_append] at this
  cases this

/-- An alias form has no quote if the spelling, the directories and the specifier have none. -/
theorem quoteFree_resolve {spelling spec : Text} {dirs : List Text}
    (h : Import.QuoteFree spelling) (hd : ∀ d ∈ dirs, Import.QuoteFree d)
    (hs : Import.QuoteFree spec) : Import.QuoteFree (resolve dirs spelling spec) := by
  intro c hc
  rw [resolve_eq] at hc
  simp only [List.mem_append] at hc
  rcases hc with (hc | hc) | hc
  · exact h c hc
  · unfold stem at hc
    split at hc
    · cases hc
    · simp only [List.mem_append, List.mem_singleton] at hc
      rcases hc with hc | rfl
      · rcases mem_intercalate hc with rfl | ⟨d, hm, hc⟩
        · decide
        · exact hd d (List.mem_of_mem_take hm) c hc
      · decide
  · exact hs c (mem_of_mem_climb hc)

theorem Proper.quoteFree_resolve {spelling spec : Text} {dirs : List Text} (h : Proper spelling)
    (hd : ∀ d ∈ dirs, Import.QuoteFree d) (hs : Import.QuoteFree spec) :
    Import.QuoteFree (resolve dirs spelling spec) :=
  Specifier.quoteFree_resolve h.quoteFree hd hs

end Specifier

/-! ### What is replaced -/

namespace Import

/-- A specifier that is replaced is relative and has no quote. -/
theorem Reads.relative_of_mem {live : Bool} {t : Text} {ms : List Mark} (h : Reads live t ms)
    {s : Text} (hs : s ∈ specsOf ms) :
    (∃ v, s = Specifier.parentStep ++ v) ∧ QuoteFree s := by
  induction h with
  | done => cases hs
  | keep _ _ ih => exact ih hs
  | clause here _ ih =>
    obtain ⟨-, hv⟩ := Clause.read?_eq_some_iff.1 here
    rw [specsOf_append, Clause.specsOf_marks, List.singleton_append, List.mem_cons] at hs
    rcases hs with rfl | hs
    · exact ⟨hv.relative, hv.quoteFree⟩
    · exact ih hs

/-- Quotes keep replacements apart: if the new specifiers have none and the new text is the
old one, then each specifier was replaced by itself. -/
theorem Reads.eq_of_fill_eq {f : Text → Text} {live : Bool} {t : Text} {ms : List Mark}
    (h : Reads live t ms) (hq : ∀ s ∈ specsOf ms, QuoteFree (f s)) (he : fill f ms = t) :
    ∀ s ∈ specsOf ms, f s = s := by
  induction h with
  | done =>
    intro s hs
    cases hs
  | keep _ _ ih => exact ih hq (List.cons.inj he).2
  | @clause t rest c ms here _ ih =>
    obtain ⟨rfl, hv⟩ := Clause.read?_eq_some_iff.1 here
    rw [specsOf_append, Clause.specsOf_marks, List.singleton_append] at hq ⊢
    -- the new specifier and the old one end at the same quote
    have hquote : f c.spec ++ c.closeQuote :: fill f ms = c.spec ++ c.closeQuote :: rest := by
      rw [fill_append, Clause.fill_marks, Clause.text] at he
      simpa using he
    obtain ⟨hspec, -, hrest⟩ := append_quote_inj (hq _ List.mem_cons_self) hv.quoteFree hv.closes
      hv.closes hquote
    intro s hs
    rcases List.mem_cons.1 hs with rfl | hs
    · exact hspec
    · exact ih (fun s' hs' => hq s' (List.mem_cons_of_mem _ hs')) hrest s hs

end Import

namespace Alias

theorem changed_edit (a : Alias) (cwd : Location) (p : Path) (t : Text) :
    (a.edit cwd p t).changed = decide ((a.edit cwd p t).text ≠ t) := rfl

theorem after?_resolve {a : Alias} (ha : Specifier.Proper a.spelling) (cwd : Location) (p : Path)
    (s x : Text) : after? Specifier.parentStep (a.resolve cwd p s ++ x) = none :=
  ha.after?_resolve _ s x

/-- What an edit makes of a text that is read as `ms`. -/
theorem edit_of_reads {a : Alias} {cwd : Location} {p : Path} {t : Text} {ms : List Import.Mark}
    (h : Import.Reads false t ms) :
    a.edit cwd p t =
      { text := Import.fill (a.resolve cwd p) ms
        replacements := (Import.specsOf ms).countP fun s => a.resolve cwd p s ≠ s
        changed := Import.fill (a.resolve cwd p) ms ≠ t } := by
  have hms : (Import.segment t).marks = ms := (Import.reads_segment t).unique h
  simp only [edit, Import.Segmented.mapSpecs_eq_fill, Import.Segmented.specs_eq_specsOf, hms]
  rfl

/-- With a proper spelling, an edit replaces every specifier that it finds. -/
theorem replacements_of_reads {a : Alias} {cwd : Location} {p : Path} {t : Text}
    {ms : List Import.Mark} (ha : Specifier.Proper a.spelling) (h : Import.Reads false t ms) :
    (a.edit cwd p t).replacements = (Import.specsOf ms).length := by
  rw [edit_of_reads h]
  refine List.countP_eq_length.2 fun s hs => ?_
  obtain ⟨⟨v, rfl⟩, -⟩ := h.relative_of_mem hs
  exact decide_eq_true (ha.resolve_ne _ v)

/-- An edit that changes a text replaces something in it. -/
theorem replacements_pos_of_changed {a : Alias} {cwd : Location} {p : Path} {t : Text}
    (h : (a.edit cwd p t).changed = true) : 0 < (a.edit cwd p t).replacements := by
  have hr := Import.reads_segment t
  rw [edit_of_reads hr] at h ⊢
  refine Nat.pos_of_ne_zero fun hzero => ?_
  have hid : ∀ s ∈ Import.specsOf (Import.segment t).marks, a.resolve cwd p s = id s := by
    intro s hs
    simpa using List.countP_eq_zero.1 hzero s hs
  rw [Import.fill_congr hid, hr.fill_id] at h
  simp at h

/-- Without quotes in the spelling and in the directories, an edit changes a text if and only
if it replaces something in it. -/
theorem changed_iff_replacements_pos {a : Alias} {cwd : Location} {p : Path}
    (ha : Import.QuoteFree a.spelling) (hd : ∀ d ∈ a.directories cwd p, Import.QuoteFree d)
    (t : Text) : (a.edit cwd p t).changed = true ↔ 0 < (a.edit cwd p t).replacements := by
  refine ⟨replacements_pos_of_changed, fun hpos => ?_⟩
  have hr := Import.reads_segment t
  rw [edit_of_reads hr] at hpos ⊢
  refine decide_eq_true fun he => ?_
  have hq : ∀ s ∈ Import.specsOf (Import.segment t).marks, Import.QuoteFree (a.resolve cwd p s) := by
    intro s hs
    exact Specifier.quoteFree_resolve ha hd (hr.relative_of_mem hs).2
  obtain ⟨s, hs, hne⟩ := List.countP_pos_iff.1 hpos
  exact of_decide_eq_true hne (hr.eq_of_fill_eq hq he s hs)

end Alias

end ImportAlias
