import ImportAlias.Proofs.Editing

/-!
# The balance of relative specifiers

Every specifier that an edit replaces is one place less where a relative specifier
starts, and no other such place appears or goes away. That is not as plain as it looks:
a specifier may end with `from` and white space, and then the quote after it may be the
quote before a `../` that follows. Such a place is half in the specifier and half in the
kept text; it stays because the alias form of a specifier ends as the specifier does.
-/

namespace ImportAlias

namespace Import

/-! ### Words without an `f`

A clause starts with the letter `f`. So the reader keeps every word without that letter,
and such a word can be moved between a text and what an edit makes of it.
-/

theorem Reads.keeps_word {w : Text} (hw : 'f' ∉ w) {live : Bool} {t : Text} {ms : List Mark}
    (h : Reads live (w ++ t) ms) : ∃ live' ms', ms = plain w ++ ms' ∧ Reads live' t ms' := by
  induction w generalizing live ms with
  | nil => exact ⟨live, ms, rfl, h⟩
  | cons c w ih =>
    have hc : c ≠ 'f' := fun e => hw (by simp [e])
    generalize hu : c :: w ++ t = u at h
    cases h with
    | done => cases hu
    | keep _ h =>
      obtain ⟨rfl, rfl⟩ := List.cons.inj hu
      obtain ⟨live', ms', rfl, h'⟩ := ih (fun hm => hw (List.mem_cons_of_mem _ hm)) h
      exact ⟨live', ms', rfl, h'⟩
    | clause here _ =>
      rw [← hu, List.cons_append, Clause.read?_eq_none_of_ne hc] at here
      cases here

theorem Reads.of_fill_eq_word {f : Text → Text} {w o : Text} (hw : 'f' ∉ w) {live : Bool} {t : Text}
    {ms : List Mark} (h : Reads live t ms) (ho : fill f ms = w ++ o) : ∃ t', t = w ++ t' := by
  induction w generalizing live t ms with
  | nil => exact ⟨t, rfl⟩
  | cons c w ih =>
    cases h with
    | done => cases ho
    | keep _ h =>
      have hrest := (List.cons.inj ho).2
      obtain ⟨t', rfl⟩ := ih (fun hm => hw (List.mem_cons_of_mem _ hm)) h hrest
      exact ⟨t', by rw [(List.cons.inj ho).1]; rfl⟩
    | clause here _ =>
      have hc : 'f' = c := by
        rw [fill_append, Clause.fill_marks, Clause.head, fromWord] at ho
        exact (List.cons.inj ho).1
      exact absurd (hc ▸ List.mem_cons_self) hw

/-- A word without an `f` stands at the start of a text if and only if it stands at the
start of what an edit makes of it. -/
theorem Reads.isSome_after?_fill {w : Text} (hw : 'f' ∉ w) {live : Bool} {t : Text}
    {ms : List Mark} (h : Reads live t ms) (f : Text → Text) :
    (after? w (fill f ms)).isSome = (after? w t).isSome := by
  rw [Bool.eq_iff_iff, Option.isSome_iff_exists, Option.isSome_iff_exists]
  simp only [after?_eq_some_iff]
  constructor
  · rintro ⟨o, ho⟩
    exact h.of_fill_eq_word hw ho
  · rintro ⟨t', rfl⟩
    obtain ⟨-, ms', rfl, -⟩ := h.keeps_word hw
    exact ⟨fill f ms', by simp⟩

/-- A character that is kept is the start of a relative specifier's `from` in the new text if
and only if it is in the old one. -/
theorem Reads.opensRelative_cons_fill {live : Bool} {t : Text} {ms : List Mark}
    (h : Reads live t ms) (f : Text → Text) (c : Char) :
    opensRelative (c :: fill f ms) = opensRelative (c :: t) := by
  have hword : ∀ {gap : Text} {q : Char}, Opens gap q →
      'f' ∉ ['r', 'o', 'm'] ++ gap ++ q :: Specifier.parentStep := by
    intro gap q ho
    obtain ⟨hgap, hquote⟩ := ho.not_mem (x := 'f') (by decide) (by decide)
    simp [Specifier.parentStep, hgap, hquote]
  rw [Bool.eq_iff_iff, opensRelative_iff, opensRelative_iff]
  constructor
  · rintro ⟨gap, q, v, ht, ho⟩
    have hc : c = 'f' := (List.cons.inj ht).1
    have ht' : fill f ms = (['r', 'o', 'm'] ++ gap ++ q :: Specifier.parentStep) ++ v := by
      rw [(List.cons.inj ht).2]
      simp
    obtain ⟨t', rfl⟩ := h.of_fill_eq_word (hword ho) ht'
    exact ⟨gap, q, t', by simp [fromWord, hc], ho⟩
  · rintro ⟨gap, q, v, ht, ho⟩
    have hc : c = 'f' := (List.cons.inj ht).1
    have ht' : t = (['r', 'o', 'm'] ++ gap ++ q :: Specifier.parentStep) ++ v := by
      rw [(List.cons.inj ht).2]
      simp
    rw [ht'] at h
    obtain ⟨-, ms', rfl, -⟩ := h.keeps_word (hword ho)
    refine ⟨gap, q, fill f ms', ?_, ho⟩
    rw [fill_append, fill_plain, hc]
    simp [fromWord]

/-! ### Counting past a quote -/

/-- Whether a text is `from` and white space, of which there is some. -/
def isDangling (t : Text) : Bool :=
  match after? fromWord t with
  | some gap => gap ≠ [] && gap.all isBlank
  | none => false

/-- How many times `from` stands in a text with nothing but white space after it. -/
def countDangling : Text → Nat
  | [] => 0
  | c :: t => (if isDangling (c :: t) then 1 else 0) + countDangling t

theorem isDangling_iff {t : Text} {q : Char} (hq : isQuote q) :
    isDangling t ↔ ∃ gap, t = fromWord ++ gap ∧ Opens gap q := by
  constructor
  · intro h
    unfold isDangling at h
    split at h
    · next gap hgap =>
      simp only [Bool.and_eq_true, decide_eq_true_eq] at h
      exact ⟨gap, after?_eq_some_iff.1 hgap, h.1, List.all_eq_true.1 h.2, hq⟩
    · cases h
  · rintro ⟨gap, rfl, ho⟩
    rw [isDangling, after?_append]
    simp [ho.nonempty, List.all_eq_true.2 ho.blank]

/-- A relative specifier starts before the first quote of a text if and only if `from` is
left dangling there and `../` stands after the quote. -/
theorem opensRelative_append_quote {r x : Text} {q : Char} (hr : QuoteFree r) (hq : isQuote q) :
    opensRelative (r ++ q :: x) = (isDangling r && (after? Specifier.parentStep x).isSome) := by
  rw [Bool.eq_iff_iff, Bool.and_eq_true, opensRelative_iff, isDangling_iff hq,
    Option.isSome_iff_exists]
  simp only [after?_eq_some_iff]
  constructor
  · rintro ⟨gap, q', v, h, ho⟩
    obtain ⟨rfl, rfl, rfl⟩ := append_quote_inj hr ho.quoteFree hq ho.quote h
    exact ⟨⟨gap, rfl, ho⟩, v, rfl⟩
  · rintro ⟨⟨gap, rfl, ho⟩, v, rfl⟩
    exact ⟨gap, q, v, rfl, ho⟩

/-- What stands before the first quote of a text counts only by how it ends. -/
theorem countRelative_append_quote {r x : Text} {q : Char} (hr : QuoteFree r) (hq : isQuote q) :
    countRelative (r ++ q :: x) =
      (if (after? Specifier.parentStep x).isSome then countDangling r else 0) + countRelative x := by
  induction r with
  | nil =>
    have hopen : opensRelative (q :: x) = false := opensRelative_append_quote (r := []) hr hq
    simp [countRelative, countDangling, hopen]
  | cons c r ih =>
    have hopen := opensRelative_append_quote (x := x) hr hq
    rw [List.cons_append] at hopen ⊢
    rw [countRelative, hopen, ih fun d hd => hr d (List.mem_cons_of_mem _ hd), countDangling]
    by_cases hx : (after? Specifier.parentStep x).isSome = true <;> simp [hx, Nat.add_assoc]

/-- No `from` is left dangling before a slash. -/
theorem countDangling_append_slash (s t : Text) :
    countDangling (s ++ '/' :: t) = countDangling t := by
  have hfalse : ∀ u : Text, '/' ∈ u → isDangling u = false := by
    intro u hu
    rw [Bool.eq_false_iff]
    intro h
    obtain ⟨gap, rfl, ho⟩ := (isDangling_iff (q := '"') (by decide)).1 h
    rcases List.mem_append.1 hu with hu | hu
    · exact absurd hu (by decide)
    · exact absurd (ho.blank _ hu) (by decide)
  induction s with
  | nil => simp [countDangling, hfalse]
  | cons c s ih => simp [countDangling, hfalse, ih]

theorem countDangling_of_not_mem {t : Text} (h : 'f' ∉ t) : countDangling t = 0 := by
  induction t with
  | nil => rfl
  | cons c t ih =>
    have hfalse : isDangling (c :: t) = false := by
      rw [Bool.eq_false_iff]
      intro hd
      obtain ⟨gap, ht, -⟩ := (isDangling_iff (q := '"') (by decide)).1 hd
      exact h ((List.cons.inj ht).1 ▸ List.mem_cons_self)
    rw [countDangling, hfalse, ih fun hm => h (List.mem_cons_of_mem _ hm)]
    rfl

/-- The one `from` that is left dangling before a specifier is the clause's own. -/
theorem Opens.countDangling {gap : Text} {q : Char} (h : Opens gap q) :
    countDangling (fromWord ++ gap) = 1 := by
  have hdangling : isDangling (fromWord ++ gap) = true := (isDangling_iff h.quote).2 ⟨gap, rfl, h⟩
  have hgap : 'f' ∉ ['r', 'o', 'm'] ++ gap := by
    simp [(h.not_mem (x := 'f') (by decide) (by decide)).1]
  show (if isDangling (fromWord ++ gap) then 1 else 0) +
    Import.countDangling (['r', 'o', 'm'] ++ gap) = 1
  rw [hdangling, countDangling_of_not_mem hgap]
  rfl

/-- The head of a clause counts if and only if `../` stands after it. -/
theorem Clause.Valid.countRelative_head {c : Clause} (h : c.Valid) (x : Text) :
    countRelative (c.head ++ x) =
      (if (after? Specifier.parentStep x).isSome then 1 else 0) + countRelative x := by
  rw [Clause.head, List.append_assoc, List.singleton_append,
    countRelative_append_quote h.opens.quoteFree h.opens.quote, h.opens.countDangling]

/-! ### The balance of a reading -/

/-- **The balance of a reading.** If each new specifier has no quote, is not relative and
leaves `from` dangling where the old one does, then the relative specifiers that start in
the new text are those that start in the old one, less the ones that were replaced. -/
theorem Reads.countRelative_fill {f : Text → Text} {live : Bool} {t : Text} {ms : List Mark}
    (h : Reads live t ms) (hq : ∀ s ∈ specsOf ms, QuoteFree (f s))
    (hr : ∀ s x, after? Specifier.parentStep (f s ++ x) = none)
    (hd : ∀ s ∈ specsOf ms, countDangling (f s) = countDangling s) :
    countRelative (fill f ms) + (specsOf ms).length = countRelative t := by
  induction h with
  | done => rfl
  | @keep live c t ms _ h ih =>
    have hopen := h.opensRelative_cons_fill f c
    have hih := ih hq hd
    simp only [fill, specsOf, countRelative, hopen]
    omega
  | @clause t rest c ms here h ih =>
    obtain ⟨rfl, hv⟩ := Clause.read?_eq_some_iff.1 here
    rw [specsOf_append, Clause.specsOf_marks, List.singleton_append] at hq hd ⊢
    have hih := ih (fun s hs => hq s (List.mem_cons_of_mem _ hs))
      (fun s hs => hd s (List.mem_cons_of_mem _ hs))
    obtain ⟨v, hrel⟩ := hv.relative
    -- the closing quote may open a specifier too, in the old text and in the new one alike
    have hrest := h.isSome_after?_fill (w := Specifier.parentStep) (by decide) f
    have hnew : countRelative (fill f (c.marks ++ ms)) =
        (if (after? Specifier.parentStep rest).isSome then countDangling c.spec else 0) +
          countRelative (fill f ms) := by
      rw [fill_append, Clause.fill_marks, List.append_assoc, List.append_assoc,
        hv.countRelative_head, hr, List.singleton_append,
        countRelative_append_quote (hq _ (by simp)) hv.closes, hrest, hd _ (by simp)]
      simp
    have hold : countRelative (c.text ++ rest) =
        1 + ((if (after? Specifier.parentStep rest).isSome then countDangling c.spec else 0) +
          countRelative rest) := by
      rw [Clause.text, List.append_assoc, List.append_assoc, hv.countRelative_head,
        List.singleton_append, countRelative_append_quote hv.quoteFree hv.closes, hrel,
        List.append_assoc, after?_append]
      simp
    rw [hnew, hold, List.length_cons]
    omega

theorem hasRelativeImport_iff (t : Text) : hasRelativeImport t ↔ 0 < countRelative t := by
  induction t with
  | nil => simp [hasRelativeImport, countRelative]
  | cons c t ih =>
    rw [hasRelativeImport, countRelative, Bool.or_eq_true, ih]
    cases opensRelative (c :: t) with
    | false => simp
    | true => exact ⟨fun _ => by rw [if_pos rfl]; omega, fun _ => .inl rfl⟩

end Import

/-! ### The balance of an edit -/

/-- The alias form of a relative specifier ends as the specifier does, after a slash. -/
theorem Specifier.Proper.countDangling_resolve {spelling : Text} (h : Proper spelling)
    (dirs : List Text) (v : Text) :
    Import.countDangling (resolve dirs spelling (parentStep ++ v)) =
      Import.countDangling (parentStep ++ v) := by
  have hstem : ∃ u, spelling ++ stem dirs (climb (parentStep ++ v)).1 = u ++ ['/'] := by
    unfold stem
    split
    · obtain ⟨u, hu⟩ := h.ends
      exact ⟨u, by rw [hu, List.append_nil]⟩
    · exact ⟨_, (List.append_assoc ..).symm⟩
  obtain ⟨u, hu⟩ := hstem
  have hclimb : ∃ u', parentStep ++ v = u' ++ '/' :: (climb (parentStep ++ v)).2 := by
    have h := replicate_climb (parentStep ++ v)
    rw [climb_parentStep] at h ⊢
    refine ⟨(List.replicate (climb v).1 parentStep).flatten ++ ['.', '.'], ?_⟩
    rw [← h, List.replicate_succ', List.flatten_append]
    simp [parentStep]
  obtain ⟨u', hu'⟩ := hclimb
  calc Import.countDangling (resolve dirs spelling (parentStep ++ v))
      = Import.countDangling (u ++ '/' :: (climb (parentStep ++ v)).2) := by
        rw [resolve_eq, hu, List.append_assoc, List.singleton_append]
    _ = Import.countDangling (u' ++ '/' :: (climb (parentStep ++ v)).2) := by
        rw [Import.countDangling_append_slash, Import.countDangling_append_slash]
    _ = Import.countDangling (parentStep ++ v) := by rw [← hu']

namespace Alias

/-- **The balance of an edit.** Of the relative specifiers that start in a text, an edit
leaves all but the ones that it replaces. -/
theorem countRelative_edit {a : Alias} {cwd : Location} {p : Path}
    (ha : Specifier.Proper a.spelling) (hd : ∀ d ∈ a.directories cwd p, Import.QuoteFree d)
    (t : Text) :
    Import.countRelative (a.edit cwd p t).text + (a.edit cwd p t).replacements =
      Import.countRelative t := by
  have h := Import.reads_segment t
  rw [replacements_of_reads ha h, edit_of_reads h]
  refine h.countRelative_fill (fun s hs => ?_) (fun s x => after?_resolve ha cwd p s x)
    (fun s hs => ?_)
  · obtain ⟨-, hs⟩ := h.relative_of_mem hs
    exact ha.quoteFree_resolve hd hs
  · obtain ⟨⟨v, rfl⟩, -⟩ := h.relative_of_mem hs
    exact ha.countDangling_resolve _ v

end Alias

end ImportAlias
