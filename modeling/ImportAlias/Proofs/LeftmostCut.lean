import ImportAlias.Proofs.Editing

/-!
# The leftmost cut

`segment` finds its occurrences by a search: it tries one character after the other, passes
over those it cannot use, and goes on after each occurrence that it took. What it comes to
can be said without a search. The next occurrence starts at the least place at which any
occurrence stands, its clause is the nearest one that makes an occurrence from there, and
what follows it is cut in the same way, until no occurrence stands anywhere.

## The model

`Stands t before o rest` is that an occurrence stands in a text; nothing is said about the
others. `First` picks one of them by its two places. `Cut t s` is the whole decomposition.
`cut_segment` says that the search makes such a decomposition and `Cut.unique` that a text
has only one, so that it cannot depend on what the specifiers are replaced by.
-/

namespace ImportAlias.Import

/-! ### Occurrences in a text -/

/-- What makes an occurrence: its clause is a clause, and no semicolon stands before it. -/
structure Occurrence.Valid (o : Occurrence) : Prop where
  no_semicolon : ';' ∉ o.names
  clause : o.clause.Valid

/-- `Stands t before o rest`: the text `t` is `before`, the occurrence `o` and `rest`. -/
structure Stands (t before : Text) (o : Occurrence) (rest : Text) : Prop where
  text : t = before ++ o.text ++ rest
  valid : o.Valid

/-- The occurrence that is to be taken next: none starts further left, and of those that
start at the same `import` none has its clause nearer to it. -/
structure First (t before : Text) (o : Occurrence) (rest : Text) : Prop where
  stands : Stands t before o rest
  leftmost : ∀ before' o' rest', Stands t before' o' rest' → before.length ≤ before'.length
  nearest : ∀ o' rest', Stands t before o' rest' → o.names.length ≤ o'.names.length

/-- `Cut t s`: the text `t` is cut as `s` says, first occurrence by first occurrence, and no
occurrence stands in what is left. -/
inductive Cut : Text → Segmented → Prop where
  /-- There is no occurrence. -/
  | last {t : Text} (none_left : ∀ before o rest, ¬ Stands t before o rest) : Cut t ⟨[], t⟩
  /-- The first occurrence is taken, and the text after it is cut. -/
  | next {t before rest : Text} {o : Occurrence} {s : Segmented} (first : First t before o rest) :
      Cut rest s → Cut t ⟨(before, o) :: s.pieces, s.rest⟩

theorem Occurrence.text_eq (o : Occurrence) : o.text = importWord ++ (o.names ++ o.clause.text) := by
  simp [Occurrence.text, Occurrence.withSpec, Occurrence.spec, Clause.text]

theorem stands_cons_iff {c : Char} {t before rest : Text} {o : Occurrence} :
    Stands (c :: t) (c :: before) o rest ↔ Stands t before o rest := by
  constructor
  · rintro ⟨ht, hv⟩
    exact ⟨(List.cons.inj ht).2, hv⟩
  · rintro ⟨rfl, hv⟩
    exact ⟨rfl, hv⟩

/-- An occurrence stands after some characters or at once. -/
theorem Stands.cases_cons {c : Char} {t before rest : Text} {o : Occurrence}
    (h : Stands (c :: t) before o rest) :
    before = [] ∨ ∃ before', before = c :: before' ∧ Stands t before' o rest := by
  cases before with
  | nil => exact .inl rfl
  | cons b before =>
    obtain rfl : c = b := (List.cons.inj h.text).1
    exact .inr ⟨before, rfl, stands_cons_iff.1 h⟩

/-! ### What the search finds -/

/-- A clause with no semicolon before it is not missed. -/
theorem nearestClause?_ne_none {names : Text} {c : Clause} (hn : ';' ∉ names) (hc : c.Valid)
    (rest : Text) : nearestClause? (names ++ (c.text ++ rest)) ≠ none := by
  have hread : Clause.read? (c.text ++ rest) = some (c, rest) := Clause.read?_eq_some_iff.2 ⟨rfl, hc⟩
  intro hnone
  induction names with
  | nil =>
    have := Clause.read?_eq_none_of_nearestClause? hnone
    rw [List.nil_append, hread] at this
    cases this
  | cons x names ih =>
    have hx : x ≠ ';' := fun e => hn (by simp [e])
    exact ih (fun hm => hn (List.mem_cons_of_mem _ hm)) (nearestClause?_tail hnone hx)

/-- The clause that is found has no semicolon before it, and no clause stands nearer. -/
theorem of_nearestClause?_eq_some {t names rest : Text} {clause : Clause}
    (h : nearestClause? t = some (names, clause, rest)) :
    ';' ∉ names ∧ clause.Valid ∧
      ∀ (names' : Text) (clause' : Clause) (rest' : Text), t = names' ++ (clause'.text ++ rest') →
        clause'.Valid → names.length ≤ names'.length := by
  induction t generalizing names with
  | nil => simp [nearestClause?] at h
  | cons c t ih =>
    rw [nearestClause?] at h
    split at h
    · next hread =>
      simp only [Option.some.injEq, Prod.mk.injEq] at h
      obtain ⟨rfl, rfl, rfl⟩ := h
      exact ⟨List.not_mem_nil, (Clause.read?_eq_some_iff.1 hread).2, fun _ _ _ _ _ => Nat.zero_le _⟩
    · next hread =>
      split at h
      · cases h
      · next hc =>
        split at h
        · next hn =>
          simp only [Option.some.injEq, Prod.mk.injEq] at h
          obtain ⟨rfl, rfl, rfl⟩ := h
          obtain ⟨hsemi, hv, hnear⟩ := ih hn
          refine ⟨?_, hv, fun names' clause' rest' ht hv' => ?_⟩
          · rw [List.mem_cons, not_or]
            exact ⟨Ne.symm hc, hsemi⟩
          · cases names' with
            | nil =>
              rw [ht, List.nil_append, Clause.read?_eq_some_iff.2 ⟨rfl, hv'⟩] at hread
              cases hread
            | cons x names' =>
              exact Nat.succ_le_succ (hnear names' clause' rest' (List.cons.inj ht).2 hv')
        · cases h

/-- An occurrence at the start of a text is not missed. -/
theorem Stands.isSome_read? {t rest : Text} {o : Occurrence} (h : Stands t [] o rest) :
    (Occurrence.read? t).isSome := by
  obtain ⟨rfl, hsemi, hc⟩ := h
  obtain ⟨⟨names, clause, rest'⟩, hn⟩ :=
    Option.ne_none_iff_exists'.1 (nearestClause?_ne_none hsemi hc rest)
  rw [List.nil_append, Occurrence.text_eq, List.append_assoc, List.append_assoc, Occurrence.read?,
    after?_append]
  simp [hn]

/-- An occurrence that is read at the start of a text is the first one there. -/
theorem first_of_read? {t rest : Text} {o : Occurrence}
    (h : Occurrence.read? t = some (o, rest)) : First t [] o rest := by
  have ht := Occurrence.text_of_read? h
  unfold Occurrence.read? at h
  split at h
  · cases h
  · next t₁ ht₁ =>
    split at h
    · cases h
    · next names clause rest' hn =>
      simp only [Option.some.injEq, Prod.mk.injEq] at h
      obtain ⟨rfl, rfl⟩ := h
      obtain ⟨hsemi, hv, hnear⟩ := of_nearestClause?_eq_some hn
      refine ⟨⟨ht, hsemi, hv⟩, fun _ _ _ _ => Nat.zero_le _, fun o' rest'' h' => ?_⟩
      refine hnear o'.names o'.clause rest'' ?_ h'.valid.clause
      have he := h'.text
      rw [after?_eq_some_iff.1 ht₁, List.nil_append, Occurrence.text_eq, List.append_assoc,
        List.append_assoc] at he
      exact List.append_cancel_left he

/-- The leftmost occurrence of the search is the first one of the text. -/
theorem first_of_firstOccurrence? {t before rest : Text} {o : Occurrence}
    (h : firstOccurrence? t = some (before, o, rest)) : First t before o rest := by
  induction t generalizing before with
  | nil => simp [firstOccurrence?] at h
  | cons c t ih =>
    rw [firstOccurrence?] at h
    split at h
    · next hread =>
      simp only [Option.some.injEq, Prod.mk.injEq] at h
      obtain ⟨rfl, rfl, rfl⟩ := h
      exact first_of_read? hread
    · next hread =>
      split at h
      · next hfirst =>
        simp only [Option.some.injEq, Prod.mk.injEq] at h
        obtain ⟨rfl, rfl, rfl⟩ := h
        obtain ⟨hstands, hleft, hnear⟩ := ih hfirst
        refine ⟨stands_cons_iff.2 hstands, fun before' o' rest' h' => ?_,
          fun o' rest' h' => hnear o' rest' (stands_cons_iff.1 h')⟩
        rcases h'.cases_cons with rfl | ⟨before'', rfl, h''⟩
        · -- an occurrence at once would have been read
          have := h'.isSome_read?
          rw [hread] at this
          cases this
        · exact Nat.succ_le_succ (hleft before'' o' rest' h'')
      · cases h

/-- Where the search finds nothing, there is nothing. -/
theorem not_stands_of_firstOccurrence? {t : Text} (h : firstOccurrence? t = none)
    (before : Text) (o : Occurrence) (rest : Text) : ¬ Stands t before o rest := by
  intro hs
  induction t generalizing before with
  | nil =>
    have := hs.text
    simp [Occurrence.text_eq, importWord] at this
  | cons c t ih =>
    rw [firstOccurrence?] at h
    split at h
    · cases h
    · next hread =>
      split at h
      · cases h
      · next hnone =>
        rcases hs.cases_cons with rfl | ⟨before', rfl, hs'⟩
        · have := hs.isSome_read?
          rw [hread] at this
          cases this
        · exact ih hnone before' hs'

/-- **The search makes the leftmost cut.** -/
theorem cut_segment (t : Text) : Cut t (segment t) := by
  induction hn : t.length using Nat.strongRecOn generalizing t with
  | _ n ih =>
    cases h : firstOccurrence? t with
    | none =>
      rw [segment_of_none h]
      exact .last (not_stands_of_firstOccurrence? h)
    | some r =>
      obtain ⟨before, o, after⟩ := r
      have hlt := length_lt_of_firstOccurrence? h
      rw [segment_of_some h]
      exact .next (first_of_firstOccurrence? h) (ih after.length (by omega) after rfl)

/-- The first `import` counts, and the first `from` that a relative specifier follows. -/
example : segment "importimport fromfrom '../a'from '../b'".toList =
    ⟨[([], ⟨"import from".toList, ⟨[' '], '\'', "../a".toList, '\''⟩⟩)], "from '../b'".toList⟩ := by
  decide +kernel

/-! ### There is no other cut -/

/-- A text starts with one clause at most: white space cannot be a quote, so its opening is
read in one way, and its specifier ends with the next quote. -/
theorem Clause.Valid.unique {c c' : Clause} {rest rest' : Text} (h : c.Valid) (h' : c'.Valid)
    (he : c.text ++ rest = c'.text ++ rest') : c = c' ∧ rest = rest' := by
  have hread : Clause.read? (c'.text ++ rest') = some (c, rest) :=
    Clause.read?_eq_some_iff.2 ⟨he.symm, h⟩
  rw [Clause.read?_eq_some_iff.2 ⟨rfl, h'⟩] at hread
  simp only [Option.some.injEq, Prod.mk.injEq] at hread
  exact ⟨hread.1.symm, hread.2.symm⟩

/-- The two places of the first occurrence settle all of it. -/
theorem First.unique {t before before' rest rest' : Text} {o o' : Occurrence}
    (h : First t before o rest) (h' : First t before' o' rest') :
    before = before' ∧ o = o' ∧ rest = rest' := by
  have hbefore : before.length = before'.length :=
    Nat.le_antisymm (h.leftmost _ _ _ h'.stands) (h'.leftmost _ _ _ h.stands)
  have ht : before ++ (o.text ++ rest) = before' ++ (o'.text ++ rest') := by
    rw [← List.append_assoc, ← h.stands.text, ← List.append_assoc, ← h'.stands.text]
  obtain ⟨rfl, ho⟩ := List.append_inj ht hbefore
  have hnames : o.names.length = o'.names.length :=
    Nat.le_antisymm (h.nearest _ _ h'.stands) (h'.nearest _ _ h.stands)
  rw [Occurrence.text_eq, Occurrence.text_eq, List.append_assoc, List.append_assoc,
    List.append_assoc, List.append_assoc] at ho
  obtain ⟨hn, hc⟩ := List.append_inj (List.append_cancel_left ho) hnames
  obtain ⟨hclause, hrest⟩ := h.stands.valid.clause.unique h'.stands.valid.clause hc
  refine ⟨rfl, ?_, hrest⟩
  calc o = ⟨o.names, o.clause⟩ := rfl
    _ = ⟨o'.names, o'.clause⟩ := by rw [hn, hclause]

/-- **A text has one leftmost cut.** -/
theorem Cut.unique {t : Text} {s s' : Segmented} (h : Cut t s) (h' : Cut t s') : s = s' := by
  induction h generalizing s' with
  | last none_left =>
    cases h' with
    | last => rfl
    | next first _ => exact absurd first.stands (none_left _ _ _)
  | next first _ ih =>
    cases h' with
    | last none_left => exact absurd first.stands (none_left _ _ _)
    | next first' hrest =>
      obtain ⟨rfl, rfl, rfl⟩ := first.unique first'
      rw [ih hrest]

/-- Every occurrence of a cut is one. -/
theorem Cut.valid_of_mem {t : Text} {s : Segmented} (h : Cut t s) {x : Text × Occurrence}
    (hx : x ∈ s.pieces) : x.2.Valid := by
  induction h with
  | last => cases hx
  | next first _ ih =>
    rcases List.mem_cons.1 hx with rfl | hx
    · exact first.stands.valid
    · exact ih hx

end ImportAlias.Import

namespace ImportAlias.Alias

open Import

/-- **An edit fills the leftmost cut.** A text has exactly one leftmost cut. Whatever the alias
and the file are, an edit puts the alias form of each specifier in its place and keeps all
else; it counts the specifiers that are spelled differently and compares the two texts. -/
theorem edit_fills_cut (t : Text) :
    ∃ s, Cut t s ∧ (∀ s', Cut t s' → s' = s) ∧ s.text = t ∧
      ∀ (a : Alias) (cwd : Location) (p : Path),
        let f := Specifier.resolve (a.pathFromRoot cwd p).directories a.spelling
        let e := a.edit cwd p t
        e.text = s.mapSpecs f ∧
        e.replacements = s.pieces.countP (fun x => f x.2.spec ≠ x.2.spec) ∧
        (e.changed = true ↔ e.text ≠ t) := by
  refine ⟨segment t, cut_segment t, fun s' h => h.unique (cut_segment t), text_segment t, ?_⟩
  intro a cwd p f e
  have hcount : e.replacements = (segment t).specs.countP fun spec => f spec ≠ spec := rfl
  refine ⟨rfl, ?_, ?_⟩
  · rw [hcount, Segmented.specs, List.countP_map]
    rfl
  · rw [changed_edit]
    exact decide_eq_true_iff

end ImportAlias.Alias
