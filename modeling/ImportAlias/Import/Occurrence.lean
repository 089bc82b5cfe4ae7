import ImportAlias.Import.Clause

/-!
# Import statements in a text

An occurrence is a stretch of text that starts with `import`, goes on without a
semicolon to the nearest relative `from` clause, and ends with that clause.
`segment` cuts a whole text into occurrences and the gaps between them: it takes
the leftmost occurrence, goes on after it, and stops when none is left.
-/

namespace ImportAlias.Import

/-- The word `import`. -/
def importWord : Text := ['i', 'm', 'p', 'o', 'r', 't']

/-- An import statement with a relative specifier. -/
structure Occurrence where
  /-- What stands between `import` and `from`. -/
  names : Text
  /-- The `from` clause. -/
  clause : Clause
deriving DecidableEq, Repr

namespace Occurrence

/-- The specifier. -/
def spec (o : Occurrence) : Text := o.clause.spec

/-- The statement with another specifier. -/
def withSpec (o : Occurrence) (s : Text) : Text :=
  importWord ++ o.names ++ o.clause.head ++ s ++ [o.clause.closeQuote]

/-- The text of the statement. -/
def text (o : Occurrence) : Text := o.withSpec o.spec

end Occurrence

/-! ### Recognition -/

/-- The nearest clause before a semicolon: what stands before it, the clause, and
what follows it. -/
def nearestClause? : Text → Option (Text × Clause × Text)
  | [] => none
  | c :: t =>
    match Clause.read? (c :: t) with
    | some (clause, rest) => some ([], clause, rest)
    | none =>
      if c = ';' then none
      else match nearestClause? t with
        | some (names, clause, rest) => some (c :: names, clause, rest)
        | none => none

/-- The occurrence that a text starts with, and the text after it. -/
def Occurrence.read? (t : Text) : Option (Occurrence × Text) :=
  match after? importWord t with
  | none => none
  | some t₁ =>
    match nearestClause? t₁ with
    | none => none
    | some (names, clause, rest) => some (⟨names, clause⟩, rest)

/-- The leftmost occurrence: what stands before it, the occurrence, and what
follows it. -/
def firstOccurrence? : Text → Option (Text × Occurrence × Text)
  | [] => none
  | c :: t =>
    match Occurrence.read? (c :: t) with
    | some (o, rest) => some ([], o, rest)
    | none =>
      match firstOccurrence? t with
      | some (before, o, rest) => some (c :: before, o, rest)
      | none => none

/-! ### What is recognised is what was there -/

theorem nearestClause?_eq_some {t names rest : Text} {clause : Clause}
    (h : nearestClause? t = some (names, clause, rest)) :
    t = names ++ clause.text ++ rest := by
  induction t generalizing names with
  | nil => simp [nearestClause?] at h
  | cons c t ih =>
    rw [nearestClause?] at h
    split at h
    · next hc =>
      simp only [Option.some.injEq, Prod.mk.injEq] at h
      obtain ⟨rfl, rfl, rfl⟩ := h
      exact Clause.text_of_read? hc
    · split at h
      · simp at h
      · split at h
        · next hn =>
          simp only [Option.some.injEq, Prod.mk.injEq] at h
          obtain ⟨rfl, rfl, rfl⟩ := h
          simp [ih hn]
        · simp at h

theorem Occurrence.text_of_read? {t rest : Text} {o : Occurrence}
    (h : Occurrence.read? t = some (o, rest)) : t = o.text ++ rest := by
  unfold Occurrence.read? at h
  split at h
  · simp at h
  · next t₁ h₁ =>
    split at h
    · simp at h
    · next names clause rest' h₂ =>
      simp only [Option.some.injEq, Prod.mk.injEq] at h
      obtain ⟨rfl, rfl⟩ := h
      rw [after?_eq_some_iff.1 h₁, nearestClause?_eq_some h₂]
      simp [Occurrence.text, Occurrence.withSpec, Occurrence.spec, Clause.text]

theorem firstOccurrence?_eq_some {t before rest : Text} {o : Occurrence}
    (h : firstOccurrence? t = some (before, o, rest)) : t = before ++ o.text ++ rest := by
  induction t generalizing before with
  | nil => simp [firstOccurrence?] at h
  | cons c t ih =>
    rw [firstOccurrence?] at h
    split at h
    · next ho =>
      simp only [Option.some.injEq, Prod.mk.injEq] at h
      obtain ⟨rfl, rfl, rfl⟩ := h
      exact Occurrence.text_of_read? ho
    · split at h
      · next hn =>
        simp only [Option.some.injEq, Prod.mk.injEq] at h
        obtain ⟨rfl, rfl, rfl⟩ := h
        simp [ih hn]
      · simp at h

theorem length_lt_of_firstOccurrence? {t before rest : Text} {o : Occurrence}
    (h : firstOccurrence? t = some (before, o, rest)) : rest.length < t.length := by
  rw [firstOccurrence?_eq_some h]
  simp [Occurrence.text, Occurrence.withSpec, importWord]
  omega

/-! ### Recognition in one pass

Where an `import` has no clause before the next semicolon, no other `import` before
that semicolon has one. So the search need not look for it again.
-/

/-- The leftmost occurrence, as `firstOccurrence?` finds it. `barren` says that there is
no clause before the next semicolon. -/
def findOccurrence? (barren : Bool) : Text → Option (Text × Occurrence × Text)
  | [] => none
  | c :: t =>
    match if barren then none else Occurrence.read? (c :: t) with
    | some (o, rest) => some ([], o, rest)
    | none =>
      match findOccurrence? (c ≠ ';' && (barren || (after? importWord (c :: t)).isSome)) t with
      | some (before, o, rest) => some (c :: before, o, rest)
      | none => none

theorem nearestClause?_tail {c : Char} {t : Text} (h : nearestClause? (c :: t) = none)
    (hc : c ≠ ';') : nearestClause? t = none := by
  rw [nearestClause?] at h
  split at h
  · simp at h
  · rw [if_neg hc] at h
    split at h
    · simp at h
    · assumption

theorem Clause.read?_eq_none_of_ne {c : Char} {t : Text} (h : c ≠ 'f') :
    Clause.read? (c :: t) = none := by
  have : opening? (c :: t) = none := by
    simp [opening?, fromWord, after?, Ne.symm h]
  simp [Clause.read?, this]

theorem nearestClause?_cons {c : Char} {t : Text} (h : nearestClause? t = none) (hf : c ≠ 'f') :
    nearestClause? (c :: t) = none := by
  rw [nearestClause?, Clause.read?_eq_none_of_ne hf, h]
  simp

theorem Occurrence.read?_eq_none {t : Text} (h : nearestClause? t = none) :
    Occurrence.read? t = none := by
  unfold Occurrence.read?
  cases hi : after? importWord t with
  | none => rfl
  | some t₁ =>
    rw [after?_eq_some_iff.1 hi] at h
    have h₁ : nearestClause? t₁ = none := by
      iterate 6 replace h := nearestClause?_tail h (by decide)
      exact h
    simp [h₁]

/-- Where no occurrence starts, an `import` in force before the next character has no
clause before the next semicolon. -/
theorem nearestClause?_eq_none_of_read? {barren : Bool} {c : Char} {t : Text}
    (h : barren = true → nearestClause? (c :: t) = none) (hr : Occurrence.read? (c :: t) = none)
    (hb : (c ≠ ';' && (barren || (after? importWord (c :: t)).isSome)) = true) :
    nearestClause? t = none := by
  simp only [Bool.and_eq_true, decide_eq_true_eq, Bool.or_eq_true] at hb
  obtain ⟨hc, hb | hb⟩ := hb
  · exact nearestClause?_tail (h hb) hc
  · obtain ⟨t₁, ht₁⟩ := Option.isSome_iff_exists.1 hb
    have h₁ : nearestClause? t₁ = none := by
      rw [Occurrence.read?, ht₁] at hr
      cases hn : nearestClause? t₁ with
      | none => rfl
      | some r => simp [hn] at hr
    have ht : t = 'm' :: 'p' :: 'o' :: 'r' :: 't' :: t₁ := by
      have := after?_eq_some_iff.1 ht₁
      simp only [importWord, List.cons_append, List.nil_append, List.cons.injEq] at this
      exact this.2
    rw [ht]
    iterate 5 refine nearestClause?_cons ?_ (by decide)
    exact h₁

/-- Skipping what cannot be an occurrence changes nothing. -/
theorem findOccurrence?_eq {barren : Bool} {t : Text}
    (h : barren = true → nearestClause? t = none) :
    findOccurrence? barren t = firstOccurrence? t := by
  induction t generalizing barren with
  | nil => rfl
  | cons c t ih =>
    have hread : (if barren then none else Occurrence.read? (c :: t)) =
        Occurrence.read? (c :: t) := by
      split
      · next hb => rw [Occurrence.read?_eq_none (h hb)]
      · rfl
    rw [findOccurrence?, firstOccurrence?, hread]
    cases hr : Occurrence.read? (c :: t) with
    | some r => rfl
    | none =>
      have key : findOccurrence? (c ≠ ';' && (barren || (after? importWord (c :: t)).isSome)) t =
          firstOccurrence? t := ih (nearestClause?_eq_none_of_read? h hr)
      rw [key]

theorem findOccurrence?_false (t : Text) : findOccurrence? false t = firstOccurrence? t :=
  findOccurrence?_eq (by simp)

/-! ### Cutting a whole text -/

/-- A text cut into occurrences and gaps. -/
structure Segmented where
  /-- Each occurrence with the gap before it. -/
  pieces : List (Text × Occurrence)
  /-- What follows the last occurrence. -/
  rest : Text
deriving DecidableEq, Repr

/-- Cuts a text into its occurrences, leftmost first and without overlap. -/
def segment (t : Text) : Segmented :=
  match h : findOccurrence? false t with
  | none => ⟨[], t⟩
  | some (before, o, after) =>
    have := length_lt_of_firstOccurrence? (findOccurrence?_false t ▸ h)
    let s := segment after
    ⟨(before, o) :: s.pieces, s.rest⟩
termination_by t.length

namespace Segmented

/-- The specifiers, in order. -/
def specs (s : Segmented) : List Text := s.pieces.map (·.2.spec)

/-- The text with every specifier mapped and all else as it was. -/
def mapSpecs (f : Text → Text) (s : Segmented) : Text :=
  s.pieces.flatMap (fun p => p.1 ++ p.2.withSpec (f p.2.spec)) ++ s.rest

/-- The text that was cut. -/
def text (s : Segmented) : Text := s.mapSpecs id

end Segmented

theorem segment_of_none {t : Text} (h : firstOccurrence? t = none) : segment t = ⟨[], t⟩ := by
  rw [segment]
  split
  · rfl
  · next h' => simp [findOccurrence?_false, h] at h'

theorem segment_of_some {t before after : Text} {o : Occurrence}
    (h : firstOccurrence? t = some (before, o, after)) :
    segment t = ⟨(before, o) :: (segment after).pieces, (segment after).rest⟩ := by
  rw [segment]
  split
  · next h' => simp [findOccurrence?_false, h] at h'
  · next h' =>
    rw [findOccurrence?_false, h] at h'
    simp only [Option.some.injEq, Prod.mk.injEq] at h'
    obtain ⟨rfl, rfl, rfl⟩ := h'
    rfl

/-- Cutting a text loses nothing. -/
theorem text_segment (t : Text) : (segment t).text = t := by
  induction hn : t.length using Nat.strongRecOn generalizing t with
  | _ n ih =>
    cases h : firstOccurrence? t with
    | none => simp [segment_of_none h, Segmented.text, Segmented.mapSpecs]
    | some r =>
      obtain ⟨before, o, after⟩ := r
      have hlt := length_lt_of_firstOccurrence? h
      have := ih after.length (by omega) after rfl
      rw [segment_of_some h]
      simp only [Segmented.text, Segmented.mapSpecs, List.flatMap_cons, List.append_assoc] at this ⊢
      rw [this, firstOccurrence?_eq_some h]
      simp [Occurrence.text]

end ImportAlias.Import
