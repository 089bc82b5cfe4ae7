import ImportAlias.Import.Occurrence

/-!
# Reading in one pass

`segment` takes the leftmost `import` from which a relative clause can be reached,
goes to the nearest such clause, and starts again after it. The same cut is made by
a reader that never looks back and remembers one thing: whether an import is *live*,
that is, whether `import` stands before this place with no semicolon in between. A
relative clause that is met while an import is live is one whose specifier is to be
replaced, and after it no import is live.

## The model

A text that was read is a list of marks: characters that are kept and specifiers.
`Reads live t ms` is the reader as a relation, one rule for each thing it can do.
`reads_segment` says that the cut of `segment` is what the reader does, and
`Reads.unique` that there is nothing else it can do.
-/

namespace ImportAlias.Import

/-! ### Where a relative specifier starts -/

theorem isBlank_of_isQuote {c : Char} (h : isQuote c) : isBlank c = false := by
  simp only [isQuote, Bool.or_eq_true, decide_eq_true_eq] at h
  rcases h with rfl | rfl <;> decide

/-- A text has no quote in it. -/
def QuoteFree (t : Text) : Prop := ∀ c ∈ t, isQuote c = false

instance (t : Text) : Decidable (QuoteFree t) :=
  decidable_of_iff (t.all (! isQuote ·)) (by simp [QuoteFree])

theorem QuoteFree.false_of_mem {t : Text} (h : QuoteFree t) {c : Char} (hc : c ∈ t)
    (hq : isQuote c) : False := by
  rw [h c hc] at hq
  cases hq

theorem QuoteFree.append {s t : Text} (hs : QuoteFree s) (ht : QuoteFree t) : QuoteFree (s ++ t) := by
  intro c hc
  rcases List.mem_append.1 hc with hc | hc
  · exact hs c hc
  · exact ht c hc

theorem QuoteFree.of_suffix {s t : Text} (ht : QuoteFree t) (h : s <:+ t) : QuoteFree s :=
  fun c hc => ht c (h.subset hc)

/-- The first quote of a text is in one place. -/
theorem append_quote_inj {x x' y y' : Text} {q q' : Char} (hx : QuoteFree x)
    (hx' : QuoteFree x') (hq : isQuote q) (hq' : isQuote q')
    (h : x ++ q :: y = x' ++ q' :: y') : x = x' ∧ q = q' ∧ y = y' := by
  induction x generalizing x' with
  | nil =>
    cases x' with
    | nil => simpa using h
    | cons c x' =>
      simp only [List.nil_append, List.cons_append, List.cons.injEq] at h
      rw [h.1, hx' c (by simp)] at hq
      cases hq
  | cons c x ih =>
    cases x' with
    | nil =>
      simp only [List.nil_append, List.cons_append, List.cons.injEq] at h
      rw [← h.1, hx c (by simp)] at hq'
      cases hq'
    | cons c' x' =>
      simp only [List.cons_append, List.cons.injEq] at h
      obtain ⟨rfl, h⟩ := h
      obtain ⟨rfl, hqq, hy⟩ := ih (fun c hc => hx c (List.mem_cons_of_mem _ hc))
        (fun c hc => hx' c (List.mem_cons_of_mem _ hc)) h
      exact ⟨rfl, hqq, hy⟩

/-- `Opens gap q`: between `from` and a specifier stand the white space `gap`, of which
there is some, and the quote `q`. -/
structure Opens (gap : Text) (q : Char) : Prop where
  nonempty : gap ≠ []
  blank : ∀ c ∈ gap, isBlank c
  quote : isQuote q

instance (gap : Text) (q : Char) : Decidable (Opens gap q) :=
  decidable_of_iff (gap ≠ [] ∧ gap.all isBlank ∧ isQuote q)
    ⟨fun h => ⟨h.1, List.all_eq_true.1 h.2.1, h.2.2⟩,
      fun h => ⟨h.nonempty, List.all_eq_true.2 h.blank, h.quote⟩⟩

theorem Opens.quoteFree {gap : Text} {q : Char} (h : Opens gap q) : QuoteFree (fromWord ++ gap) := by
  refine QuoteFree.append (by decide) fun c hc => ?_
  cases hq : isQuote c with
  | false => rfl
  | true => rw [← isBlank_of_isQuote hq, h.blank c hc]

/-- What stands between `from` and a specifier is white space and a quote. -/
theorem Opens.not_mem {gap : Text} {q : Char} (h : Opens gap q) {x : Char}
    (hb : isBlank x = false) (hq : isQuote x = false) : x ∉ gap ∧ x ≠ q := by
  refine ⟨fun hm => ?_, fun e => ?_⟩
  · rw [h.blank x hm] at hb
    cases hb
  · rw [e, h.quote] at hq
    cases hq

theorem opening?_eq_some_iff {t gap rest : Text} {q : Char} :
    opening? t = some (gap, q, rest) ↔
      t = fromWord ++ gap ++ q :: rest ∧ Opens gap q ∧ (after? Specifier.parentStep rest).isSome := by
  constructor
  · intro h
    obtain ⟨ht, hne, hb, hq, hs⟩ := opening?_eq_some h
    exact ⟨ht, ⟨hne, List.all_eq_true.1 hb, hq⟩, hs⟩
  · rintro ⟨rfl, ⟨hne, hb, hq⟩, hs⟩
    have hqb : isBlank q = false := isBlank_of_isQuote hq
    unfold opening?
    rw [List.append_assoc, after?_append]
    have hd : (gap ++ q :: rest).dropWhile isBlank = q :: rest := by
      rw [List.dropWhile_append_of_pos hb, List.dropWhile_cons_of_neg (by simp [hqb])]
    have htk : (gap ++ q :: rest).takeWhile isBlank = gap := by
      rw [List.takeWhile_append_of_pos hb, List.takeWhile_cons_of_neg (by simp [hqb]),
        List.append_nil]
    simp [hd, htk, hne, hq, hs]

/-- A relative specifier starts where `from`, white space, a quote and `../` stand. -/
theorem opensRelative_iff {t : Text} :
    opensRelative t ↔
      ∃ gap q v, t = fromWord ++ gap ++ q :: (Specifier.parentStep ++ v) ∧ Opens gap q := by
  constructor
  · intro h
    obtain ⟨⟨gap, q, rest⟩, hr⟩ := Option.isSome_iff_exists.1 h
    obtain ⟨ht, ho, hs⟩ := opening?_eq_some_iff.1 hr
    obtain ⟨v, hv⟩ := Option.isSome_iff_exists.1 hs
    exact ⟨gap, q, v, by rw [ht, after?_eq_some_iff.1 hv], ho⟩
  · rintro ⟨gap, q, v, rfl, ho⟩
    have hs : (after? Specifier.parentStep (Specifier.parentStep ++ v)).isSome := by
      rw [after?_append]; rfl
    exact Option.isSome_iff_exists.2 ⟨_, opening?_eq_some_iff.2 ⟨rfl, ho, hs⟩⟩

/-- What makes a clause: its opening, a relative specifier without a quote, and a quote. -/
structure Clause.Valid (c : Clause) : Prop where
  opens : Opens c.gap c.openQuote
  relative : ∃ v, c.spec = Specifier.parentStep ++ v
  quoteFree : QuoteFree c.spec
  closes : isQuote c.closeQuote

/-- Reading a clause takes exactly a clause off the text. -/
theorem Clause.read?_eq_some_iff {t rest : Text} {c : Clause} :
    Clause.read? t = some (c, rest) ↔ t = c.text ++ rest ∧ c.Valid := by
  constructor
  · intro h
    refine ⟨Clause.text_of_read? h, ?_⟩
    unfold Clause.read? at h
    split at h
    · simp at h
    · next gap q t₁ h₁ =>
      obtain ⟨-, ho, hs⟩ := opening?_eq_some_iff.1 h₁
      obtain ⟨v, hv⟩ := Option.isSome_iff_exists.1 hs
      rw [after?_eq_some_iff] at hv
      split at h
      · simp at h
      · next q' rest' hd =>
        simp only [Option.some.injEq, Prod.mk.injEq] at h
        obtain ⟨rfl, rfl⟩ := h
        refine ⟨ho, ⟨v.takeWhile (! isQuote ·), ?_⟩, ?_, ?_⟩
        · rw [hv]
          exact List.takeWhile_append_of_pos (by simp [Specifier.parentStep, isQuote])
        · intro x hx
          simpa using List.all_eq_true.1 List.all_takeWhile x hx
        · have := List.head?_dropWhile_not (! isQuote ·) t₁
          rw [hd] at this
          simpa using this
  · rintro ⟨rfl, ho, ⟨v, hv⟩, hf, hq⟩
    have hopen : opening? (c.text ++ rest) =
        some (c.gap, c.openQuote, c.spec ++ c.closeQuote :: rest) := by
      refine opening?_eq_some_iff.2 ⟨by simp [Clause.text, Clause.head], ho, ?_⟩
      rw [hv, List.append_assoc, after?_append]
      rfl
    have hf' : ∀ x ∈ c.spec, (! isQuote x) = true := fun x hx => by simp [hf x hx]
    have hd : (c.spec ++ c.closeQuote :: rest).dropWhile (! isQuote ·) = c.closeQuote :: rest := by
      rw [List.dropWhile_append_of_pos hf', List.dropWhile_cons_of_neg (by simp [hq])]
    have htk : (c.spec ++ c.closeQuote :: rest).takeWhile (! isQuote ·) = c.spec := by
      rw [List.takeWhile_append_of_pos hf', List.takeWhile_cons_of_neg (by simp [hq]),
        List.append_nil]
    unfold Clause.read?
    rw [hopen]
    simp only [hd, htk]

/-- A clause can be read where a relative specifier starts and a quote comes later. -/
theorem Clause.isSome_read?_iff {t : Text} :
    (Clause.read? t).isSome ↔
      ∃ gap q v, t = fromWord ++ gap ++ q :: (Specifier.parentStep ++ v) ∧ Opens gap q ∧
        ∃ c ∈ v, isQuote c := by
  constructor
  · intro h
    obtain ⟨⟨c, rest⟩, hr⟩ := Option.isSome_iff_exists.1 h
    obtain ⟨rfl, ho, ⟨v, hv⟩, -, hq⟩ := Clause.read?_eq_some_iff.1 hr
    exact ⟨c.gap, c.openQuote, v ++ c.closeQuote :: rest, by simp [Clause.text, Clause.head, hv],
      ho, c.closeQuote, by simp, hq⟩
  · rintro ⟨gap, q, v, rfl, ho, c, hc, hq⟩
    obtain ⟨q', hq'⟩ := Option.isSome_iff_exists.1 (List.find?_isSome.2 ⟨c, hc, hq⟩)
    obtain ⟨hquote, s, rest, rfl, hs⟩ := List.find?_eq_some_iff_append.1 hq'
    have hfree : QuoteFree (Specifier.parentStep ++ s) :=
      QuoteFree.append (by decide) fun x hx => by simpa using hs x hx
    have : Clause.read? (fromWord ++ gap ++ q :: (Specifier.parentStep ++ (s ++ q' :: rest))) =
        some (⟨gap, q, Specifier.parentStep ++ s, q'⟩, rest) :=
      Clause.read?_eq_some_iff.2 ⟨by simp [Clause.text, Clause.head], ho, ⟨s, rfl⟩, hfree, hquote⟩
    rw [this]
    rfl

/-! ### Marks -/

/-- A piece of a text that was read. -/
inductive Mark where
  /-- A character that stays. -/
  | kept (c : Char)
  /-- A specifier that is to be replaced. -/
  | spec (s : Text)
deriving DecidableEq, Repr

/-- The characters of a text, all of them kept. -/
def plain (t : Text) : List Mark := t.map .kept

@[simp] theorem plain_nil : plain [] = [] := rfl

@[simp] theorem plain_cons (c : Char) (t : Text) : plain (c :: t) = .kept c :: plain t := rfl

@[simp] theorem plain_append (s t : Text) : plain (s ++ t) = plain s ++ plain t := by simp [plain]

/-- The text that marks stand for when each specifier is replaced. -/
def fill (f : Text → Text) : List Mark → Text
  | [] => []
  | .kept c :: ms => c :: fill f ms
  | .spec s :: ms => f s ++ fill f ms

/-- The specifiers among marks. -/
def specsOf : List Mark → List Text
  | [] => []
  | .kept _ :: ms => specsOf ms
  | .spec s :: ms => s :: specsOf ms

@[simp] theorem fill_append (f : Text → Text) (ms ns : List Mark) :
    fill f (ms ++ ns) = fill f ms ++ fill f ns := by
  induction ms with
  | nil => rfl
  | cons m ms ih => cases m <;> simp [fill, ih]

@[simp] theorem fill_plain (f : Text → Text) (t : Text) : fill f (plain t) = t := by
  induction t with
  | nil => rfl
  | cons c t ih => simp [fill, ih]

theorem fill_congr {f g : Text → Text} {ms : List Mark} (h : ∀ s ∈ specsOf ms, f s = g s) :
    fill f ms = fill g ms := by
  induction ms with
  | nil => rfl
  | cons m ms ih =>
    cases m with
    | kept c => rw [fill, fill, ih h]
    | spec s =>
      rw [fill, fill, h s List.mem_cons_self, ih fun s' hs => h s' (List.mem_cons_of_mem _ hs)]

@[simp] theorem specsOf_append (ms ns : List Mark) :
    specsOf (ms ++ ns) = specsOf ms ++ specsOf ns := by
  induction ms with
  | nil => rfl
  | cons m ms ih => cases m <;> simp [specsOf, ih]

@[simp] theorem specsOf_plain (t : Text) : specsOf (plain t) = [] := by
  induction t with
  | nil => rfl
  | cons c t ih => simpa [specsOf] using ih

/-- The marks of a clause: only its specifier is to be replaced. -/
def Clause.marks (c : Clause) : List Mark := plain c.head ++ [.spec c.spec, .kept c.closeQuote]

/-- The marks of an occurrence. -/
def Occurrence.marks (o : Occurrence) : List Mark := plain (importWord ++ o.names) ++ o.clause.marks

/-- The marks of a text that was cut. -/
def Segmented.marks (s : Segmented) : List Mark :=
  s.pieces.flatMap (fun p => plain p.1 ++ p.2.marks) ++ plain s.rest

theorem Clause.fill_marks (f : Text → Text) (c : Clause) :
    fill f c.marks = c.head ++ f c.spec ++ [c.closeQuote] := by
  simp [Clause.marks, fill]

@[simp] theorem Clause.specsOf_marks (c : Clause) : specsOf c.marks = [c.spec] := by
  simp [Clause.marks, specsOf]

theorem Occurrence.fill_marks (f : Text → Text) (o : Occurrence) :
    fill f o.marks = o.withSpec (f o.spec) := by
  simp [Occurrence.marks, Occurrence.withSpec, Occurrence.spec, Clause.fill_marks]

theorem Segmented.mapSpecs_eq_fill (f : Text → Text) (s : Segmented) :
    s.mapSpecs f = fill f s.marks := by
  obtain ⟨pieces, rest⟩ := s
  simp only [Segmented.mapSpecs, Segmented.marks, fill_append, fill_plain]
  congr 1
  induction pieces with
  | nil => rfl
  | cons p ps ih =>
    simp only [List.flatMap_cons, fill_append, fill_plain, Occurrence.fill_marks, ih]

theorem Segmented.specs_eq_specsOf (s : Segmented) : s.specs = specsOf s.marks := by
  obtain ⟨pieces, rest⟩ := s
  simp only [Segmented.specs, Segmented.marks, specsOf_append, specsOf_plain, List.append_nil]
  induction pieces with
  | nil => rfl
  | cons p ps ih =>
    have hp : specsOf p.2.marks = [p.2.spec] := by
      simp [Occurrence.marks, Occurrence.spec]
    simp only [List.map_cons, List.flatMap_cons, specsOf_append, specsOf_plain, hp, ih]
    rfl

/-! ### The reader -/

/-- Whether an import is live after the first character of a text: a semicolon ends it
and the word `import` begins it. -/
def liveAfter (live : Bool) (c : Char) (t : Text) : Bool :=
  c ≠ ';' && (live || (after? importWord (c :: t)).isSome)

/-- `Reads live t ms`: from a place where an import is live or not, the text `t` is read
as the marks `ms`. -/
inductive Reads : Bool → Text → List Mark → Prop where
  /-- There is nothing to read. -/
  | done {live : Bool} : Reads live [] []
  /-- No clause that a live import could reach starts here: the character is kept. -/
  | keep {live : Bool} {c : Char} {t : Text} {ms : List Mark}
      (none_here : live = true → Clause.read? (c :: t) = none) :
      Reads (liveAfter live c t) t ms → Reads live (c :: t) (.kept c :: ms)
  /-- A live import reaches the clause that starts here, and ends with it. -/
  | clause {t rest : Text} {c : Clause} {ms : List Mark} (here : Clause.read? t = some (c, rest)) :
      Reads false rest ms → Reads true t (c.marks ++ ms)

/-- Reading a text leaves nothing out: with every specifier as it was, the marks spell
the text. -/
theorem Reads.fill_id {live : Bool} {t : Text} {ms : List Mark} (h : Reads live t ms) :
    fill id ms = t := by
  induction h with
  | done => rfl
  | keep _ _ ih => simp [fill, ih]
  | clause here _ ih => simp [Clause.fill_marks, ih, Clause.text_of_read? here, Clause.text]

/-- There is one way to read a text. -/
theorem Reads.unique {live : Bool} {t : Text} {ms ns : List Mark} (h : Reads live t ms)
    (h' : Reads live t ns) : ms = ns := by
  induction h generalizing ns with
  | done =>
    cases h' with
    | done => rfl
    | clause here _ => simp [Clause.read?, opening?, after?, fromWord] at here
  | keep none_here _ ih =>
    cases h' with
    | keep _ h' => rw [ih h']
    | clause here _ => rw [none_here rfl] at here; cases here
  | clause here _ ih =>
    generalize hl : true = live at h'
    cases h' with
    | done => simp [Clause.read?, opening?, after?, fromWord] at here
    | keep none_here _ => rw [none_here hl.symm] at here; cases here
    | clause here' h' =>
      rw [here] at here'
      simp only [Option.some.injEq, Prod.mk.injEq] at here'
      obtain ⟨rfl, rfl⟩ := here'
      rw [ih h']

/-! ### The cut of a text is what the reader does -/

theorem Clause.read?_eq_none_of_nearestClause? {t : Text} (h : nearestClause? t = none) :
    Clause.read? t = none := by
  cases t with
  | nil => rfl
  | cons c t =>
    rw [nearestClause?] at h
    split at h
    · cases h
    · assumption

/-- With an import live, the reader goes to the nearest clause. -/
theorem reads_of_nearestClause? {t names rest : Text} {clause : Clause} {ms : List Mark}
    (h : nearestClause? t = some (names, clause, rest)) (hr : Reads false rest ms) :
    Reads true t (plain names ++ clause.marks ++ ms) := by
  induction t generalizing names with
  | nil => simp [nearestClause?] at h
  | cons c t ih =>
    rw [nearestClause?] at h
    split at h
    · next hc =>
      simp only [Option.some.injEq, Prod.mk.injEq] at h
      obtain ⟨rfl, rfl, rfl⟩ := h
      exact .clause hc hr
    · next hc =>
      split at h
      · cases h
      · next hsemi =>
        split at h
        · next hn =>
          simp only [Option.some.injEq, Prod.mk.injEq] at h
          obtain ⟨rfl, rfl, rfl⟩ := h
          refine .keep (fun _ => hc) ?_
          have : liveAfter true c t = true := by simp [liveAfter, hsemi]
          rw [this]
          exact ih hn
        · cases h

/-- Reading the word `import` makes an import live. -/
theorem Reads.importWord {live : Bool} {t : Text} {ms : List Mark} (h : Reads true t ms) :
    Reads live (Import.importWord ++ t) (plain Import.importWord ++ ms) := by
  have hlive : ∀ (l : Bool) (c : Char) (u : Text), c ≠ 'f' → c ≠ ';' →
      (l = true ∨ c :: u = Import.importWord ++ t) → ∀ ns, Reads true u ns →
        Reads l (c :: u) (.kept c :: ns) := by
    intro l c u hf hc hl ns hu
    refine .keep (fun _ => Clause.read?_eq_none_of_ne hf) ?_
    have : liveAfter l c u = true := by
      rcases hl with rfl | hl
      · simp [liveAfter, hc]
      · simp [liveAfter, hc, hl]
    rw [this]
    exact hu
  refine hlive _ _ _ (by decide) (by decide) (.inr rfl) _ ?_
  iterate 5 refine hlive _ _ _ (by decide) (by decide) (.inl rfl) _ ?_
  exact h

/-- The reader finds the leftmost occurrence. -/
theorem reads_of_firstOccurrence? {live : Bool} {t before rest : Text} {o : Occurrence}
    {ms : List Mark} (h : firstOccurrence? t = some (before, o, rest))
    (hl : live = true → nearestClause? t = none) (hr : Reads false rest ms) :
    Reads live t (plain before ++ o.marks ++ ms) := by
  induction t generalizing live before with
  | nil => simp [firstOccurrence?] at h
  | cons c t ih =>
    rw [firstOccurrence?] at h
    split at h
    · next o' rest' ho =>
      simp only [Option.some.injEq, Prod.mk.injEq] at h
      obtain ⟨rfl, rfl, rfl⟩ := h
      unfold Occurrence.read? at ho
      split at ho
      · cases ho
      · next t₁ ht₁ =>
        split at ho
        · cases ho
        · next names clause rest'' hn =>
          simp only [Option.some.injEq, Prod.mk.injEq] at ho
          obtain ⟨rfl, rfl⟩ := ho
          rw [after?_eq_some_iff.1 ht₁]
          simpa [Occurrence.marks] using (reads_of_nearestClause? hn hr).importWord
    · next ho =>
      split at h
      · next hn =>
        simp only [Option.some.injEq, Prod.mk.injEq] at h
        obtain ⟨rfl, rfl, rfl⟩ := h
        exact .keep (fun hlive => Clause.read?_eq_none_of_nearestClause? (hl hlive))
          (ih hn (nearestClause?_eq_none_of_read? hl ho))
      · cases h

/-- The reader keeps a text without an occurrence as it is. -/
theorem reads_of_firstOccurrence?_none {live : Bool} {t : Text} (h : firstOccurrence? t = none)
    (hl : live = true → nearestClause? t = none) : Reads live t (plain t) := by
  induction t generalizing live with
  | nil => exact .done
  | cons c t ih =>
    rw [firstOccurrence?] at h
    split at h
    · cases h
    · next ho =>
      split at h
      · cases h
      · next hn =>
        exact .keep (fun hlive => Clause.read?_eq_none_of_nearestClause? (hl hlive))
          (ih hn (nearestClause?_eq_none_of_read? hl ho))

/-- **The cut of a text is what the reader does**, starting with no import live. -/
theorem reads_segment (t : Text) : Reads false t (segment t).marks := by
  induction hn : t.length using Nat.strongRecOn generalizing t with
  | _ n ih =>
    cases h : firstOccurrence? t with
    | none =>
      rw [segment_of_none h]
      exact reads_of_firstOccurrence?_none h (by simp)
    | some r =>
      obtain ⟨before, o, after⟩ := r
      have hlt := length_lt_of_firstOccurrence? h
      have hnone : false = true → nearestClause? t = none := by simp
      have := reads_of_firstOccurrence? h hnone (ih _ (by omega) after rfl)
      rw [segment_of_some h]
      simpa [Segmented.marks] using this

end ImportAlias.Import
