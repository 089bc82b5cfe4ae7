import ImportAlias.Proofs.LeftmostCut

/-!
# Statements apart

A semicolon ends a statement, and what an edit does before it has nothing to do with what
comes after it. Only the specifier of a clause may run on past a semicolon, up to the next
quote. Where every relative specifier that starts before the semicolon is also closed before
it, the text on either side is edited as if the other side were not there.

## The model

`Closed t` is that each relative specifier that starts in `t` is closed in `t`.
`Closed.read?_append` says that in such a text the reader sees the same clauses whatever
follows a semicolon, `Reads.append_semicolon` that it reads the two sides one after the
other, and the statements on edits are read off the marks.
-/

namespace ImportAlias.Import

/-! ### Texts in which no specifier is left open -/

/-- Every relative specifier that starts in a text is followed in it by a quote. -/
def Closed (t : Text) : Prop :=
  ∀ u gap q v, t = u ++ (fromWord ++ gap ++ q :: (Specifier.parentStep ++ v)) → Opens gap q →
    ∃ c ∈ v, isQuote c

theorem Closed.of_suffix {s t : Text} (h : Closed t) (hs : s <:+ t) : Closed s := by
  obtain ⟨x, rfl⟩ := hs
  intro u gap q v he ho
  exact h (x ++ u) gap q v (by rw [he, ← List.append_assoc]) ho

/-- A text is closed if a clause can be read wherever a relative specifier starts. -/
theorem closed_cons_iff {c : Char} {t : Text} :
    Closed (c :: t) ↔
      (opensRelative (c :: t) = true → (Clause.read? (c :: t)).isSome) ∧ Closed t := by
  constructor
  · intro h
    refine ⟨fun hopen => ?_, h.of_suffix (List.suffix_cons c t)⟩
    obtain ⟨gap, q, v, ht, ho⟩ := opensRelative_iff.1 hopen
    exact Clause.isSome_read?_iff.2 ⟨gap, q, v, ht, ho, h [] gap q v ht ho⟩
  · rintro ⟨hread, h⟩ u gap q v ht ho
    cases u with
    | nil =>
      obtain ⟨gap', q', v', ht', ho', hv'⟩ :=
        Clause.isSome_read?_iff.1 (hread (opensRelative_iff.2 ⟨gap, q, v, ht, ho⟩))
      obtain ⟨-, -, he⟩ := append_quote_inj ho.quoteFree ho'.quoteFree ho.quote ho'.quote
        (ht.symm.trans ht')
      rw [List.append_cancel_left he]
      exact hv'
    | cons d u => exact h u gap q v (List.cons.inj ht).2 ho

instance decidableClosed : (t : Text) → Decidable (Closed t)
  | [] => isTrue fun u gap q v h => by simp [fromWord] at h
  | _ :: t =>
    have := decidableClosed t
    decidable_of_iff' _ closed_cons_iff

/-! ### Reading up to a semicolon -/

/-- Whether an import is live after a character does not depend on what follows a semicolon. -/
theorem liveAfter_append_semicolon (live : Bool) (c : Char) (s r : Text) :
    liveAfter live c (s ++ ';' :: r) = liveAfter live c s := by
  have hword : ';' ∉ importWord := by decide
  rw [liveAfter, liveAfter, ← List.cons_append, isSome_after?_append_cons hword]

/-- The opening of a clause has no semicolon. -/
theorem Opens.not_mem_semicolon {gap : Text} {q : Char} (h : Opens gap q) :
    ';' ∉ fromWord ++ gap ++ q :: Specifier.parentStep := by
  obtain ⟨hgap, hquote⟩ := h.not_mem (x := ';') (by decide) (by decide)
  simp [fromWord, Specifier.parentStep, hgap, hquote]

/-- In a closed text the same clause is read, or none, whatever follows a semicolon. -/
theorem Closed.read?_append {s : Text} (h : Closed s) (r : Text) :
    Clause.read? (s ++ ';' :: r) =
      (Clause.read? s).map fun x => (x.1, x.2 ++ ';' :: r) := by
  cases hs : Clause.read? s with
  | some x =>
    obtain ⟨c, rest⟩ := x
    obtain ⟨rfl, hv⟩ := Clause.read?_eq_some_iff.1 hs
    exact Clause.read?_eq_some_iff.2 ⟨List.append_assoc .., hv⟩
  | none =>
    rw [Option.map_none, ← Option.not_isSome_iff_eq_none]
    intro hsome
    obtain ⟨gap, q, v, he, ho, -⟩ := Clause.isSome_read?_iff.1 hsome
    -- the opening has no semicolon, so it lies before this one, and a quote follows it there
    have hopen : (after? (fromWord ++ gap ++ q :: Specifier.parentStep) s).isSome := by
      rw [← isSome_after?_append_cons ho.not_mem_semicolon s r, Option.isSome_iff_exists]
      exact ⟨v, after?_eq_some_iff.2 (by simp [he])⟩
    obtain ⟨y, hy⟩ := Option.isSome_iff_exists.1 hopen
    obtain rfl := after?_eq_some_iff.1 hy
    have hquote := h [] gap q y (by simp) ho
    have hread := Clause.isSome_read?_iff.2 ⟨gap, q, y, rfl, ho, hquote⟩
    simp only [List.append_assoc, List.cons_append] at hs hread
    rw [hs] at hread
    cases hread

/-- **A semicolon keeps readings apart**: after a closed text and a semicolon, the reader
starts as it would at the beginning. -/
theorem Reads.append_semicolon {live : Bool} {s t : Text} {ms ns : List Mark}
    (hs : Reads live s ms) (hc : Closed s) (ht : Reads false t ns) :
    Reads live (s ++ ';' :: t) (ms ++ .kept ';' :: ns) := by
  induction hs with
  | @done live =>
    refine .keep (fun _ => Clause.read?_eq_none_of_ne (by decide)) ?_
    have hlive : liveAfter live ';' t = false := by simp [liveAfter]
    rw [hlive]
    exact ht
  | @keep live c s ms none_here _ ih =>
    rw [List.cons_append, List.cons_append]
    refine .keep (fun hlive => ?_) ?_
    · rw [← List.cons_append, hc.read?_append, none_here hlive]
      rfl
    · rw [liveAfter_append_semicolon]
      exact ih (hc.of_suffix (List.suffix_cons c s))
  | @clause s rest c ms here _ ih =>
    have hrest : rest <:+ s := ⟨c.text, (Clause.text_of_read? here).symm⟩
    have hread : Clause.read? (s ++ ';' :: t) = some (c, rest ++ ';' :: t) := by
      rw [hc.read?_append, here]
      rfl
    rw [List.append_assoc]
    exact .clause hread (ih (hc.of_suffix hrest))

end ImportAlias.Import

namespace ImportAlias.Alias

open Import

/-- An edit of a closed text, a semicolon and any text is an edit of each of the two. -/
theorem edit_closed (a : Alias) (cwd : Location) (p : Path) {s : Text} (hs : Closed s) (t : Text) :
    (a.edit cwd p (s ++ ';' :: t)).text = (a.edit cwd p s).text ++ ';' :: (a.edit cwd p t).text ∧
      (a.edit cwd p (s ++ ';' :: t)).replacements =
        (a.edit cwd p s).replacements + (a.edit cwd p t).replacements := by
  have hr := (reads_segment s).append_semicolon hs (reads_segment t)
  rw [edit_of_reads hr, edit_of_reads (reads_segment s), edit_of_reads (reads_segment t)]
  simp [fill, specsOf]

/-- **Statement locality.** If every relative specifier that starts in `s` is closed in `s`, an
edit of `s`, a semicolon and `t` is the edit of `s` and the semicolon followed by the edit of
`t`. The counts add up, and without quotes in the alias and the directories the whole is
changed if and only if one of the parts is. No statement that is changed starts before a
semicolon and has its clause after it. -/
theorem edit_append_semicolon (a : Alias) (cwd : Location) (p : Path) (s t : Text)
    (hs : Closed s) :
    let whole := a.edit cwd p (s ++ ';' :: t)
    let first := a.edit cwd p (s ++ [';'])
    let second := a.edit cwd p t
    whole.text = first.text ++ second.text ∧
    whole.replacements = first.replacements + second.replacements ∧
    (QuoteFree a.spelling → (∀ d ∈ a.directories cwd p, QuoteFree d) →
      whole.changed = (first.changed || second.changed)) ∧
    ∀ x ∈ (segment (s ++ ';' :: t)).pieces, ';' ∉ x.2.names := by
  intro whole first second
  -- the semicolon alone is the case of an empty second text
  have hnil : a.edit cwd p [] = ⟨[], 0, false⟩ := edit_of_reads .done
  obtain ⟨htext, hcount⟩ := a.edit_closed cwd p hs t
  obtain ⟨htext₁, hcount₁⟩ : first.text = (a.edit cwd p s).text ++ [';'] ∧
      first.replacements = (a.edit cwd p s).replacements := by
    have h := a.edit_closed cwd p hs []
    rw [hnil] at h
    exact h
  have hsum : whole.replacements = first.replacements + second.replacements := by
    rw [hcount, hcount₁]
  refine ⟨?_, hsum, fun ha hd => ?_, fun x hx => ((cut_segment _).valid_of_mem hx).no_semicolon⟩
  · rw [htext, htext₁, List.append_assoc]
    rfl
  · rw [Bool.eq_iff_iff, Bool.or_eq_true, changed_iff_replacements_pos ha hd,
      changed_iff_replacements_pos ha hd, changed_iff_replacements_pos ha hd]
    show 0 < whole.replacements ↔ 0 < first.replacements ∨ 0 < second.replacements
    omega

/-- The first specifier has a semicolon in it and is closed all the same. The second import has
no specifier before the semicolon, which keeps it from taking that of the re-export. -/
theorem edit_append_semicolon_reexport :
    let a := (Settings.ofRoot (.ofText "/src".toList)).toAlias []
    let p := Path.ofText "/src/x/y.ts".toList
    let s := "import a from '../a;'import b".toList
    let t := "export * from '../c'".toList
    Closed s ∧ QuoteFree a.spelling ∧ (∀ d ∈ a.directories [] p, QuoteFree d) ∧
      (a.edit [] p (s ++ [';'])).text = "import a from '@/a;'import b;".toList ∧
      (a.edit [] p t).text = t ∧
      (a.edit [] p (s ++ ';' :: t)).text =
        (a.edit [] p (s ++ [';'])).text ++ (a.edit [] p t).text ∧
      (a.edit [] p (s ++ ';' :: t)).replacements = 1 + 0 ∧
      (a.edit [] p (s ++ ';' :: t)).changed = (true || false) := by
  intro a p s t
  have hs : Closed s := by decide +kernel
  have ha : QuoteFree a.spelling := by decide
  have hd : ∀ d ∈ a.directories [] p, QuoteFree d := by decide
  have hfirst : a.edit [] p (s ++ [';']) = ⟨"import a from '@/a;'import b;".toList, 1, true⟩ := by
    decide +kernel
  have hsecond : a.edit [] p t = ⟨t, 0, false⟩ := by decide +kernel
  obtain ⟨htext, hcount, hchanged, -⟩ := edit_append_semicolon a [] p s t hs
  have hboth := hchanged ha hd
  rw [hfirst, hsecond] at hcount hboth
  exact ⟨hs, ha, hd, congrArg Edit.text hfirst, congrArg Edit.text hsecond, htext, hcount, hboth⟩

end ImportAlias.Alias
