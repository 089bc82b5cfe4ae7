import ImportAlias.Proofs.JsonGrammar
import ImportAlias.Proofs.Retelling

/-!
# Reports from their documents

A report has a document unless one of its paths is not a text, and the text of the document tells
the whole report: the paths and what is shown of them, the counts, and how each file fared, in
order. So two reports never have the same text, whatever stands in their paths and errors.

## The model

`Report.ofJson?` reads a document member by member. It takes a missing count of replacements for
none, and it wants an error exactly where a file failed. Which document a text is is for the
grammar to say.
-/

namespace ImportAlias

/-! ### Reading reports -/

/-- The path that a string spells. -/
def Path.ofJson? (j : Json) : Option Path := j.text?.map .ofText

/-- The outcome that a document tells. -/
def Outcome.ofJson? (j : Json) : Option Outcome := do
  let path ← (j.member? "path").bind Path.ofJson?
  let shown ← (j.member? "display_path").bind Json.text?
  let status ← Console.statusOf? j
  let replacements ← match j.member? "replacements" with
    | none => some 0
    | some count => count.number?
  let o : Outcome := ⟨path, shown, status, replacements⟩
  if (j.member? "error").isSome = o.isFailed then some o else none

/-- The report that a document tells. -/
def Report.ofJson? (j : Json) : Option Report := do
  let root ← (j.member? "root").bind Path.ofJson?
  let examined ← (j.member? "examined").bind Json.number?
  let fixed ← (j.member? "rewritten").bind Json.number?
  let unchanged ← (j.member? "unchanged").bind Json.number?
  let failed ← (j.member? "failed").bind Json.number?
  let files ← (j.member? "files").bind Json.items?
  let outcomes ← files.mapM Outcome.ofJson?
  return ⟨root, examined, fixed, unchanged, failed, outcomes⟩

theorem Path.isSome_decode?_iff {p : Path} :
    (Utf8.decode? p.bytes).isSome ↔ ∃ t, p = .ofText t := by
  rw [Option.isSome_iff_exists]
  constructor
  · rintro ⟨t, ht⟩
    exact ⟨t, congrArg Path.mk (Utf8.decode?_eq_some_iff.1 ht)⟩
  · rintro ⟨t, rfl⟩
    exact ⟨t, Utf8.decode?_encode t⟩

theorem Path.ofJson?_of_toJson? {p : Path} {j : Json} (h : p.toJson? = some j) :
    Path.ofJson? j = some p := by
  obtain ⟨t, ht, rfl⟩ := Option.map_eq_some_iff.1 h
  exact congrArg (some ∘ Path.mk) (Utf8.decode?_eq_some_iff.1 ht).symm

theorem Outcome.ofJson?_of_toJson? {o : Outcome} {j : Json} (h : o.toJson? = some j) :
    Outcome.ofJson? j = some o := by
  obtain ⟨path, shown, status, replacements⟩ := o
  obtain ⟨jpath, hpath, rfl⟩ := Option.map_eq_some_iff.1 h
  have hread : Outcome.ofJson? (.object ([("path".toList, jpath),
        ("display_path".toList, .string shown)] ++ status.members ++
        if replacements = 0 then [] else [("replacements".toList, .number replacements)])) =
      (Path.ofJson? jpath).bind fun path => some ⟨path, shown, status, replacements⟩ := by
    -- which members there are depends on the status and on the count alone
    cases replacements <;> cases status <;> rfl
  rw [hread, Path.ofJson?_of_toJson? hpath]
  rfl

theorem Report.ofJson?_of_toJson? {r : Report} {j : Json} (h : r.toJson? = some j) :
    Report.ofJson? j = some r := by
  unfold Report.toJson? at h
  split at h
  · next jroot jfiles hroot hfiles =>
    cases h
    have hread : Report.ofJson? (.object [("root".toList, jroot),
          ("examined".toList, .number r.examined), ("rewritten".toList, .number r.fixed),
          ("unchanged".toList, .number r.unchanged), ("failed".toList, .number r.failed),
          ("files".toList, .array jfiles)]) =
        (Path.ofJson? jroot).bind fun root => (jfiles.mapM Outcome.ofJson?).bind fun files =>
          some ⟨root, r.examined, r.fixed, r.unchanged, r.failed, files⟩ := rfl
    have houtcomes : jfiles.mapM Outcome.ofJson? = some (r.files.map id) :=
      mapM_eq_some_map hfiles fun _ _ => Outcome.ofJson?_of_toJson?
    rw [hread, Path.ofJson?_of_toJson? hroot, houtcomes, List.map_id]
    rfl
  · cases h

theorem Report.toJson?_eq_none_iff {r : Report} :
    r.toJson? = none ↔
      (∀ t, r.root ≠ .ofText t) ∨ ∃ o ∈ r.files, ∀ t, o.path ≠ .ofText t := by
  rw [← Option.not_isSome_iff_eq_none, isSome_toJson?_iff, IsText]
  simp only [Path.isSome_decode?_iff, Classical.not_and_iff_not_or_not, not_exists,
    Classical.not_forall, exists_prop]

/-! ### Reports and texts -/

namespace Report

/-- **The document of a report loses nothing.** A report has none if and only if its root or the
path of some outcome is not a text. If it has one, its layout is a text of that document, with or
without the line break that ends it on the console, and the report is told by every document that
this text is one of. So different reports have different texts. -/
theorem document_tells (r : Report) :
    (r.toJson? = none ↔
      (∀ t, r.root ≠ .ofText t) ∨ ∃ o ∈ r.files, ∀ t, o.path ≠ .ofText t) ∧
    (∀ j, r.toJson? = some j → ∀ text, text = j.pretty ∨ text = j.pretty ++ ['\n'] →
      Json.Document j text ∧ ∀ j', Json.Document j' text → Report.ofJson? j' = some r) ∧
    ∀ r' j j', r.toJson? = some j → r'.toJson? = some j' → j.pretty = j'.pretty → r' = r := by
  have hdocument : ∀ (j : Json) text, text = j.pretty ∨ text = j.pretty ++ ['\n'] →
      Json.Document j text := by
    rintro j _ (rfl | rfl)
    · rw [← List.append_nil j.pretty]
      exact Json.document_pretty j [] rfl
    · exact Json.document_pretty j ['\n'] rfl
  refine ⟨toJson?_eq_none_iff, fun j hj text htext => ?_, fun r' j j' hj hj' htext => ?_⟩
  · refine ⟨hdocument j text htext, fun j' hj' => ?_⟩
    rw [(hdocument j text htext).unique hj']
    exact ofJson?_of_toJson? hj
  · obtain rfl := (hdocument j j.pretty (.inl rfl)).unique (hdocument j' j.pretty (.inl htext))
    exact Option.some.inj ((ofJson?_of_toJson? hj').symm.trans (ofJson?_of_toJson? hj))

/-- A report whose paths and errors are made to look like JSON. -/
def hostile : Report where
  root := .ofText "/w/\"src\\".toList
  examined := 3
  fixed := 10
  unchanged := 0
  failed := 7
  files := [
    ⟨.ofText "/w/a\n\",\"status\":\"failed".toList, "a\t\\u0041\x00\x1f😀".toList, .fixed, 12⟩,
    ⟨.ofText "/w/b".toList, [], .failed "\"\x7d],\"files\":[".toList, 0⟩]

/-- It is told by its text, and with bytes that are no text for its root it has no document. -/
theorem document_tells_hostile :
    (∃ j, hostile.toJson? = some j ∧ Json.Document j j.pretty ∧
      ∀ j', Json.Document j' j.pretty → Report.ofJson? j' = some hostile) ∧
    Report.toJson? { hostile with root := ⟨[0xFF]⟩ } = none := by
  have htext : hostile.IsText := by
    simp [hostile, IsText, Path.ofText]
  obtain ⟨j, hj⟩ := Option.isSome_iff_exists.1 (isSome_toJson?_iff.2 htext)
  obtain ⟨hdocument, htells⟩ := (document_tells hostile).2.1 j hj j.pretty (.inl rfl)
  refine ⟨⟨j, hj, hdocument, htells⟩, (document_tells _).1.2 (.inl fun t ht => ?_)⟩
  have hbytes : Utf8.decode? [0xFF] = none := rfl
  rw [Utf8.decode?_eq_some_iff.2 (congrArg Path.bytes ht)] at hbytes
  cases hbytes

end Report

end ImportAlias
