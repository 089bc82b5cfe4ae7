import ImportAlias.Proofs.Balance
import Mathlib.Data.Set.Card

/-!
# The conservation of relative specifiers

`countRelative` counts relative specifiers as it goes along a text. Here it is said what it
counts: the places of the text at which `from`, white space, a quote and `../` stand. An edit
takes away one such place for each statement that it found, and adds none, so that it changes
a text if and only if there are fewer of them afterwards.
-/

namespace ImportAlias

namespace Import

/-- The places of a text at which a relative specifier starts. -/
def relativePlaces (t : Text) : Set ℕ :=
  {i | ∃ u gap q v, u.length = i ∧
    t = u ++ (fromWord ++ gap ++ q :: (Specifier.parentStep ++ v)) ∧ Opens gap q}

theorem relativePlaces_nil : relativePlaces [] = ∅ := by
  refine Set.eq_empty_of_forall_notMem ?_
  rintro i ⟨u, gap, q, v, -, ht, -⟩
  simp [fromWord] at ht

theorem zero_mem_relativePlaces_iff {t : Text} : 0 ∈ relativePlaces t ↔ opensRelative t := by
  rw [opensRelative_iff]
  constructor
  · rintro ⟨u, gap, q, v, hu, ht, ho⟩
    obtain rfl : u = [] := List.length_eq_zero_iff.1 hu
    exact ⟨gap, q, v, ht, ho⟩
  · rintro ⟨gap, q, v, ht, ho⟩
    exact ⟨[], gap, q, v, rfl, ht, ho⟩

theorem succ_mem_relativePlaces_iff {c : Char} {t : Text} {i : ℕ} :
    i + 1 ∈ relativePlaces (c :: t) ↔ i ∈ relativePlaces t := by
  constructor
  · rintro ⟨u, gap, q, v, hu, ht, ho⟩
    cases u with
    | nil => cases hu
    | cons d u => exact ⟨u, gap, q, v, Nat.succ.inj hu, (List.cons.inj ht).2, ho⟩
  · rintro ⟨u, gap, q, v, rfl, rfl, ho⟩
    exact ⟨c :: u, gap, q, v, rfl, rfl, ho⟩

/-- The places of a text are its first one, if a specifier starts there, and the places of
the rest, each one further on. -/
theorem relativePlaces_cons (c : Char) (t : Text) :
    relativePlaces (c :: t) =
      (if opensRelative (c :: t) then {0} else ∅) ∪ Nat.succ '' relativePlaces t := by
  ext i
  cases i with
  | zero =>
    rw [zero_mem_relativePlaces_iff]
    by_cases h : opensRelative (c :: t) = true <;> simp [h]
  | succ i =>
    rw [succ_mem_relativePlaces_iff]
    by_cases h : opensRelative (c :: t) = true <;> simp [h]

theorem finite_relativePlaces (t : Text) : (relativePlaces t).Finite := by
  refine (Set.finite_le_nat t.length).subset ?_
  rintro i ⟨u, gap, q, v, rfl, rfl, -⟩
  simp

/-- What is counted along a text is the number of its places. -/
theorem ncard_relativePlaces (t : Text) : (relativePlaces t).ncard = countRelative t := by
  induction t with
  | nil => simp [relativePlaces_nil, countRelative]
  | cons c t ih =>
    have hfirst : ((if opensRelative (c :: t) then {0} else ∅ : Set ℕ)).ncard =
        if opensRelative (c :: t) then 1 else 0 := by
      split <;> simp
    have hapart : Disjoint (if opensRelative (c :: t) then {0} else ∅ : Set ℕ)
        (Nat.succ '' relativePlaces t) := by
      split <;> simp
    have hfinite : (if opensRelative (c :: t) then {0} else ∅ : Set ℕ).Finite := by
      split <;> simp
    rw [relativePlaces_cons, Set.ncard_union_eq hapart hfinite ((finite_relativePlaces t).image _),
      Set.ncard_image_of_injective _ Nat.succ_injective, hfirst, ih, countRelative]

end Import

namespace Alias

open Import

/-- **The conservation of relative specifiers.** With a proper alias and directories without
quotes, an edit replaces the specifier of every statement that it finds. What it leaves and
what it replaced are together the relative specifiers of the text; so none is new, and the
text is changed if and only if there are fewer of them now. -/
theorem edit_conserves (a : Alias) (cwd : Location) (p : Path)
    (ha : Specifier.Proper a.spelling) (hd : ∀ d ∈ a.directories cwd p, QuoteFree d) (t : Text) :
    let e := a.edit cwd p t
    (relativePlaces e.text).ncard + e.replacements = (relativePlaces t).ncard ∧
    e.replacements = (segment t).pieces.length ∧
    (relativePlaces e.text).ncard ≤ (relativePlaces t).ncard ∧
    (e.changed = true ↔ (relativePlaces e.text).ncard < (relativePlaces t).ncard) := by
  intro e
  have hbalance : (relativePlaces e.text).ncard + e.replacements = (relativePlaces t).ncard := by
    rw [ncard_relativePlaces, ncard_relativePlaces]
    exact countRelative_edit ha hd t
  have hall : e.replacements = (segment t).pieces.length := by
    rw [replacements_of_reads ha (reads_segment t), ← Segmented.specs_eq_specsOf, Segmented.specs,
      List.length_map]
  refine ⟨hbalance, hall, by omega, ?_⟩
  rw [changed_iff_replacements_pos ha.quoteFree hd]
  show 0 < e.replacements ↔ _
  omega

/-- The first specifier ends with `from`, so that the quote after it opens another one, which
is not part of a statement and stays. -/
theorem edit_conserves_straddling :
    let a := (Settings.ofRoot (.ofText "/src".toList)).toAlias []
    let p := Path.ofText "/src/x/y.ts".toList
    let t := "import a from '../b from '../c'".toList
    let e := a.edit [] p t
    Specifier.Proper a.spelling ∧ (∀ d ∈ a.directories [] p, QuoteFree d) ∧
      e.text = "import a from '@/b from '../c'".toList ∧
      countRelative t = 2 ∧ countRelative e.text = 1 ∧ e.replacements = 1 ∧
      (relativePlaces e.text).ncard + e.replacements = (relativePlaces t).ncard := by
  intro a p t e
  have ha : Specifier.Proper a.spelling := Specifier.proper_default
  have hd : ∀ d ∈ a.directories [] p, QuoteFree d := by decide
  have he : e = ⟨"import a from '@/b from '../c'".toList, 1, true⟩ := by decide +kernel
  obtain ⟨hbalance, -, -, -⟩ := edit_conserves a [] p ha hd t
  exact ⟨ha, hd, congrArg Edit.text he, by decide, by rw [he]; decide,
    congrArg Edit.replacements he, hbalance⟩

end Alias

end ImportAlias
