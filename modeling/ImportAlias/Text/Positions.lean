/-!
# Sets of positions

A pattern is matched by keeping the set of all positions of a list up to which the
parts read so far may reach. Each part turns this set into the next one in a single
pass, so that the work grows with the number of parts times the length of the list,
however many ways there are to divide the list among the parts.

## The model

A list has a position in front of each item and one at its end. A set of positions
has a truth value for each of them, and `Positions.Has` says which ones are in it.
-/

namespace ImportAlias

/-- A set of positions in a list: a truth value for each item and one for the end. -/
abbrev Positions := List Bool

namespace Positions

/-- Whether a position is in a set. -/
def Has (s : Positions) (i : Nat) : Prop := s[i]? = some true

/-- The position in front of the first item. -/
def start {α : Type} (xs : List α) : Positions := true :: xs.map fun _ => false

/-- The positions of either set. -/
def union (s t : Positions) : Positions := List.zipWith (· || ·) s t

/-- The positions right after an item that fits and stands at a position of the set. -/
def past {α : Type} (fits : α → Bool) (xs : List α) (s : Positions) : Positions :=
  false :: List.zipWith (fun x m => m && fits x) xs s

/-- The positions after any number of items that fit. `reached` says that the walk
has come to the first position already. -/
def spread {α : Type} (fits : α → Bool) (reached : Bool) : List α → Positions → Positions
  | x :: xs, m :: s => (reached || m) :: spread fits ((reached || m) && fits x) xs s
  | [], m :: _ => [reached || m]
  | _, [] => []

/-- The positions after any number of items that fit. -/
def onward {α : Type} (fits : α → Bool) (xs : List α) (s : Positions) : Positions :=
  spread fits false xs s

/-- The positions that are not before one of the set. -/
def beyond {α : Type} (xs : List α) (s : Positions) : Positions := onward (fun _ => true) xs s

/-- The end of the list, if there is any position in the set. -/
def finish {α : Type} (xs : List α) (s : Positions) : Positions :=
  xs.map (fun _ => false) ++ [s.contains true]

/-- Whether the end of the list is in a set. -/
def hasEnd (s : Positions) : Bool := s.getLast? = some true

/-! ### Lengths -/

@[simp] theorem length_start {α : Type} (xs : List α) : (start xs).length = xs.length + 1 := by
  simp [start]

theorem length_past {α : Type} (fits : α → Bool) {xs : List α} {s : Positions}
    (h : s.length = xs.length + 1) : (past fits xs s).length = xs.length + 1 := by
  simp [past, h]

theorem length_spread {α : Type} (fits : α → Bool) (reached : Bool) {xs : List α} {s : Positions}
    (h : s.length = xs.length + 1) : (spread fits reached xs s).length = xs.length + 1 := by
  induction xs generalizing s reached with
  | nil =>
    cases s with
    | nil => simp at h
    | cons m s => simp [spread]
  | cons x xs ih =>
    cases s with
    | nil => simp at h
    | cons m s => simpa [spread] using ih _ (by simpa using h)

/-! ### Members -/

theorem has_past_succ_iff {α : Type} {fits : α → Bool} {xs : List α} {s : Positions} {i : Nat} :
    (past fits xs s).Has (i + 1) ↔ s.Has i ∧ ∃ x, xs[i]? = some x ∧ fits x := by
  simp only [Has, past, List.getElem?_cons_succ, List.getElem?_zipWith_eq_some]
  constructor
  · rintro ⟨x, m, hx, hm, h⟩
    simp only [Bool.and_eq_true] at h
    exact ⟨by rw [hm, h.1], x, hx, h.2⟩
  · rintro ⟨hm, x, hx, h⟩
    exact ⟨x, true, hx, hm, by simp [h]⟩

theorem not_has_past_zero {α : Type} (fits : α → Bool) (xs : List α) (s : Positions) :
    ¬ (past fits xs s).Has 0 := by
  simp [Has, past]

theorem has_union_iff {s t : Positions} (h : s.length = t.length) {i : Nat} :
    (union s t).Has i ↔ s.Has i ∨ t.Has i := by
  simp only [Has, union, List.getElem?_zipWith_eq_some]
  constructor
  · rintro ⟨a, b, ha, hb, hab⟩
    rw [ha, hb]
    cases a <;> cases b <;> simp_all
  · intro hi
    have hlt : i < s.length := by
      rcases hi with hi | hi <;> have := (List.getElem?_eq_some_iff.1 hi).1 <;> omega
    have hlt' : i < t.length := h ▸ hlt
    refine ⟨s[i], t[i], by simp, by simp, ?_⟩
    rcases hi with hi | hi <;> have := (List.getElem?_eq_some_iff.1 hi).2 <;> simp [this]

end Positions

end ImportAlias
