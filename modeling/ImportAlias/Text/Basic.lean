/-!
# Texts and bytes

A text is a list of characters and raw data is a list of bytes, so that every
recogniser of the library is a recursion on a list. This module holds the two
operations the rest builds on: taking a known beginning off a list (`after?`)
and cutting a list at a separator (`fields`).
-/

namespace ImportAlias

/-- A text, as a list of Unicode characters. -/
abbrev Text := List Char

/-- Raw data, as files, file names and arguments hold it. -/
abbrev Bytes := List UInt8

/-! ### A known beginning -/

/-- What follows `lead` in a list that starts with it. -/
def after? {α : Type} [DecidableEq α] : List α → List α → Option (List α)
  | [], xs => some xs
  | _ :: _, [] => none
  | a :: lead, x :: xs => if a = x then after? lead xs else none

theorem after?_eq_some_iff {α : Type} [DecidableEq α] {lead xs rest : List α} :
    after? lead xs = some rest ↔ xs = lead ++ rest := by
  induction lead generalizing xs with
  | nil => simp [after?, eq_comm]
  | cons a lead ih =>
    cases xs with
    | nil => simp [after?]
    | cons x xs =>
      by_cases h : a = x
      · simp [after?, h, ih]
      · simp [after?, h, eq_comm]

@[simp] theorem after?_append {α : Type} [DecidableEq α] (lead rest : List α) :
    after? lead (lead ++ rest) = some rest :=
  after?_eq_some_iff.2 rfl

/-- Nothing is taken off across an element that it does not have. -/
theorem isSome_after?_append_cons {α : Type} [DecidableEq α] {lead : List α} {a : α}
    (ha : a ∉ lead) (xs ys : List α) :
    (after? lead (xs ++ a :: ys)).isSome = (after? lead xs).isSome := by
  induction lead generalizing xs with
  | nil => rfl
  | cons b lead ih =>
    rw [List.mem_cons, not_or] at ha
    cases xs with
    | nil => simp [after?, Ne.symm ha.1]
    | cons x xs =>
      by_cases hb : b = x
      · simp [after?, hb, ih ha.2]
      · simp [after?, hb]

/-! ### Separators -/

/-- The parts of a list between separators, of which there is always at least one. -/
def fields {α : Type} [DecidableEq α] (sep : α) : List α → List (List α)
  | [] => [[]]
  | x :: xs => if x = sep then [] :: fields sep xs else (fields sep xs).modifyHead (x :: ·)

theorem fields_ne_nil {α : Type} [DecidableEq α] (sep : α) (xs : List α) : fields sep xs ≠ [] := by
  induction xs with
  | nil => simp [fields]
  | cons x xs ih =>
    rw [fields]
    split
    · simp
    · cases h : fields sep xs with
      | nil => exact absurd h ih
      | cons y ys => simp

/-- Cutting at a separator loses nothing. -/
theorem intercalate_fields {α : Type} [DecidableEq α] (sep : α) (xs : List α) :
    List.intercalate [sep] (fields sep xs) = xs := by
  induction xs with
  | nil => rfl
  | cons x xs ih =>
    rw [fields]
    cases h : fields sep xs with
    | nil => exact absurd h (fields_ne_nil sep xs)
    | cons y ys =>
      rw [h] at ih
      split
      · next hx => simp [List.intercalate, hx, ← ih]
      · cases ys <;> simp [List.intercalate, ← ih]

/-! ### Numbers -/

/-- A number in decimal digits. -/
def decimal (n : Nat) : Text := Nat.toDigits 10 n

end ImportAlias
