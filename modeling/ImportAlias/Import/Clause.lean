import ImportAlias.Specifier
import ImportAlias.Text.Blank

/-!
# Relative `from` clauses

A clause is the tail of an import statement that names a module by a relative
specifier: `from`, white space, a quote, `../` and the rest of the specifier,
and the next quote of either kind. `Clause.read?` recognises a clause at the
start of a text; `opensRelative` only looks as far as the `../`, and
`hasRelativeImport` looks for such a place anywhere.
-/

namespace ImportAlias.Import

/-- Whether a character is a quote of either kind. -/
def isQuote (c : Char) : Bool := c = '\'' || c = '"'

/-- The word `from`. -/
def fromWord : Text := ['f', 'r', 'o', 'm']

/-- A clause, cut into its parts. -/
structure Clause where
  /-- The white space after `from`. -/
  gap : Text
  /-- The quote before the specifier. -/
  openQuote : Char
  /-- The specifier. -/
  spec : Text
  /-- The quote after the specifier. -/
  closeQuote : Char
deriving DecidableEq, Repr

/-! ### The place where a relative specifier starts -/

/-- The gap and the quote of a text that starts with `from`, white space, a quote
and `../`, and the text from that `../` on. -/
def opening? (t : Text) : Option (Text × Char × Text) :=
  match after? fromWord t with
  | none => none
  | some t₁ =>
    match t₁.dropWhile isBlank with
    | [] => none
    | q :: t₂ =>
      if t₁.takeWhile isBlank ≠ [] ∧ isQuote q ∧ (after? Specifier.parentStep t₂).isSome then
        some (t₁.takeWhile isBlank, q, t₂)
      else none

/-- Whether a relative specifier starts here. -/
def opensRelative (t : Text) : Bool := (opening? t).isSome

/-- Whether a relative specifier starts anywhere in a text. -/
def hasRelativeImport : Text → Bool
  | [] => false
  | c :: t => opensRelative (c :: t) || hasRelativeImport t

/-- How many relative specifiers start in a text. -/
def countRelative : Text → Nat
  | [] => 0
  | c :: t => (if opensRelative (c :: t) then 1 else 0) + countRelative t

/-! ### Whole clauses -/

/-- The clause that a text starts with, and the text after it. -/
def Clause.read? (t : Text) : Option (Clause × Text) :=
  match opening? t with
  | none => none
  | some (gap, q, t₁) =>
    match t₁.dropWhile (! isQuote ·) with
    | [] => none
    | q' :: rest => some (⟨gap, q, t₁.takeWhile (! isQuote ·), q'⟩, rest)

/-- The clause up to and with the quote before the specifier. -/
def Clause.head (c : Clause) : Text := fromWord ++ c.gap ++ [c.openQuote]

/-- The text of a clause. -/
def Clause.text (c : Clause) : Text := c.head ++ c.spec ++ [c.closeQuote]

/-! ### What is read is what was there -/

theorem opening?_eq_some {t gap rest : Text} {q : Char} (h : opening? t = some (gap, q, rest)) :
    t = fromWord ++ gap ++ q :: rest ∧ gap ≠ [] ∧ gap.all isBlank ∧ isQuote q ∧
      (after? Specifier.parentStep rest).isSome := by
  unfold opening? at h
  split at h
  · simp at h
  · next t₁ h₁ =>
    split at h
    · simp at h
    · next q' t₂ hd =>
      split at h
      · next hq =>
        simp only [Option.some.injEq, Prod.mk.injEq] at h
        obtain ⟨rfl, rfl, rfl⟩ := h
        refine ⟨?_, hq.1, List.all_takeWhile, hq.2.1, hq.2.2⟩
        rw [after?_eq_some_iff.1 h₁, List.append_assoc, ← hd, List.takeWhile_append_dropWhile]
      · simp at h

theorem Clause.text_of_read? {t rest : Text} {c : Clause} (h : Clause.read? t = some (c, rest)) :
    t = c.text ++ rest := by
  unfold Clause.read? at h
  split at h
  · simp at h
  · next gap q t₁ h₁ =>
    split at h
    · simp at h
    · next q' rest' hd =>
      simp only [Option.some.injEq, Prod.mk.injEq] at h
      obtain ⟨rfl, rfl⟩ := h
      rw [(opening?_eq_some h₁).1]
      simp only [Clause.text, Clause.head, List.append_assoc, List.cons_append, List.nil_append]
      rw [← hd, List.takeWhile_append_dropWhile]

end ImportAlias.Import
