import ImportAlias.Path.Basic
import ImportAlias.Text.Positions

/-!
# Name patterns

Patterns that the user gives for names to leave out: `?` is any character, `*`
any run of characters, `[a-z]` and `[!a-z]` are classes, and `**` between slashes
is any number of directories. A pattern can be ill-formed; it then stands for
nothing but its own spelling.

## The model

A pattern is a list of parts, and it matches a name when the parts, each going on
from the positions that those before it may reach, reach the end.
-/

namespace ImportAlias

namespace NamePattern

/-- One part of a pattern. -/
inductive Part where
  /-- A character that stands for itself. -/
  | char (c : Char)
  /-- Any one character. -/
  | anyOne
  /-- Any run of characters. -/
  | run
  /-- Any number of directories. -/
  | levels
  /-- A character in one of the ranges, or in none of them. -/
  | oneOf (negated : Bool) (ranges : List (Char × Char))
deriving DecidableEq, Repr

/-! ### Matching -/

/-- Whether a character lies in one of the ranges. -/
def inRanges (ranges : List (Char × Char)) (c : Char) : Bool :=
  ranges.any fun r => r.1.toNat ≤ c.toNat && c.toNat ≤ r.2.toNat

/-- The positions of a text that a part may reach from those of a set. Any number of
directories ends where another one starts, or at the end of the text. -/
def Part.reach (t : Text) : Part → Positions → Positions
  | .char c, s => Positions.past (· = c) t s
  | .anyOne, s => Positions.past (fun _ => true) t s
  | .run, s => Positions.beyond t s
  | .levels, s =>
    let starts := Positions.past (· = '/') t (Positions.beyond t s)
    Positions.union (Positions.union s starts) (Positions.finish t s)
  | .oneOf negated ranges, s => Positions.past (fun c => inRanges ranges c != negated) t s

/-- Whether the parts, one after the other, make up the text. -/
def fitAll (ps : List Part) (t : Text) : Bool :=
  Positions.hasEnd (ps.foldl (fun s p => p.reach t s) (Positions.start t))

/-! ### Reading -/

/-- The ranges that the inside of a class spells. -/
def ranges : Text → List (Char × Char)
  | a :: '-' :: b :: t => (a, b) :: ranges t
  | a :: t => (a, a) :: ranges t
  | [] => []

/-- The class after an opening bracket, and what follows it. The first character
inside belongs to the class even if it is a closing bracket. -/
def readClass? (t : Text) : Option (Part × Text) :=
  let (negated, t) := match t with
    | '!' :: t => (true, t)
    | t => (false, t)
  match t with
  | [] => none
  | c :: t =>
    match t.dropWhile (· ≠ ']') with
    | [] => none
    | _ :: rest => some (.oneOf negated (ranges (c :: t.takeWhile (· ≠ ']'))), rest)

theorem length_lt_of_readClass? {t rest : Text} {p : Part} (h : readClass? t = some (p, rest)) :
    rest.length < t.length := by
  have key : ∀ u : Text, ∀ c r, u.dropWhile (· ≠ ']') = c :: r → r.length < u.length := by
    intro u c r hu
    have := (List.dropWhile_sublist (p := (· ≠ ']')) (l := u)).length_le
    rw [hu, List.length_cons] at this
    omega
  unfold readClass? at h
  split at h
  split at h
  · simp at h
  · next negated u c u' heq =>
    split at h
    · simp at h
    · next hd =>
      simp only [Option.some.injEq, Prod.mk.injEq] at h
      obtain ⟨-, rfl⟩ := h
      have := key _ _ _ hd
      split at heq
      · simp only [Prod.mk.injEq] at heq
        obtain ⟨-, rfl⟩ := heq
        simp; omega
      · simp only [Prod.mk.injEq] at heq
        obtain ⟨-, rfl⟩ := heq
        simp; omega

/-- Whether a directory level may start after a character, or at the start. -/
def atLevelStart : Option Char → Bool
  | none => true
  | some c => c = '/'

/-- The parts that a text spells, if it is well formed. `prev` is the character before it. -/
def parts? (prev : Option Char) (t : Text) : Option (List Part) :=
  match t with
  | [] => some []
  | '?' :: t => (parts? (some '?') t).map (.anyOne :: ·)
  | '*' :: '*' :: t =>
    if atLevelStart prev then
      match t with
      | [] => some [.levels]
      | c :: t => if c = '/' then (parts? (some '/') t).map (.levels :: ·) else none
    else none
  | '*' :: t => (parts? (some '*') t).map (.run :: ·)
  | '[' :: t =>
    match h : readClass? t with
    | none => none
    | some (p, rest) =>
      have := length_lt_of_readClass? h
      (parts? (some ']') rest).map (p :: ·)
  | c :: t => (parts? (some c) t).map (.char c :: ·)
termination_by t.length

end NamePattern

/-- Whether a name is left out: it is `.git`, or one of the patterns spells it or
matches it. -/
def excludesName (patterns : List Text) (n : Name) : Bool :=
  let name := Utf8.decodeLossy n
  name = ".git".toList || patterns.any fun p =>
    p = name ||
      match NamePattern.parts? none p with
      | some parts => NamePattern.fitAll parts name
      | none => false

end ImportAlias
