import ImportAlias.Fault

/-!
# Standard output

Output is written in pieces, and what a piece leaves of a line waits for the next
one. Whenever a piece ends a line, everything up to its last line break goes out
as one portion. A sink takes a portion as a whole or not at all. The first one that
it refuses is the end: nothing is taken after it, not even a shorter one.
-/

namespace ImportAlias.Console

/-- How much a sink takes. -/
inductive Capacity where
  /-- Everything. -/
  | unlimited
  /-- So many bytes more. -/
  | room (bytes : Nat)
  /-- Nothing, because the device is full. -/
  | full
deriving DecidableEq, Repr

/-- Where output goes. -/
structure Sink where
  /-- How much more it takes. -/
  capacity : Capacity
  /-- What it has taken. -/
  taken : Text
  /-- Why it refused a portion, once it has. -/
  failure : Option SystemError
deriving DecidableEq, Repr

/-! ### Portions -/

/-- A text cut after its last line break, if it has one. -/
def cutLines? : Text → Option (Text × Text)
  | [] => none
  | c :: t =>
    match cutLines? t with
    | some (lines, rest) => some (c :: lines, rest)
    | none => if c = '\n' then some ([c], t) else none

theorem append_of_cutLines? {t lines rest : Text} (h : cutLines? t = some (lines, rest)) :
    t = lines ++ rest := by
  induction t generalizing lines with
  | nil => simp [cutLines?] at h
  | cons c t ih =>
    rw [cutLines?] at h
    split at h
    · next ls r heq =>
      simp only [Option.some.injEq, Prod.mk.injEq] at h
      obtain ⟨rfl, rfl⟩ := h
      rw [List.cons_append, ← ih heq]
    · split at h
      · simp only [Option.some.injEq, Prod.mk.injEq] at h
        obtain ⟨rfl, rfl⟩ := h
        rfl
      · simp at h

/-- The portions that pieces go out in, after a text that waits for the end of its
line. What is left without an end goes out last. -/
def portions (waiting : Text) : List Text → List Text
  | [] => if waiting = [] then [] else [waiting]
  | piece :: pieces =>
    match cutLines? piece with
    | some (lines, rest) => (waiting ++ lines) :: portions rest pieces
    | none => portions (waiting ++ piece) pieces

/-- Going out in portions loses nothing. -/
theorem flatten_portions (waiting : Text) (pieces : List Text) :
    (portions waiting pieces).flatten = waiting ++ pieces.flatten := by
  induction pieces generalizing waiting with
  | nil =>
    rw [portions]
    split <;> simp_all
  | cons piece pieces ih =>
    rw [portions]
    split
    · next lines rest h => simp [ih, append_of_cutLines? h]
    · simp [ih]

/-! ### Sending -/

namespace Sink

/-- A sink that has taken nothing yet. -/
def new (capacity : Capacity) : Sink := ⟨capacity, [], none⟩

/-- Offers one portion. -/
def offer (s : Sink) (portion : Text) : Sink :=
  if s.failure.isSome then s
  else
    match s.capacity with
    | .unlimited => { s with taken := s.taken ++ portion }
    | .full => { s with failure := some .noSpace }
    | .room n =>
      let size := (Utf8.encode portion).length
      if size ≤ n then { s with capacity := .room (n - size), taken := s.taken ++ portion }
      else { s with failure := some .unavailable }

/-- Writes pieces. -/
def send (s : Sink) (pieces : List Text) : Sink := (portions [] pieces).foldl offer s

end Sink

end ImportAlias.Console
