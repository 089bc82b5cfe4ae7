import ImportAlias.Ignore.Glob

/-!
# Reading ignore globs

From the spelling of a glob to its parts. Besides `?`, `*` and classes there are
`\` before a character that stands for itself, `{a,b}` for a choice, and `**`
for any number of directories when it is a whole name. An ill-formed glob has no
parts; only a bracket that is never closed stands for itself.

## The model

The reader goes through the text once. It holds the parts read so far in the
branch it is in, the last one first, and for every brace that is still open the
branches finished there and the parts in front of the brace.
-/

namespace ImportAlias.Ignore

/-! ### Classes -/

/-- What became of a class. -/
inductive ClassReading where
  /-- It has ranges, and a text follows it. -/
  | closed (ranges : List (Char × Char)) (rest : Text)
  /-- It has no end. -/
  | unclosed
  /-- One of its ranges is upside down. -/
  | invalid

/-- The ranges with the last one, which comes first, extended to a character. -/
def extendLast? (c : Char) : List (Char × Char) → Option (List (Char × Char))
  | [] => none
  | (a, _) :: ranges => if c.toNat < a.toNat then none else some ((a, c) :: ranges)

/-- Reads the inside of a class. `first` says that nothing was read yet, and `dash`
that a `-` waits for the end of its range. -/
def readRanges (first dash : Bool) (ranges : List (Char × Char)) : Text → ClassReading
  | [] => .unclosed
  | c :: t =>
    if c = ']' ∧ first = false then
      .closed (if dash then ('-', '-') :: ranges else ranges).reverse t
    else if c = '-' ∧ first = false ∧ dash = false then readRanges false true ranges t
    else if dash then
      match extendLast? c ranges with
      | some ranges => readRanges false false ranges t
      | none => .invalid
    else readRanges false false ((c, c) :: ranges) t

/-- Reads a class after its opening bracket. -/
def readClass (t : Text) : Bool × ClassReading :=
  match t with
  | '!' :: t => (true, readRanges true false [] t)
  | '^' :: t => (true, readRanges true false [] t)
  | t => (false, readRanges true false [] t)

/-- The byte ranges of a range of characters: the bytes of its ends, with the last
byte of the one joined to the first byte of the other. -/
def byteRanges (r : Char × Char) : List (UInt8 × UInt8) :=
  let single (b : UInt8) : UInt8 × UInt8 := (b, b)
  let low := String.utf8EncodeChar r.1
  if r.1 = r.2 then low.map single
  else
    match String.utf8EncodeChar r.2 with
    | [] => low.map single
    | b :: high => low.dropLast.map single ++ [(low.getLast?.getD 0, b)] ++ high.map single

theorem length_lt_of_readRanges {first dash : Bool} {rs rs' : List (Char × Char)} {t rest : Text}
    (h : readRanges first dash rs t = .closed rs' rest) : rest.length < t.length := by
  induction t generalizing first dash rs with
  | nil => simp [readRanges] at h
  | cons c t ih =>
    rw [readRanges] at h
    split at h
    · simp only [ClassReading.closed.injEq] at h
      obtain ⟨-, rfl⟩ := h
      simp
    · split at h
      · have := ih h; simp; omega
      · split at h
        · split at h
          · have := ih h; simp; omega
          · simp at h
        · have := ih h; simp; omega

theorem length_lt_of_readClass {t rest : Text} {negated : Bool} {rs : List (Char × Char)}
    (h : readClass t = (negated, .closed rs rest)) : rest.length < t.length := by
  unfold readClass at h
  split at h <;> simp only [Prod.mk.injEq] at h <;> have := length_lt_of_readRanges h.2 <;>
    simp <;> omega

/-! ### Globs -/

/-- A brace that is still open. -/
structure OpenBrace where
  /-- The branches finished in it, the last one first. -/
  branches : List (List Part)
  /-- The parts in front of it, the last one first. -/
  before : List Part

/-- How far the reader has come. -/
structure Progress where
  /-- The character read last. -/
  prev : Option Char
  /-- Whether a bracket was found to have no end, so that brackets stand for themselves. -/
  plainBrackets : Bool
  /-- The parts of this branch, the last one first. -/
  parts : List Part
  /-- The braces that are open, the innermost first. -/
  braces : List OpenBrace

namespace Progress

/-- Where the reader starts. -/
def start : Progress := ⟨none, false, [], []⟩

/-- One more part, read up to a character. -/
def push (s : Progress) (p : Part) (last : Char) : Progress :=
  { s with parts := p :: s.parts, prev := some last }

/-- The two stars of a `**` that is not a whole name. -/
def pushRuns (s : Progress) : Progress := (s.push .run '*').push .run '*'

/-- A `**` after other parts takes the place of the slash in front of it. Several
in a row are one. -/
def pushLevels (s : Progress) (p : Part) (last : Char) : Progress :=
  match s.parts with
  | .leading :: parts => { s with parts := .leading :: parts, prev := some last }
  | .inside :: parts => { s with parts := .inside :: parts, prev := some last }
  | _ :: parts => { s with parts := p :: parts, prev := some last }
  | [] => s

/-- Whether a `**` may be a whole name after what was read. -/
def atNameStart (s : Progress) : Bool :=
  s.prev = some '/' || (!s.braces.isEmpty && (s.prev = some ',' || s.prev = some '\x7b'))

/-- Whether what follows ends the branch that the reader is in. -/
def atBranchEnd (s : Progress) : Text → Bool
  | [] => true
  | c :: _ => !s.braces.isEmpty && (c = ',' || c = '\x7d')

/-- After a `**`: where the reader is then, and what is left to read. -/
def stars (s : Progress) (t : Text) : Progress × Text :=
  if s.parts.isEmpty then
    match t with
    | [] => (s.push .leading '*', [])
    | c :: t => if c = '/' then (s.push .leading '/', t) else (s.pushRuns, c :: t)
  else if s.atNameStart = false then (s.pushRuns, t)
  else if s.atBranchEnd t then (s.pushLevels .inside '*', t)
  else
    match t with
    | [] => (s.pushRuns, [])
    | c :: t => if c = '/' then (s.pushLevels .between '/', t) else (s.pushRuns, c :: t)

theorem length_stars_le (s : Progress) (t : Text) : (s.stars t).2.length ≤ t.length := by
  unfold stars
  split
  · split
    · simp
    · split <;> simp
  · split
    · simp
    · split
      · simp
      · split
        · simp
        · split <;> simp

/-- An opening brace. -/
def openBrace (s : Progress) : Progress :=
  { s with parts := [], braces := ⟨[], s.parts⟩ :: s.braces, prev := some '\x7b' }

/-- A closing brace, if one is open. -/
def closeBrace? (s : Progress) : Option Progress :=
  match s.braces with
  | [] => none
  | b :: braces =>
    some { s with
      parts := .choice (s.parts.reverse :: b.branches).reverse :: b.before
      braces := braces
      prev := some '\x7d' }

/-- A comma, which divides branches inside braces. -/
def comma (s : Progress) : Progress :=
  match s.braces with
  | [] => s.push (.char ',') ','
  | b :: braces =>
    { s with
      parts := []
      braces := ⟨s.parts.reverse :: b.branches, b.before⟩ :: braces
      prev := some ',' }

/-- The glob, if no brace is open. -/
def finish? (s : Progress) : Option (List Part) :=
  if s.braces.isEmpty then some s.parts.reverse else none

end Progress

/-- Reads the rest of a glob. -/
def readParts (s : Progress) (t : Text) : Option (List Part) :=
  match t with
  | [] => s.finish?
  | '?' :: t => readParts (s.push .anyOne '?') t
  | '*' :: '*' :: t =>
    have := s.length_stars_le t
    readParts (s.stars t).1 (s.stars t).2
  | '*' :: t => readParts (s.push .run '*') t
  | '\\' :: [] => none
  | '\\' :: c :: t => readParts (s.push (.char c) c) t
  | ',' :: t => readParts s.comma t
  | c :: t =>
    if c = '\x7b' then readParts s.openBrace t
    else if c = '\x7d' then
      match s.closeBrace? with
      | some s => readParts s t
      | none => none
    else if c = '[' ∧ s.plainBrackets = false then
      match h : readClass t with
      | (negated, .closed ranges rest) =>
        have := length_lt_of_readClass h
        readParts (s.push (.oneOf negated (ranges.flatMap byteRanges)) ']') rest
      | (_, .unclosed) => readParts ({ s with plainBrackets := true }.push (.char '[') '[') t
      | (_, .invalid) => none
    else readParts (s.push (.char c) c) t
termination_by t.length

/-- The parts of the glob that a text spells, if it is well formed. -/
def readGlob? (t : Text) : Option (List Part) := readParts .start t

end ImportAlias.Ignore
