import ImportAlias.Text.Utf8

/-!
# Paths

A path is any run of bytes. What it means is its list of components: repeated
slashes and inner or trailing `.` segments say nothing, a leading `.` of a
relative path is a component of its own, and `..` is never cancelled.

## The model

`Path.parts` cuts a path into its opening (the root slash, a leading `.`, or
nothing) and the segments after it; `Path.components` reads those. Two paths
with the same components are spelled differently and mean the same.
-/

namespace ImportAlias

/-- The name of a directory entry. -/
abbrev Name := Bytes

/-- A path as it is spelled. -/
structure Path where
  /-- The bytes of the path. -/
  bytes : Bytes
deriving DecidableEq, Repr, Inhabited

/-- One step of a path. -/
inductive Component where
  /-- The slash that an absolute path starts with. -/
  | root
  /-- The `.` that a relative path may start with. -/
  | current
  /-- A `..`. -/
  | parent
  /-- The name of an entry. -/
  | normal (name : Name)
deriving DecidableEq, Repr

/-- The byte of `/`. -/
def slash : UInt8 := 0x2F

/-- The byte of `.`. -/
def dot : UInt8 := 0x2E

/-! ### Components -/

/-- Whether a segment between slashes says nothing: it is empty or `.`. -/
def isTrivial (s : Name) : Bool := s = [] || s = [dot]

namespace Component

/-- The component of a segment, if it says anything. -/
def ofSegment? (s : Name) : Option Component :=
  if isTrivial s then none else if s = [dot, dot] then some .parent else some (.normal s)

/-- The name of an entry, if the component is one. -/
def name? : Component → Option Name
  | .normal n => some n
  | _ => none

/-- How a component is spelled between slashes, if it is. -/
def spelling? : Component → Option Name
  | .normal n => some n
  | .parent => some [dot, dot]
  | .root | .current => none

end Component

namespace Path

/-! ### Reading a path -/

/-- What a path opens with. -/
inductive Opening where
  /-- A slash: the path is absolute. -/
  | root
  /-- A `.` segment. -/
  | current
  /-- Neither. -/
  | bare
deriving DecidableEq, Repr

/-- The components that an opening stands for. -/
def Opening.components : Opening → List Component
  | .root => [.root]
  | .current => [.current]
  | .bare => []

/-- A path cut into its opening and the segments after it. -/
structure Parts where
  /-- What the path opens with. -/
  opening : Opening
  /-- The segments between slashes after the opening. -/
  segments : List Name

/-- Cuts a path at its slashes. -/
def parts (p : Path) : Parts :=
  match p.bytes with
  | [] => ⟨.bare, []⟩
  | b :: bs =>
    if b = slash then ⟨.root, fields slash bs⟩
    else match fields slash (b :: bs) with
      | [] => ⟨.bare, []⟩
      | s :: ss => if s = [dot] then ⟨.current, ss⟩ else ⟨.bare, s :: ss⟩

/-- The components of a path. -/
def components (p : Path) : List Component :=
  p.parts.opening.components ++ p.parts.segments.filterMap Component.ofSegment?

/-- Whether a path starts at the root of the file system. -/
def isAbsolute (p : Path) : Bool := p.bytes.head? = some slash

/-- The last component, if it is a name. -/
def fileName? (p : Path) : Option Name := p.components.getLast?.bind Component.name?

/-- The names of the directories that a file path goes through. -/
def directories (p : Path) : List Text :=
  (p.components.dropLast.filterMap Component.name?).map Utf8.decodeLossy

/-! ### Building a path -/

/-- The path of `q` as seen from `p`. An absolute `q` stands for itself. -/
def join (p q : Path) : Path :=
  if q.isAbsolute then q
  else if p.bytes = [] ∨ p.bytes.getLast? = some slash then ⟨p.bytes ++ q.bytes⟩
  else ⟨p.bytes ++ slash :: q.bytes⟩

/-- The path of the entry that the names lead to from `p`. -/
def descend (p : Path) (names : List Name) : Path := names.foldl (fun q n => q.join ⟨n⟩) p

/-- The path as a reader sees it. -/
def display (p : Path) : Text := Utf8.decodeLossy p.bytes

/-- The path that a text spells. -/
def ofText (t : Text) : Path := ⟨Utf8.encode t⟩

end Path

end ImportAlias
