import ImportAlias.Path.Basic
import ImportAlias.Text.Positions

/-!
# Ignore globs

The patterns of ignore files. They are matched against the bytes of a path whose
names are joined by slashes, so that `?` and a class stand for one byte.

## The model

A glob is a list of parts. `Part.reach` turns the positions that the parts before
it may reach into those that it may reach, and a glob matches a path when its last
part may reach the end.
-/

namespace ImportAlias.Ignore

/-- One part of a glob. -/
inductive Part where
  /-- A character that stands for itself. -/
  | char (c : Char)
  /-- Any one byte but a slash. -/
  | anyOne
  /-- Any run of bytes without a slash. -/
  | run
  /-- Any number of directories at the start. -/
  | leading
  /-- Everything below a directory. -/
  | inside
  /-- A slash, or two with anything in between. -/
  | between
  /-- A byte in one of the ranges, or in none of them. -/
  | oneOf (negated : Bool) (ranges : List (UInt8 × UInt8))
  /-- One of several lists of parts. -/
  | choice (branches : List (List Part))

/-! ### Reaching -/

/-- Whether a byte lies in one of the ranges. -/
def inRanges (ranges : List (UInt8 × UInt8)) (b : UInt8) : Bool :=
  ranges.any fun r => r.1.toNat ≤ b.toNat && b.toNat ≤ r.2.toNat

mutual

/-- Whether a part stands for nothing at all. -/
def Part.isVoid : Part → Bool
  | .choice branches => branchesVoid branches
  | _ => false

/-- Whether each part of a list stands for nothing at all. -/
def partsVoid : List Part → Bool
  | [] => true
  | p :: ps => p.isVoid && partsVoid ps

/-- Whether each branch stands for nothing at all. -/
def branchesVoid : List (List Part) → Bool
  | [] => true
  | ps :: branches => partsVoid ps && branchesVoid branches

end

/-- The positions after the bytes of a character. -/
def afterChar (c : Char) (path : Bytes) (s : Positions) : Positions :=
  (String.utf8EncodeChar c).foldl (fun s b => Positions.past (· = b) path s) s

/-- The positions after a slash. -/
def afterSlash (path : Bytes) (s : Positions) : Positions := Positions.past (· = slash) path s

/-- The positions after any slash that is not before the set. -/
def afterSlashes (path : Bytes) (s : Positions) : Positions :=
  afterSlash path (Positions.beyond path s)

mutual

/-- The positions of a path that a part may reach from those of a set. Branches that
stand for nothing are no choice, and without a choice nothing is taken. -/
def Part.reach (path : Bytes) : Part → Positions → Positions
  | .char c, s => afterChar c path s
  | .anyOne, s => Positions.past (· ≠ slash) path s
  | .run, s => Positions.onward (· ≠ slash) path s
  | .leading, s => Positions.union s (afterSlashes path s)
  | .inside, s => Positions.beyond path (afterSlash path s)
  | .between, s =>
    let s := afterSlash path s
    Positions.union s (afterSlashes path s)
  | .oneOf negated ranges, s => Positions.past (fun b => inRanges ranges b != negated) path s
  | .choice branches, s => if branchesVoid branches then s else branchesReach path branches s

/-- The positions that some parts may reach, one after the other. -/
def partsReach (path : Bytes) : List Part → Positions → Positions
  | [], s => s
  | p :: ps, s => partsReach path ps (p.reach path s)

/-- The positions that one of the branches may reach. -/
def branchesReach (path : Bytes) : List (List Part) → Positions → Positions
  | [], s => s.map fun _ => false
  | ps :: branches, s =>
    if partsVoid ps then branchesReach path branches s
    else Positions.union (partsReach path ps s) (branchesReach path branches s)

end

/-! ### Matching -/

/-- Whether a glob matches a path. A glob of leading directories alone matches
everything. -/
def globMatches (ps : List Part) (path : Bytes) : Bool :=
  match ps with
  | [.leading] => true
  | _ => Positions.hasEnd (partsReach path ps (Positions.start path))

end ImportAlias.Ignore
