import ImportAlias.Path.Basic

/-!
# Relative paths

What is left of a path after the components of a base. The answer is a piece of
the path's own spelling: segments that say nothing are cut off at its two ends
and kept in between.
-/

namespace ImportAlias.Path

/-- The segments after the first `n` that say something. -/
def dropSteps : Nat → List Name → List Name
  | 0, ss => ss
  | _ + 1, [] => []
  | n + 1, s :: ss => if isTrivial s then dropSteps (n + 1) ss else dropSteps n ss

/-- The segments up to the last one that says something. -/
def trimSteps (ss : List Name) : List Name := (ss.reverse.dropWhile isTrivial).reverse

/-- The bytes of a path with the given opening and segments. -/
def spell : Opening → List Name → Bytes
  | .root, ss => slash :: List.intercalate [slash] ss
  | .current, ss => List.intercalate [slash] ([dot] :: ss)
  | .bare, ss => List.intercalate [slash] ss

/-- The rest of a path after its first `n` components. -/
def dropComponents (n : Nat) (p : Path) : Path :=
  match n with
  | 0 => ⟨spell p.parts.opening (trimSteps p.parts.segments)⟩
  | n + 1 =>
    let left := dropSteps (n + 1 - p.parts.opening.components.length) p.parts.segments
    ⟨spell .bare (trimSteps (left.dropWhile isTrivial))⟩

/-- The path without its last component. The root and the empty path have none. -/
def parent? (p : Path) : Option Path :=
  match p.components.getLast? with
  | none | some .root => none
  | some .current => some ⟨[]⟩
  | some _ => some ⟨spell p.parts.opening (trimSteps (trimSteps p.parts.segments).dropLast)⟩

/-- What is left of a path after a base, if the base's components come first in it. -/
def relativeTo? (p base : Path) : Option Path :=
  (after? base.components p.components).map fun _ => p.dropComponents base.components.length

/-- The path shown to a reader who stands at `base`. -/
def displayFrom (p base : Path) : Text := ((p.relativeTo? base).getD p).display

end ImportAlias.Path
