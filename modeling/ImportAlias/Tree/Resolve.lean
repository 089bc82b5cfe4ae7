import ImportAlias.Fault
import ImportAlias.Tree.Basic

/-!
# Finding a file

From a path to the location it names. Every step, `.` and `..` included, starts
in a directory that may be entered. A link is replaced by its target, at most
`maxLinks` times on the way. A closing slash asks for a directory. Names and whole
paths may be too long.
-/

namespace ImportAlias

/-- One step on the way along a path. -/
inductive Step where
  /-- Stay in the directory. -/
  | stay
  /-- Go to the directory around it. -/
  | up
  /-- Go to the entry with a name. -/
  | down (name : Name)
  /-- What was reached has to be a directory. -/
  | close
deriving DecidableEq, Repr

/-- The step of a segment between slashes. -/
def Step.ofSegment? (s : Name) : Option Step :=
  if s = [] then none
  else if s = [dot] then some .stay
  else if s = [dot, dot] then some .up
  else some (.down s)

/-- The steps along a path. -/
def Path.steps (p : Path) : List Step :=
  (fields slash p.bytes).filterMap Step.ofSegment? ++
    if p.bytes.getLast? = some slash then [.close] else []

/-- How many links may be followed on the way. -/
def maxLinks : Nat := 40

/-- How many bytes a name may have. -/
def maxNameLength : Nat := 255

/-- How many bytes a path may have. -/
def maxPathLength : Nat := 4095

namespace FileTree

/-- The location that steps lead to from a directory. When a link is met, `follow`
goes on from the directory that the link's target starts at. -/
def walkWith (t : FileTree) (follow : Location → List Step → Except SystemError Location) :
    Location → List Step → Except SystemError Location
  | loc, [] => .ok loc
  | loc, s :: rest =>
    match t.get? loc with
    | some (.dir mode _) =>
      match s with
      | .close => t.walkWith follow loc rest
      | .stay => if mode.enter then t.walkWith follow loc rest else .error .denied
      | .up => if mode.enter then t.walkWith follow loc.dropLast rest else .error .denied
      | .down n =>
        if mode.enter = false then .error .denied
        else if maxNameLength < n.length then .error .nameTooLong
        else
          match t.get? (loc ++ [n]) with
          | none => .error .notFound
          | some (.leaf (.link target)) =>
            if target.bytes = [] then .error .notFound
            else follow (if target.isAbsolute then [] else loc) (target.steps ++ rest)
          | some _ => t.walkWith follow (loc ++ [n]) rest
    | _ => .error .notDirectory

/-- The location that steps lead to from a directory, with so many links left to follow. -/
def walkSteps (t : FileTree) : Nat → Location → List Step → Except SystemError Location
  | 0 => t.walkWith fun _ _ => .error .linkLoop
  | links + 1 => t.walkWith (t.walkSteps links)

/-- The location that a path names for a process that works at `cwd`. -/
def locate (t : FileTree) (cwd : Location) (p : Path) : Except Fault Location :=
  if (0 : UInt8) ∈ p.bytes then .error .nulInPath
  else if p.bytes = [] then .error (.system .notFound)
  else if maxPathLength < p.bytes.length then .error (.system .nameTooLong)
  else
    match t.walkSteps maxLinks (if p.isAbsolute then [] else cwd) p.steps with
    | .ok loc => .ok loc
    | .error e => .error (.system e)

end FileTree

end ImportAlias
