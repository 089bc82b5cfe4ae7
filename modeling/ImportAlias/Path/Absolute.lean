import ImportAlias.Path.Basic

/-!
# Absolute paths

A location is the list of names that leads from the root of the file system to
an entry. `Path.absolute` gives the absolute spelling of a path for a process
that works at a location, without looking at any file: `.` and repeated slashes
go away, `..` and a trailing slash stay.
-/

namespace ImportAlias

/-- The names from the root of the file system to an entry. -/
abbrev Location := List Name

/-- The absolute path of a location. -/
def Location.path (loc : Location) : Path := ⟨slash :: List.intercalate [slash] loc⟩

namespace Path

/-- Whether a path opens with two slashes and no third one. -/
def opensTwice (p : Path) : Bool :=
  match p.bytes with
  | a :: b :: rest => a = slash && b = slash && rest.head? ≠ some slash
  | _ => false

/-- The absolute spelling of a path for a process that works at `cwd`. Exactly two
opening slashes are kept as two, and the empty path stands for itself. -/
def absolute (cwd : Location) (p : Path) : Path :=
  if p.bytes = [] then p
  else
    let start := if p.isAbsolute then [] else cwd
    let names := start ++ p.components.filterMap Component.spelling?
    let opening := if p.opensTwice then [slash, slash] else [slash]
    let closing := if p.bytes.getLast? = some slash ∧ names ≠ [] then [slash] else []
    ⟨opening ++ List.intercalate [slash] names ++ closing⟩

end Path

end ImportAlias
