import ImportAlias.Ignore.Layers
import ImportAlias.NamePattern
import ImportAlias.Scan.Walk
import ImportAlias.Settings

/-!
# Candidates

The files that a run has to look at: regular files below the source root with an
extension that counts, whose text has a relative import. A file that cannot be
read is no candidate.
-/

namespace ImportAlias

/-- Whether a path leads to a text in which a relative specifier starts. -/
def FileTree.hasRelativeImport (t : FileTree) (cwd : Location) (p : Path) : Bool :=
  match t.readText cwd p with
  | .ok text => Import.hasRelativeImport text
  | .error _ => false

namespace Settings

/-- Whether the name of a path has an extension that counts. -/
def acceptsName (s : Settings) (p : Path) : Bool :=
  match p.fileName?.bind Utf8.decode? with
  | some name => s.hasExtension name
  | none => false

/-- Whether a path is one of a file to look at. -/
def isCandidate (s : Settings) (cwd : Location) (t : FileTree) (p : Path) : Bool :=
  t.isFile cwd p && s.acceptsName p && t.hasRelativeImport cwd p

/-- Whether the walk leaves out the entry that the names lead to from the root. -/
def skips (s : Settings) (cwd : Location) (t : FileTree) (root : Location) (names : List Name)
    (isDirectory : Bool) : Bool :=
  excludesName s.patterns (names.getLast?.getD []) ||
    (s.ignoreFiles && t.isIgnored cwd (root ++ names) isDirectory)

/-- The names that lead from the root to each file and link that the walk meets. -/
def walk (s : Settings) (cwd : Location) (t : FileTree) : List (List Name) :=
  match t.locate cwd (s.absoluteRoot cwd) with
  | .error _ => []
  | .ok loc =>
    match t.get? loc with
    | some (.dir mode inside) =>
      if mode.read then inside.walk (s.skips cwd t loc) mode.enter [] else []
    | _ => []

/-- The files to look at, in the order of the walk. -/
def scan (s : Settings) (cwd : Location) (t : FileTree) : List Path :=
  ((s.walk cwd t).map (s.absoluteRoot cwd).descend).filter (s.isCandidate cwd t)

end Settings

end ImportAlias
