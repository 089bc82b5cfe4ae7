import ImportAlias.Ignore.Rule
import ImportAlias.Tree.Access

/-!
# Ignore files in a tree

Every directory above an entry may hold ignore files, of three kinds. Files of
one kind go before all files of the next, and among those of one kind the
deepest one that has something to say decides. An entry that no file speaks of
is left out when its name is hidden.

## Linked work trees

The private ignore file of a directory lies in its repository. Where the directory
has no repository of its own but a file in its place, the first line of that file
tells where the private data of the work tree is, and a file there tells on its
first line where the repository is that the work tree shares with others.
-/

namespace ImportAlias

namespace Ignore

/-- A kind of ignore file. -/
inductive Kind where
  /-- A file for tools that search. -/
  | general
  /-- A file of the version control system. -/
  | tracked
  /-- A private file of the version control system. -/
  | untracked
deriving DecidableEq, Repr

/-- The kinds, the strongest one first. -/
def Kind.all : List Kind := [.general, .tracked, .untracked]

/-- Where the repository of a directory lies, or the file in its place. -/
def repositoryName : Name := Utf8.encode ".git".toList

/-- Where the private ignore file lies in a repository. -/
def privateFile : Path := .ofText "info/exclude".toList

/-- Where a work tree's private data tell about the shared repository. -/
def sharedFile : Path := .ofText "commondir".toList

/-- The private data of a work tree, as the line in place of its repository tells. -/
def linkedData? (line : Text) : Option Path := (after? "gitdir: ".toList line).map Path.ofText

/-- The shared repository, as a line in the private data of a work tree tells: a line
that starts with a dot is seen from there. -/
def sharedRepository (data : Path) (line : Text) : Path :=
  if startsWith ['.'] line then data.join (.ofText line) else .ofText line

/-- Whether a name is hidden: it starts with a dot. -/
def isHidden (n : Name) : Bool := n.head? = some dot

/-- The directories above an entry, the deepest one first, each with the names that
lead from it to the entry. -/
def above (loc : Location) : List (Location × List Name) :=
  (List.range loc.length).reverse.map fun n => (loc.take n, loc.drop n)

end Ignore

namespace FileTree

/-- The first line of a file, if it has one that is text. -/
def firstLine? (t : FileTree) (cwd : Location) (p : Path) : Option Text :=
  match t.readBytes cwd p with
  | .ok content => (Ignore.lines content).head?.bind Utf8.decode?
  | .error _ => none

/-- The repository of a directory, if it can be found. -/
def repository? (t : FileTree) (cwd dir : Location) : Option Path :=
  let place := Location.path (dir ++ [Ignore.repositoryName])
  if t.isFile cwd place then
    (t.firstLine? cwd place).bind fun line =>
      (Ignore.linkedData? line).bind fun data =>
        (t.firstLine? cwd (data.join Ignore.sharedFile)).map (Ignore.sharedRepository data)
  else some place

/-- The path of the ignore file of a kind for a directory. -/
def ignoreFile? (t : FileTree) (cwd : Location) (kind : Ignore.Kind) (dir : Location) :
    Option Path :=
  match kind with
  | .general => some (Location.path (dir ++ [Utf8.encode ".ignore".toList]))
  | .tracked => some (Location.path (dir ++ [Utf8.encode ".gitignore".toList]))
  | .untracked => (t.repository? cwd dir).map fun repository => repository.join Ignore.privateFile

/-- The rules of the ignore file of a kind for a directory. A file that cannot be read
has none. -/
def ignoreRules (t : FileTree) (cwd : Location) (kind : Ignore.Kind) (dir : Location) :
    List Ignore.Rule :=
  match t.ignoreFile? cwd kind dir with
  | none => []
  | some p =>
    match t.readBytes cwd p with
    | .ok content => Ignore.rules content
    | .error _ => []

/-- What the ignore files of one kind say about an entry. -/
def kindVerdict? (t : FileTree) (cwd : Location) (kind : Ignore.Kind) (loc : Location)
    (isDirectory : Bool) : Option Ignore.Verdict :=
  (Ignore.above loc).findSome? fun (dir, names) =>
    Ignore.verdict? (t.ignoreRules cwd kind dir) (List.intercalate [slash] names) isDirectory

/-- What the ignore files say about an entry. -/
def ignoreVerdict? (t : FileTree) (cwd loc : Location) (isDirectory : Bool) :
    Option Ignore.Verdict :=
  Ignore.Kind.all.findSome? fun kind => t.kindVerdict? cwd kind loc isDirectory

/-- Whether an entry is left out by the ignore files or for being hidden. -/
def isIgnored (t : FileTree) (cwd loc : Location) (isDirectory : Bool) : Bool :=
  match t.ignoreVerdict? cwd loc isDirectory with
  | some v => v = .leaveOut
  | none => Ignore.isHidden (loc.getLast?.getD [])

end FileTree

end ImportAlias
