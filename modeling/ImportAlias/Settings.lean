import ImportAlias.Alias

/-!
# Settings

What a run works with: the source root and its alias, which files count, and
what the walk leaves out.
-/

namespace ImportAlias

/-- A file extension in its dotted form. White space around it and one leading dot
are not part of it, and nothing is left of an empty one. -/
def extension? (t : Text) : Option Text :=
  let t := t.trim
  let bare := (after? ['.'] t).getD t
  if bare = [] then none else some ('.' :: bare)

/-- What a run works with. -/
structure Settings where
  /-- The source root, as it was given. -/
  root : Path
  /-- What is written for the source root. -/
  spelling : Text
  /-- The endings of the file names that count, each with its dot. -/
  extensions : List Text
  /-- Whether ignore files decide about entries and hidden entries are left out. -/
  ignoreFiles : Bool
  /-- The names and name patterns that are left out. -/
  patterns : List Text
deriving DecidableEq, Repr

namespace Settings

/-- The extensions that count when none are given. -/
def defaultExtensions : List Text :=
  [".ts".toList, ".tsx".toList, ".js".toList, ".jsx".toList]

/-- The settings of a run that gives only its root. -/
def ofRoot (root : Path) : Settings :=
  { root := root
    spelling := "@/".toList
    extensions := defaultExtensions
    ignoreFiles := false
    patterns := [] }

/-- The settings of a run that gives nothing. -/
def default : Settings := ofRoot (.ofText "src".toList)

/-- The same settings with other extensions, given in any form. -/
def withExtensions (s : Settings) (given : List Text) : Settings :=
  { s with extensions := given.filterMap extension? }

/-- Whether a file name ends in an extension that counts. -/
def hasExtension (s : Settings) (name : Text) : Bool :=
  s.extensions.any fun ext => ext.isSuffixOf name

/-- The alias that the settings describe. -/
def toAlias (s : Settings) (cwd : Location) : Alias := .ofPath cwd s.root s.spelling

/-- The absolute path of the source root. -/
def absoluteRoot (s : Settings) (cwd : Location) : Path := s.root.absolute cwd

end Settings

end ImportAlias
