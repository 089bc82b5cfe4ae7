import ImportAlias.Import.Occurrence
import ImportAlias.Path.Absolute
import ImportAlias.Path.Relative

/-!
# Aliases

An alias is a text that stands for a source root, so that modules can be named
from the root instead of relative to a file. `Alias.edit` puts it to use in the
text of one file: every relative specifier of an import statement is replaced by
its alias form.
-/

namespace ImportAlias

/-- A text that stands for a directory of sources. -/
structure Alias where
  /-- The absolute path of the directory. -/
  root : Path
  /-- What is written for it. -/
  spelling : Text
deriving DecidableEq, Repr

/-- What became of a text. -/
structure Edit where
  /-- The new text. -/
  text : Text
  /-- How many specifiers are spelled differently now. -/
  replacements : Nat
  /-- Whether the text is different now. -/
  changed : Bool
deriving DecidableEq, Repr

namespace Alias

/-- The alias of a root that is given by any path. -/
def ofPath (cwd : Location) (root : Path) (spelling : Text) : Alias := ⟨root.absolute cwd, spelling⟩

/-- The path of a file from the source root. A file that is not below the root
counts as lying directly in it. -/
def pathFromRoot (a : Alias) (cwd : Location) (p : Path) : Path :=
  let full := p.absolute cwd
  match full.relativeTo? a.root with
  | some rel => rel
  | none => ⟨full.fileName?.getD []⟩

/-- The directories between the source root and a file. -/
def directories (a : Alias) (cwd : Location) (p : Path) : List Text :=
  (a.pathFromRoot cwd p).directories

/-- The alias form of a specifier in a file. -/
def resolve (a : Alias) (cwd : Location) (p : Path) (spec : Text) : Text :=
  Specifier.resolve (a.directories cwd p) a.spelling spec

/-- Replaces the relative specifiers in a text, as if it were the text of the file `p`. -/
def edit (a : Alias) (cwd : Location) (p : Path) (t : Text) : Edit :=
  let s := Import.segment t
  let dirs := a.directories cwd p
  let f := Specifier.resolve dirs a.spelling
  let t' := s.mapSpecs f
  { text := t'
    replacements := s.specs.countP fun spec => f spec ≠ spec
    changed := t' ≠ t }

end Alias

end ImportAlias
