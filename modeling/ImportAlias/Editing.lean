import ImportAlias.Report
import ImportAlias.Tree.Access

/-!
# Editing files

Puts an alias to use in the files of a tree. One file is read, edited and, only
if its text changed, written back; a file that fails leaves the tree as it was
and does not stop the others. Each outcome is shown to an observer as soon as it
is known and then recorded.
-/

namespace ImportAlias.Alias

/-- Edits the file that a path leads to: the result, and the tree afterwards. -/
def editFile (a : Alias) (cwd : Location) (t : FileTree) (p : Path) :
    Except FileError Edit × FileTree :=
  match t.readText cwd p with
  | .error f => (.error ⟨.read, p, f⟩, t)
  | .ok text =>
    let e := a.edit cwd p text
    if e.changed then
      match t.writeText cwd p e.text with
      | .error f => (.error ⟨.write, p, f⟩, t)
      | .ok t' => (.ok e, t')
    else (.ok e, t)

/-- Where the reader of an outcome stands: the directory around the source root. -/
def displayBase (a : Alias) : Path := a.root.parent?.getD a.root

/-- The outcome of editing a file, and the tree afterwards. -/
def process (a : Alias) (cwd : Location) (t : FileTree) (p : Path) : Outcome × FileTree :=
  let r := a.editFile cwd t p
  (.ofResult p (p.displayFrom a.displayBase) r.1, r.2)

/-- How far a run over several files has come. -/
structure Progress (σ : Type) where
  /-- The tree as it is now. -/
  tree : FileTree
  /-- What has been recorded. -/
  report : Report
  /-- What the observer makes of it. -/
  seen : σ

/-- Deals with one more file. -/
def step {σ : Type} (a : Alias) (cwd : Location) (observe : σ → Outcome → σ) (s : Progress σ)
    (p : Path) : Progress σ :=
  let r := a.process cwd s.tree p
  ⟨r.2, s.report.record r.1, observe s.seen r.1⟩

/-- Edits the files that the paths lead to, one after the other. -/
def editAll {σ : Type} (a : Alias) (cwd : Location) (observe : σ → Outcome → σ) (seen : σ)
    (t : FileTree) (ps : List Path) : Progress σ :=
  ps.foldl (a.step cwd observe) ⟨t, .new a.root, seen⟩

end ImportAlias.Alias
