import ImportAlias.Tree.Resolve

/-!
# Reading and writing files

What a process may do with a path: ask what it is, read its text, replace the
text. Links are followed. A write that is refused leaves no tree behind, so the
caller keeps the one it had.
-/

namespace ImportAlias.FileTree

/-- Whether a path leads to a regular file. -/
def isFile (t : FileTree) (cwd : Location) (p : Path) : Bool :=
  match t.locate cwd p with
  | .error _ => false
  | .ok loc =>
    match t.get? loc with
    | some (.leaf (.file _ _)) => true
    | _ => false

/-- Whether a path leads to a directory. -/
def isDirectory (t : FileTree) (cwd : Location) (p : Path) : Bool :=
  match t.locate cwd p with
  | .error _ => false
  | .ok loc =>
    match t.get? loc with
    | some (.dir _ _) => true
    | _ => false

/-- The bytes of the file at a location. -/
def contentAt (t : FileTree) (loc : Location) : Except Fault Bytes :=
  match t.get? loc with
  | some (.leaf (.file mode bs)) => if mode.read then .ok bs else .error (.system .denied)
  | some (.dir mode _) => .error (.system (if mode.read then .isDirectory else .denied))
  | some (.leaf (.link _)) => .error (.system .linkLoop)
  | none => .error (.system .notFound)

/-- The bytes of the file that a path leads to. -/
def readBytes (t : FileTree) (cwd : Location) (p : Path) : Except Fault Bytes :=
  match t.locate cwd p with
  | .error e => .error e
  | .ok loc => t.contentAt loc

/-- The text of the file that a path leads to. -/
def readText (t : FileTree) (cwd : Location) (p : Path) : Except Fault Text :=
  match t.readBytes cwd p with
  | .error e => .error e
  | .ok bs =>
    match Utf8.decode? bs with
    | some text => .ok text
    | none => .error .notText

/-- The tree after the file that a path leads to got another text. -/
def writeText (t : FileTree) (cwd : Location) (p : Path) (text : Text) : Except Fault FileTree :=
  match t.locate cwd p with
  | .error e => .error e
  | .ok loc =>
    match t.get? loc with
    | some (.leaf (.file mode _)) =>
      if mode.write then .ok (t.setContent loc (Utf8.encode text)) else .error (.system .denied)
    | some (.dir _ _) => .error (.system .isDirectory)
    | some (.leaf (.link _)) => .error (.system .linkLoop)
    | none => .error (.system .notFound)

end ImportAlias.FileTree
