import ImportAlias.Command.Run

/-!
# The command

The outer layer: takes a picture of the files that a run can look at, runs the
command on the picture, and carries its results out.
-/

namespace ImportAlias.Command

/-! ### A picture of the files -/

/-- The location of a path that the system has resolved. -/
def placeOf (resolved : String) : Location :=
  (Path.ofText resolved.toList).components.filterMap Component.name?

/-- The resolved form of a path, if something is there. -/
def resolved? (path : String) : IO (Option String) := do
  try return some (← IO.FS.realPath path).toString
  catch _ => return none

/-- Whether a file can be opened in a mode. -/
def opens (path : String) (mode : IO.FS.Mode) : IO Bool := do
  try
    let _ ← IO.FS.Handle.mk path mode
    return true
  catch _ => return false

/-- Adds the file at a resolved path. -/
def addFile (t : FileTree) (path : String) : IO FileTree := do
  let writable ← opens path .readWrite
  try
    let content ← IO.FS.readBinFile path
    return t.put (placeOf path) (.file content.toList) (some ⟨true, writable, false⟩)
  catch _ => return t.put (placeOf path) (.file []) (some ⟨false, writable, false⟩)

/-- Adds the directories and links that an absolute path goes through. -/
def addWay (t : FileTree) (path : String) : IO FileTree := do
  let mut t := t
  let mut done := ""
  for name in path.splitOn "/" do
    unless name = "" do
      match ← resolved? (done ++ "/"), ← resolved? (done ++ "/" ++ name) with
      | some parent, some there =>
        let here := if parent = "/" then "/" ++ name else parent ++ "/" ++ name
        t := t.put (placeOf there) .dir none
        unless name = "." || name = ".." || here = there do
          t := t.put (placeOf here) (.link (.ofText there.toList)) none
      | _, _ => pure ()
      done := done ++ "/" ++ name
  return t

/-- Adds the file that an absolute path leads to, if there is one, and the way to it. -/
def addFileAt (t : FileTree) (path : Path) : IO FileTree := do
  let spelled := String.ofList path.display
  match ← resolved? spelled with
  | none => return t
  | some there =>
    if ← (← IO.FS.realPath there).isDir then return t
    let names := spelled.splitOn "/"
    let t ← addWay t (String.intercalate "/" names.dropLast)
    match ← resolved? (String.intercalate "/" names.dropLast ++ "/") with
    | none => return t
    | some parent =>
      let here := (if parent = "/" then "" else parent) ++ "/" ++ names.getLast?.getD ""
      let t := if here = there then t else t.put (placeOf here) (.link (.ofText there.toList)) none
      addFile t there

/-- Adds the ignore files of a directory. -/
def addIgnoreFiles (t : FileTree) (cwd dir : Location) : IO FileTree := do
  let place := Location.path (dir ++ [Ignore.repositoryName])
  let mut t ← addFileAt t place
  if let some data := (t.firstLine? cwd place).bind Ignore.linkedData? then
    t ← addFileAt t (cwd.path.join (data.join Ignore.sharedFile))
  for kind in Ignore.Kind.all do
    if let some file := t.ignoreFile? cwd kind dir then t ← addFileAt t (cwd.path.join file)
  return t

/-- Adds the directory at a resolved path and everything below it. What a link
leads to is added as well when it is a file. -/
partial def addDirectory (t : FileTree) (cwd : Location) (path : String) : IO FileTree := do
  let start ← IO.FS.realPath path
  let mut t ← addIgnoreFiles (t.put (placeOf path) .dir none) cwd (placeOf path)
  let entries ← try start.readDir catch _ =>
    return t.put (placeOf path) .dir (some ⟨false, false, true⟩)
  for entry in entries do
    let here := entry.path.toString
    match ← resolved? here with
    | none => t := t.put (placeOf here) (.link (.ofText "/".toList)) none
    | some there =>
      if there = here then
        if ← entry.path.isDir then t ← addDirectory t cwd here else t ← addFile t here
      else
        t := t.put (placeOf here) (.link (.ofText there.toList)) none
        unless ← entry.path.isDir do t ← addFile t there
  return t

/-- Adds the directories and links that an absolute path goes through, and the
ignore files in the directories above what it leads to. -/
def addChain (t : FileTree) (cwd : Location) (path : String) : IO FileTree := do
  let mut t ← addWay t path
  if let some there ← resolved? path then
    for (dir, _) in Ignore.above (placeOf there) do t ← addIgnoreFiles t cwd dir
  return t

/-! ### The run -/

/-- The world that the process runs in, as far as the arguments can look. -/
def observe (args : List Bytes) : IO World := do
  let cwd := (← IO.currentDir).toString
  let place := placeOf cwd
  let mut t ← addChain .empty place cwd
  if let .ok c := Choices.ofArguments args then
    let root := String.ofList (c.settings place).root.display
    t ← addChain t place root
    if let some there ← resolved? root then t ← addDirectory t place there
  let stdout ← IO.getStdout
  let dumb := (← IO.getEnv "TERM") = some "dumb"
  let terminal := (← stdout.isTty) && !dumb
  return {
    tree := t
    cwd := place
    noColor := (← IO.getEnv "NO_COLOR").isSome
    forceColor := (← IO.getEnv "FORCE_COLOR").isSome || terminal
    stdout := .unlimited }

/-- Writes the files that a run changed. -/
def carryOut (before after : FileTree) : IO Unit := do
  for (loc, content) in before.changes after do
    IO.FS.writeBinFile (String.ofList (Location.path loc).display) content.toByteArray

end ImportAlias.Command

/-- Runs the command. -/
def main (args : List String) : IO UInt32 := do
  let args := args.map fun a => ImportAlias.Utf8.encode a.toList
  let world ← ImportAlias.Command.observe args
  let result := ImportAlias.Command.run world args
  ImportAlias.Command.carryOut world.tree result.tree
  IO.print (String.ofList result.stdout)
  IO.eprint (String.ofList result.stderr ++ if result.status = 2 then "\n" else "")
  return result.status.toUInt32
