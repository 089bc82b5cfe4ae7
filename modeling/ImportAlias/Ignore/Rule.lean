import ImportAlias.Ignore.Depth
import ImportAlias.Ignore.Reader
import ImportAlias.Text.Blank

/-!
# Ignore rules

An ignore file has a rule on each line: a glob for what to leave out or, after
`!`, for what to keep. A glob with a slash at its start or inside it is about
paths from the directory of the file, any other one about names at any depth. A
closing slash confines a rule to directories. Of all rules that match, the last
one decides.
-/

namespace ImportAlias.Ignore

/-- What a rule says about an entry. -/
inductive Verdict where
  /-- The entry is left out. -/
  | leaveOut
  /-- The entry is kept. -/
  | keep
deriving DecidableEq, Repr

/-- A rule of an ignore file. -/
structure Rule where
  /-- What the rule is about. -/
  glob : List Part
  /-- What it says. -/
  verdict : Verdict
  /-- Whether it is only about directories. -/
  onlyDirectories : Bool

/-! ### Lines -/

/-- Whether a text starts with another one. -/
def startsWith (lead t : Text) : Bool := (after? lead t).isSome

/-- Whether a text ends with another one. -/
def endsWith (tail t : Text) : Bool := tail.isSuffixOf t

/-- The full glob for one that is not tied to the directory of its file. -/
def unanchored (t : Text) : Text :=
  if startsWith ['*', '*', '/'] t || t = ['*', '*'] then t else ['*', '*', '/'] ++ t

/-- A glob for everything below a directory, which leaves the directory itself alone. -/
def strictlyBelow (t : Text) : Text := if endsWith ['/', '*', '*'] t then t ++ ['/', '*'] else t

/-- A line without the sign for what to keep and without the slash that ties it to
the directory of its file: the verdict, whether the slash was there, and the rest.
A backslash takes its meaning from an opening `!` or `#`. -/
def readSigns (t : Text) : Verdict × Bool × Text :=
  match t with
  | '\\' :: '!' :: t => (.leaveOut, false, '!' :: t)
  | '\\' :: '#' :: t => (.leaveOut, false, '#' :: t)
  | '!' :: '/' :: t => (.keep, true, t)
  | '!' :: t => (.keep, false, t)
  | '/' :: t => (.leaveOut, true, t)
  | t => (.leaveOut, false, t)

/-- A glob without the slash that confines it to directories, and whether it had
one. A backslash in front of that slash goes with it. -/
def readClosing (t : Text) : Bool × Text :=
  if endsWith ['/'] t then
    let t := t.dropLast
    (true, if endsWith ['\\'] t then t.dropLast else t)
  else (false, t)

/-- The rule on a line, if it has one. -/
def Rule.ofLine? (line : Text) : Option Rule :=
  if startsWith ['#'] line then none
  else
    let line := if endsWith ['\\', ' '] line then line else Text.trimEnd line
    if line = [] then none
    else
      let (verdict, anchored, glob) := readSigns line
      let (onlyDirectories, glob) := readClosing glob
      let glob := if anchored || glob.contains '/' then glob else unanchored glob
      (readGlob? (strictlyBelow glob)).map fun parts => ⟨parts, verdict, onlyDirectories⟩

/-! ### Files -/

/-- The byte that ends a line. -/
def newline : UInt8 := 0x0A

/-- The byte that may stand before the end of a line. -/
def carriageReturn : UInt8 := 0x0D

/-- A line without a carriage return at its end. -/
def dropReturn (line : Bytes) : Bytes :=
  if line.getLast? = some carriageReturn then line.dropLast else line

/-- The lines of a file, without the marks that end them. -/
def lines (bs : Bytes) : List Bytes :=
  let parts := fields newline bs
  let last := parts.getLast?.getD []
  parts.dropLast.map dropReturn ++ if last = [] then [] else [last]

/-- The lines up to the first one that is no text. -/
def textLines : List Bytes → List Text
  | [] => []
  | bs :: rest =>
    match Utf8.decode? bs with
    | some t => t :: textLines rest
    | none => []

/-- The text lines with the byte order marks at their start dropped. -/
def dropMarks : List Text → List Text
  | [] => []
  | t :: rest => t.dropWhile (fun c => c.toNat = 0xFEFF) :: rest

/-- The rules of an ignore file with the given content. An ill-formed line has none,
and a glob that is nested too deep leaves the whole file without any. -/
def rules (content : Bytes) : List Rule :=
  let rs := (dropMarks (textLines (lines content))).filterMap Rule.ofLine?
  if rs.all fun r => withinDepth r.glob then rs else []

/-! ### Verdicts -/

/-- Whether a rule is about a path. -/
def Rule.applies (r : Rule) (path : Bytes) (isDirectory : Bool) : Bool :=
  (!r.onlyDirectories || isDirectory) && globMatches r.glob path

/-- What the last rule that is about a path says. -/
def verdict? (rs : List Rule) (path : Bytes) (isDirectory : Bool) : Option Verdict :=
  (rs.reverse.find? fun r => r.applies path isDirectory).map Rule.verdict

end ImportAlias.Ignore
