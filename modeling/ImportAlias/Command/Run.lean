import ImportAlias.Command.Arguments
import ImportAlias.Command.Help
import ImportAlias.Console.Message
import ImportAlias.Console.Sink
import ImportAlias.Editing
import ImportAlias.Json.Report
import ImportAlias.Scan.Candidate

/-!
# Runs of the command

A whole run, from the arguments to the exit status: find the candidates, edit
them, and tell about it, either line by line on the console or as one document
at the end.

## The model

A run starts in a world of a file tree, a working directory, two facts about the
environment and what standard output will take. It gives the tree it leaves
behind, what standard output took, what went to standard error, and its status.
Once a run has said how many files it found, a refusal of standard output only
silences it: the files are edited all the same.

A refusal of what goes to the console is an error like others, and the run complains
of it. A document is printed without asking whether that went well, so a refusal of
the document is a panic. The message of a panic is the run's own, but where it came
from and what could be learnt of it is added by the runtime and is not modelled.
-/

namespace ImportAlias.Command

open Console (Event Sink Capacity)

/-- What a run starts from. -/
structure World where
  /-- The file system. -/
  tree : FileTree
  /-- The working directory. -/
  cwd : Location
  /-- Whether the environment forbids color. -/
  noColor : Bool
  /-- Whether the environment asks for color or can show it. -/
  forceColor : Bool
  /-- What standard output takes. -/
  stdout : Capacity

/-- What a run leaves behind. -/
structure Result where
  /-- The exit status. -/
  status : Nat
  /-- What standard output took. -/
  stdout : Text
  /-- What was written to standard error. Of a panic this is the message alone. -/
  stderr : Text
  /-- The file system. -/
  tree : FileTree

/-! ### What was chosen -/

/-- The source root as the user spelled it. -/
def Choices.givenRoot (c : Choices) : Path := ⟨c.root.getD (Utf8.encode "src".toList)⟩

/-- The settings that a command line chooses. -/
def Choices.settings (c : Choices) (cwd : Location) : Settings :=
  let s := Settings.ofRoot (cwd.path.join c.givenRoot)
  let s := { s with
    spelling := c.spelling.getD s.spelling
    ignoreFiles := c.ignoreFiles
    patterns := c.patterns }
  if c.extensions = [] then s else s.withExtensions c.extensions

/-- Whether output is colored. Without a word from the user the environment decides,
and what it forbids goes before what it asks for. -/
def Choices.useColor (c : Choices) (w : World) : Bool :=
  match c.color.getD .auto with
  | .always => true
  | .never => false
  | .auto => !w.noColor && w.forceColor

/-! ### Telling -/

/-- A complaint of the command. -/
def complaint (t : Text) : Text := "aliasfix: ".toList ++ t ++ ['\n']

/-- The complaint about a root that is no directory. -/
def noDirectory (root : Path) : Text :=
  complaint ("cannot access '".toList ++ root.display ++ "': No such directory".toList)

/-- The complaint about extensions of which none can be used. -/
def noExtensions : Text := complaint "no usable extensions given".toList

/-- The complaint about output that was refused. -/
def outputFailed (cause : Text) : Text := complaint ("error writing output: ".toList ++ cause)

/-- The message of a panic about output that was refused. -/
def outputPanic (cause : Text) : Text := "failed printing to stdout: ".toList ++ cause ++ ['\n']

/-- The status of a run that panics. -/
def panicStatus : Nat := 101

/-- The status of a run that made a report. -/
def reportStatus (r : Report) : Nat := if r.hasFailures then 1 else 0

/-! ### Runs -/

/-- Edits the candidates and tells about each of them. -/
def runConsole (w : World) (a : Alias) (candidates : List Path) (color : Bool) : Result :=
  let announced := (Sink.new w.stdout).send ((Event.found candidates.length).writes color)
  match announced.failure with
  | some e => ⟨1, announced.taken, outputFailed e.message, w.tree⟩
  | none =>
    let tell := fun (s : Sink) (o : Outcome) => s.send ((Event.outcome o).writes color)
    let done := a.editAll w.cwd tell announced w.tree candidates
    let closed := done.seen.send ((Event.summary done.report).writes color)
    match closed.failure with
    | some e => ⟨1, closed.taken, outputFailed e.message, done.tree⟩
    | none => ⟨reportStatus done.report, closed.taken, [], done.tree⟩

/-- Edits the candidates and gives the report as a document. A report without one is
complained of; a document that is refused is a panic. -/
def runJson (w : World) (a : Alias) (candidates : List Path) : Result :=
  let done := a.editAll w.cwd (fun (_ : Unit) _ => ()) () w.tree candidates
  match done.report.toJson? with
  | none => ⟨1, [], outputFailed Report.noDocument, done.tree⟩
  | some document =>
    let told := (Sink.new w.stdout).send [document.pretty, ['\n']]
    match told.failure with
    | some e => ⟨panicStatus, told.taken, outputPanic e.message, done.tree⟩
    | none => ⟨reportStatus done.report, told.taken, [], done.tree⟩

/-- The run that a command line chooses. -/
def runChoices (w : World) (c : Choices) : Result :=
  let s := c.settings w.cwd
  if w.tree.isDirectory w.cwd s.root = false then ⟨1, [], noDirectory c.givenRoot, w.tree⟩
  else if s.extensions = [] then ⟨1, [], noExtensions, w.tree⟩
  else
    let candidates := s.scan w.cwd w.tree
    let a := s.toAlias w.cwd
    if c.json then runJson w a candidates
    else runConsole w a candidates (c.useColor w)

/-- A run of the command. -/
def run (w : World) (args : List Bytes) : Result :=
  match Choices.ofArguments args with
  | .ok c => runChoices w c
  | .error (.usage e) => ⟨2, [], e.headline, w.tree⟩
  | .error (.help long) => ⟨0, ((Sink.new w.stdout).send (helpBlocks long)).taken, [], w.tree⟩
  | .error .version => ⟨0, ((Sink.new w.stdout).send [versionText]).taken, [], w.tree⟩

end ImportAlias.Command
