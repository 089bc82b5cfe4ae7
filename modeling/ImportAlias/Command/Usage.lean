import ImportAlias.Console.Printable
import ImportAlias.Text.Utf8

/-!
# The options of the command

What the command line may hold, how each option is spelled, and what is wrong
with a command line that is not accepted. Messages show what the user gave without
its control sequences.
-/

namespace ImportAlias.Command

/-- When output is colored. -/
inductive ColorMode where
  /-- When the environment asks for it. -/
  | auto
  /-- Always. -/
  | always
  /-- Never. -/
  | never
deriving DecidableEq, Repr

/-- The mode that a word asks for. -/
def ColorMode.ofText? (t : Text) : Option ColorMode :=
  if t = "auto".toList then some .auto
  else if t = "always".toList then some .always
  else if t = "never".toList then some .never
  else none

/-- An argument with a value. -/
inductive Valued where
  /-- The source root, which has no option in front of it. -/
  | root
  /-- What is written for the source root. -/
  | spelling
  /-- Extensions that count. -/
  | extensions
  /-- A pattern of names to leave out. -/
  | pattern
  /-- When output is colored. -/
  | color
deriving DecidableEq, Repr

/-- An option without a value. -/
inductive Switch where
  /-- Honour ignore files. -/
  | ignoreFiles
  /-- Give the report as JSON. -/
  | json
  /-- Tell how the command is used, at length or in short. -/
  | help (long : Bool)
  /-- Tell the version. -/
  | version
deriving DecidableEq, Repr

/-- An option. -/
inductive Flag where
  /-- One that takes a value. -/
  | valued (v : Valued)
  /-- One that takes none. -/
  | switch (s : Switch)
deriving DecidableEq, Repr

/-- The option with a long name. -/
def Flag.ofLong? (name : Text) : Option Flag :=
  if name = "alias".toList then some (.valued .spelling)
  else if name = "ext".toList then some (.valued .extensions)
  else if name = "ignore".toList then some (.valued .pattern)
  else if name = "color".toList then some (.valued .color)
  else if name = "gitignore".toList then some (.switch .ignoreFiles)
  else if name = "json".toList then some (.switch .json)
  else if name = "help".toList then some (.switch (.help true))
  else if name = "version".toList then some (.switch .version)
  else none

/-- The option with a short name. -/
def Flag.ofShort? (c : Char) : Option Flag :=
  if c = 'a' then some (.valued .spelling)
  else if c = 'e' then some (.valued .extensions)
  else if c = 'I' then some (.valued .pattern)
  else if c = 'h' then some (.switch (.help false))
  else if c = 'V' then some (.switch .version)
  else none

/-- How an argument with a value is named in messages. -/
def Valued.label : Valued → Text
  | .root => "[ROOT]".toList
  | .spelling => "--alias <ALIAS>".toList
  | .extensions => "--ext <EXTENSIONS>".toList
  | .pattern => "--ignore <IGNORE>".toList
  | .color => "--color <WHEN>".toList

/-- How an option without a value is named in messages. -/
def Switch.label : Switch → Text
  | .ignoreFiles => "--gitignore".toList
  | .json => "--json".toList
  | .help _ => "--help".toList
  | .version => "--version".toList

/-- What is wrong with a command line. -/
inductive UsageError where
  /-- An argument that the command does not know. -/
  | unexpected (argument : Text)
  /-- A value is missing. -/
  | valueRequired (v : Valued)
  /-- A value that is not among those allowed. -/
  | invalidValue (value : Text) (v : Valued)
  /-- An option that was given before. -/
  | repeated (label : Text)
  /-- A value for an option that takes none. -/
  | needlessValue (value : Text) (s : Switch)
  /-- A value that is not UTF-8. -/
  | notText
deriving DecidableEq, Repr

/-- How a fault of the command line is told. -/
def UsageError.message : UsageError → Text
  | .unexpected argument =>
    "error: unexpected argument '".toList ++ Console.printable argument ++ "' found".toList
  | .valueRequired v =>
    "error: a value is required for '".toList ++ v.label ++ "' but none was supplied".toList
  | .invalidValue value v =>
    "error: invalid value '".toList ++ Console.printable value ++ "' for '".toList ++ v.label ++
      "'".toList
  | .repeated label =>
    "error: the argument '".toList ++ label ++ "' cannot be used multiple times".toList
  | .needlessValue value s =>
    "error: unexpected value '".toList ++ Console.printable value ++ "' for '".toList ++ s.label ++
      "' found; no more were expected".toList
  | .notText => "error: invalid UTF-8 was detected in one or more arguments".toList

/-- The first line of what is told. -/
def UsageError.headline (e : UsageError) : Text := e.message.takeWhile (· ≠ '\n')

end ImportAlias.Command
