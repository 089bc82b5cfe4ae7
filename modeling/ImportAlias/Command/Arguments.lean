import ImportAlias.Command.Usage

/-!
# Reading the command line

From the arguments to what they ask for.

## The model

The reader goes through the arguments from left to right. An option that takes a
value from the next argument, and the source root, stay pending until something
else that the command knows comes along or the arguments end; only then their
values are looked at. An argument that the command does not know ends the reading
at once, and what was pending is not looked at any more.
-/

namespace ImportAlias.Command

/-- What a command line chooses. -/
structure Choices where
  /-- The source root. -/
  root : Option Bytes
  /-- What is written for the source root. -/
  spelling : Option Text
  /-- The extensions that count, as given. -/
  extensions : List Text
  /-- Whether ignore files are honoured. -/
  ignoreFiles : Bool
  /-- The patterns of names to leave out. -/
  patterns : List Text
  /-- Whether the report is given as JSON. -/
  json : Bool
  /-- When output is colored. -/
  color : Option ColorMode
deriving DecidableEq, Repr

/-- A command line that chooses nothing. -/
def Choices.empty : Choices := ⟨none, none, [], false, [], false, none⟩

/-- Why the reading ends before the arguments do. -/
inductive Stop where
  /-- The command line is not accepted. -/
  | usage (e : UsageError)
  /-- Help is asked for. -/
  | help (long : Bool)
  /-- The version is asked for. -/
  | version
deriving DecidableEq, Repr

/-! ### Values -/

/-- The text of a value. -/
def valueText (bs : Bytes) : Except UsageError Text :=
  match Utf8.decode? bs with
  | some t => .ok t
  | none => .error .notText

/-- The byte of `,`. -/
def comma : UInt8 := 0x2C

/-- The choices after a value was given for an argument. -/
def Choices.accept (c : Choices) (v : Valued) (bs : Bytes) : Except UsageError Choices :=
  match v with
  | .root => if bs = [] then .error (.valueRequired .root) else .ok { c with root := some bs }
  | .spelling =>
    if c.spelling.isSome then .error (.repeated v.label)
    else (valueText bs).map fun t => { c with spelling := some t }
  | .extensions =>
    ((fields comma bs).mapM valueText).map fun ts => { c with extensions := c.extensions ++ ts }
  | .pattern => (valueText bs).map fun t => { c with patterns := c.patterns ++ [t] }
  | .color =>
    if c.color.isSome then .error (.repeated v.label)
    else if bs = [] then .error (.valueRequired .color)
    else
      match (Utf8.decode? bs).bind ColorMode.ofText? with
      | some mode => .ok { c with color := some mode }
      | none => .error (.invalidValue (Utf8.decodeLossy bs) .color)

/-! ### Options -/

/-- How far the reading has come. -/
structure Reading where
  /-- What was chosen so far. -/
  choices : Choices
  /-- An argument whose value is still to be looked at or still to come. -/
  pending : Option (Valued × Option Bytes)
  /-- Whether the source root was given. -/
  rootGiven : Bool
  /-- Whether options have ended. -/
  ended : Bool

/-- Where the reading starts. -/
def Reading.start : Reading := ⟨.empty, none, false, false⟩

namespace Reading

/-- The reading after a value for an argument. -/
def accept (r : Reading) (v : Valued) (bs : Bytes) : Except Stop Reading :=
  match r.choices.accept v bs with
  | .ok c => .ok { r with choices := c, pending := none }
  | .error e => .error (.usage e)

/-- Looks at what is pending. -/
def settle (r : Reading) : Except Stop Reading :=
  match r.pending with
  | none => .ok r
  | some (v, none) => .error (.usage (.valueRequired v))
  | some (v, some bs) => r.accept v bs

/-- An option without a value. -/
def takeSwitch (r : Reading) (s : Switch) : Except Stop Reading := do
  let r ← r.settle
  match s with
  | .help long => .error (.help long)
  | .version => .error .version
  | .json =>
    if r.choices.json then .error (.usage (.repeated s.label))
    else .ok { r with choices := { r.choices with json := true } }
  | .ignoreFiles =>
    if r.choices.ignoreFiles then .error (.usage (.repeated s.label))
    else .ok { r with choices := { r.choices with ignoreFiles := true } }

/-- An option with a value, which may be attached to it. -/
def takeValued (r : Reading) (v : Valued) (attached : Option Bytes) : Except Stop Reading := do
  let r ← r.settle
  match attached with
  | some bs => r.accept v bs
  | none => .ok { r with pending := some (v, none) }

/-- The byte of `=`. -/
def equals : UInt8 := 0x3D

/-- An option with a long name. `bs` is what follows the two dashes. -/
def takeLong (r : Reading) (bs : Bytes) : Except Stop Reading :=
  let name := bs.takeWhile (· ≠ equals)
  let value := match bs.dropWhile (· ≠ equals) with
    | [] => none
    | _ :: rest => some rest
  match (Utf8.decode? name).bind Flag.ofLong? with
  | none => .error (.usage (.unexpected ("--".toList ++ Utf8.decodeLossy name)))
  | some (.valued v) => r.takeValued v value
  | some (.switch s) =>
    match value with
    | none => r.takeSwitch s
    | some bs => .error (.usage (.needlessValue (Utf8.decodeLossy bs) s))

/-- The first character that some bytes spell, if they start with one. -/
def firstChar? (bs : Bytes) : Option Char :=
  [1, 2, 3, 4].findSome? fun n => (Utf8.decode? (bs.take n)).bind List.head?

/-- The value that is attached to a short option, with or without an equals sign. -/
def attachedValue : Bytes → Option Bytes
  | [] => none
  | b :: bs => if b = equals then some bs else some (b :: bs)

/-- An option with a short name. `bs` is what follows the dash. -/
def takeShort (r : Reading) (bs : Bytes) : Except Stop Reading :=
  match firstChar? bs with
  | none => .error (.usage (.unexpected ('-' :: Utf8.decodeLossy bs)))
  | some c =>
    match Flag.ofShort? c with
    | none => .error (.usage (.unexpected ['-', c]))
    | some (.valued v) => r.takeValued v (attachedValue (bs.drop 1))
    | some (.switch s) => r.takeSwitch s

/-- An argument that is no option: the source root. -/
def takeRoot (r : Reading) (bs : Bytes) : Except Stop Reading :=
  if r.rootGiven then .error (.usage (.unexpected (Utf8.decodeLossy bs)))
  else do
    let r ← r.settle
    .ok { r with pending := some (.root, some bs), rootGiven := true }

/-! ### Arguments -/

/-- The byte of `-`. -/
def dash : UInt8 := 0x2D

/-- What an argument looks like while options have not ended. -/
inductive Shape where
  /-- Two dashes alone, which end the options. -/
  | terminator
  /-- A long option. -/
  | long (rest : Bytes)
  /-- A short option. -/
  | short (rest : Bytes)
  /-- A value. -/
  | value

/-- The shape of an argument. A dash alone is a value. -/
def Shape.of : Bytes → Shape
  | a :: b :: rest =>
    if a = dash then
      if b = dash then if rest = [] then .terminator else .long rest
      else .short (b :: rest)
    else .value
  | _ => .value

/-- Reads one argument. -/
def take (r : Reading) (arg : Bytes) : Except Stop Reading :=
  if r.ended then r.takeRoot arg
  else
    match Shape.of arg with
    | .terminator => .ok { r with ended := true }
    | .long rest => r.takeLong rest
    | .short rest => r.takeShort rest
    | .value =>
      match r.pending with
      | some (v, none) => .ok { r with pending := some (v, some arg) }
      | _ => r.takeRoot arg

end Reading

/-- What the arguments choose. -/
def Choices.ofArguments (args : List Bytes) : Except Stop Choices := do
  let r ← args.foldlM Reading.take .start
  let r ← r.settle
  return r.choices

end ImportAlias.Command
