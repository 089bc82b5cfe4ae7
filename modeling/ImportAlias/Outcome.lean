import ImportAlias.Alias
import ImportAlias.Fault

/-!
# Outcomes

What happened to one candidate file in a run.
-/

namespace ImportAlias

/-- How a file fared. -/
inductive Status where
  /-- Its text was changed. -/
  | fixed
  /-- There was nothing to change. -/
  | unchanged
  /-- It could not be read or written. -/
  | failed (cause : Text)
deriving DecidableEq, Repr

/-- What happened to one file. -/
structure Outcome where
  /-- The path of the file. -/
  path : Path
  /-- The path shown to the user. -/
  displayPath : Text
  /-- How the file fared. -/
  status : Status
  /-- How many specifiers were changed. -/
  replacements : Nat
deriving DecidableEq, Repr

namespace Outcome

/-- The outcome of an attempt to edit a file. -/
def ofResult (path : Path) (displayPath : Text) : Except FileError Edit → Outcome
  | .ok e =>
    if e.changed then ⟨path, displayPath, .fixed, e.replacements⟩
    else ⟨path, displayPath, .unchanged, 0⟩
  | .error e => ⟨path, displayPath, .failed e.cause, 0⟩

/-- Whether the file was changed. -/
def isFixed (o : Outcome) : Bool := o.status = .fixed

/-- Whether the file had nothing to change. -/
def isUnchanged (o : Outcome) : Bool := o.status = .unchanged

/-- Whether the file could not be read or written. -/
def isFailed (o : Outcome) : Bool :=
  match o.status with
  | .failed _ => true
  | _ => false

end Outcome

end ImportAlias
