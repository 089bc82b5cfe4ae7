import ImportAlias.Path.Basic

/-!
# Faults

Why a file could not be read or written, and how that is said.
-/

namespace ImportAlias

/-- An error that the operating system reports. -/
inductive SystemError where
  /-- The operation is not permitted. -/
  | notPermitted
  /-- There is no such file. -/
  | notFound
  /-- The device failed. -/
  | deviceFailure
  /-- The resource is not available now. -/
  | unavailable
  /-- The permissions do not allow it. -/
  | denied
  /-- The file is there already. -/
  | alreadyExists
  /-- A file stands where a directory is needed. -/
  | notDirectory
  /-- A directory stands where a file is needed. -/
  | isDirectory
  /-- The file is a program that runs. -/
  | textBusy
  /-- The device is full. -/
  | noSpace
  /-- The file system cannot be written. -/
  | readOnly
  /-- A name is too long. -/
  | nameTooLong
  /-- Following links did not come to an end. -/
  | linkLoop
deriving DecidableEq, Repr

namespace SystemError

/-- The number of an error. -/
def number : SystemError → Nat
  | .notPermitted => 1
  | .notFound => 2
  | .deviceFailure => 5
  | .unavailable => 11
  | .denied => 13
  | .alreadyExists => 17
  | .notDirectory => 20
  | .isDirectory => 21
  | .textBusy => 26
  | .noSpace => 28
  | .readOnly => 30
  | .nameTooLong => 36
  | .linkLoop => 40

/-- The description of an error. -/
def description : SystemError → String
  | .notPermitted => "Operation not permitted"
  | .notFound => "No such file or directory"
  | .deviceFailure => "Input/output error"
  | .unavailable => "Resource temporarily unavailable"
  | .denied => "Permission denied"
  | .alreadyExists => "File exists"
  | .notDirectory => "Not a directory"
  | .isDirectory => "Is a directory"
  | .textBusy => "Text file busy"
  | .noSpace => "No space left on device"
  | .readOnly => "Read-only file system"
  | .nameTooLong => "File name too long"
  | .linkLoop => "Too many levels of symbolic links"

/-- Every error. -/
def all : List SystemError :=
  [.notPermitted, .notFound, .deviceFailure, .unavailable, .denied, .alreadyExists, .notDirectory,
   .isDirectory, .textBusy, .noSpace, .readOnly, .nameTooLong, .linkLoop]

/-- The error with a number. -/
def ofNumber? (n : Nat) : Option SystemError := all.find? fun e => e.number = n

/-- How an error is shown. -/
def message (e : SystemError) : Text :=
  e.description.toList ++ " (os error ".toList ++ decimal e.number ++ [')']

theorem ofNumber?_number (e : SystemError) : ofNumber? e.number = some e := by
  cases e <;> rfl

end SystemError

/-- Why a file could not be read or written. -/
inductive Fault where
  /-- The operating system refused. -/
  | system (e : SystemError)
  /-- The content is not UTF-8. -/
  | notText
  /-- The path holds a NUL byte. -/
  | nulInPath
  /-- Another cause, in its own words. -/
  | other (cause : Text)
deriving DecidableEq, Repr

/-- How a fault is shown. -/
def Fault.message : Fault → Text
  | .system e => e.message
  | .notText => "stream did not contain valid UTF-8".toList
  | .nulInPath => "file name contained an unexpected NUL byte".toList
  | .other cause => cause

/-- What was being done with a file. -/
inductive Access where
  /-- Its text was being read. -/
  | read
  /-- Its new text was being written. -/
  | write
deriving DecidableEq, Repr

/-- The failure of one file. -/
structure FileError where
  /-- What was being done. -/
  access : Access
  /-- The path, as it was given. -/
  path : Path
  /-- Why it failed. -/
  fault : Fault
deriving DecidableEq, Repr

namespace FileError

/-- The cause alone, without the path. -/
def cause (e : FileError) : Text := e.fault.message

/-- How the failure is shown. -/
def message (e : FileError) : Text :=
  let doing := match e.access with
    | .read => "failed to read "
    | .write => "failed to write "
  doing.toList ++ e.path.display ++ ": ".toList ++ e.cause

end FileError

end ImportAlias
