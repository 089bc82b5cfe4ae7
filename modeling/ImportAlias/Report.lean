import ImportAlias.Outcome

/-!
# Reports

The account of a run: its outcomes in the order in which they came, and how many
there were of each kind. A report grows by `record`.
-/

namespace ImportAlias

/-- The account of a run. -/
structure Report where
  /-- The source root. -/
  root : Path
  /-- How many files were looked at. -/
  examined : Nat
  /-- How many were changed. -/
  fixed : Nat
  /-- How many had nothing to change. -/
  unchanged : Nat
  /-- How many could not be read or written. -/
  failed : Nat
  /-- The outcomes, in order. -/
  files : List Outcome
deriving DecidableEq, Repr

namespace Report

/-- The report of a run that has done nothing yet. -/
def new (root : Path) : Report := ⟨root, 0, 0, 0, 0, []⟩

/-- The report after one more outcome. -/
def record (r : Report) (o : Outcome) : Report :=
  let r := { r with examined := r.examined + 1, files := r.files ++ [o] }
  match o.status with
  | .fixed => { r with fixed := r.fixed + 1 }
  | .unchanged => { r with unchanged := r.unchanged + 1 }
  | .failed _ => { r with failed := r.failed + 1 }

/-- Whether some file failed. -/
def hasFailures (r : Report) : Bool := 0 < r.failed

end Report

end ImportAlias
