import ImportAlias.Text.Basic

/-!
# Module specifiers

A relative specifier climbs some levels with `../` and then names a module. Seen
from a file in known directories below the source root, the same module can be
named from the root: keep the directories that the climb leaves, and put the
alias of the root in front.
-/

namespace ImportAlias.Specifier

/-- The step from a directory to its parent. -/
def parentStep : Text := ['.', '.', '/']

/-- How many levels a specifier climbs first, and what it names from there. -/
def climb : Text → Nat × Text
  | '.' :: '.' :: '/' :: rest => ((climb rest).1 + 1, (climb rest).2)
  | t => (0, t)

/-- The specifier, named from the source root, that a file in `dirs` may use in
place of `spec`. A climb that leaves the root stops there. -/
def resolve (dirs : List Text) (spelling spec : Text) : Text :=
  let levels := (climb spec).1
  let rest := (climb spec).2
  if dirs.length ≤ levels then spelling ++ rest
  else spelling ++ List.intercalate ['/'] (dirs.take (dirs.length - levels)) ++ '/' :: rest

/-! ### Climbing -/

theorem climb_of_not_parentStep {t : Text} (h : after? parentStep t = none) :
    climb t = (0, t) := by
  unfold climb
  split
  · simp [after?, parentStep] at h
  · rfl

/-- A climb and what follows it spell the specifier. -/
theorem replicate_climb (t : Text) :
    (List.replicate (climb t).1 parentStep).flatten ++ (climb t).2 = t := by
  fun_induction climb t with
  | case1 rest ih => simp [List.replicate_succ, parentStep] at ih ⊢; exact ih
  | case2 t => simp

end ImportAlias.Specifier
