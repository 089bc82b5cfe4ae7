import ImportAlias.Ignore.Glob

/-!
# How deep a glob is nested

Braces may stand inside braces, but only so deep. A level is used up by each pair
of braces, by a choice between several branches, by several items in a row, by a
repetition, and by a class; a class of several ranges uses up two. A glob as a
whole is always a row of items.

Each byte of a character is an item of its own. Parts that stand for nothing are
no items and have no depth.
-/

namespace ImportAlias.Ignore

/-- How deep a glob may be nested. -/
def maxDepth : Nat := 250

/-- How many items a part consists of. -/
def Part.items : Part → Nat
  | .char c => (String.utf8EncodeChar c).length
  | .inside => 2
  | p => if p.isVoid then 0 else 1

/-- How many items some parts consist of. -/
def itemsOf : List Part → Nat
  | [] => 0
  | p :: ps => p.items + itemsOf ps

mutual

/-- How deep a part is nested. -/
def Part.depth : Part → Nat
  | .char _ => 0
  | .anyOne | .inside => 1
  | .run => 2
  | .leading | .between => 4
  | .oneOf _ ranges => if ranges.length ≤ 1 then 1 else 2
  | .choice branches =>
    if branchesVoid branches then 0
    else
      (if (branches.filter fun ps => !partsVoid ps).length ≤ 1 then 1 else 2) +
        branchesDepth branches

/-- How deep the deepest of some parts is nested. -/
def partsDepth : List Part → Nat
  | [] => 0
  | p :: ps => max p.depth (partsDepth ps)

/-- How deep the deepest of some branches is nested, each with the row that it is. -/
def branchesDepth : List (List Part) → Nat
  | [] => 0
  | ps :: branches =>
    max ((if itemsOf ps ≤ 1 then 0 else 1) + partsDepth ps) (branchesDepth branches)

end

/-- Whether a glob is not nested too deep. -/
def withinDepth (ps : List Part) : Bool := 1 + partsDepth ps ≤ maxDepth

end ImportAlias.Ignore
