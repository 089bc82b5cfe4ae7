import ImportAlias.Scan.Walk
import ImportAlias.Tree.Access

/-!
# The shape of a tree

The shape of a tree is everything but what its files hold: names, modes, directories
and links. Writing a file keeps the shape, and the shape alone decides where a path
leads, whether it leads to a file, and what a walk meets.

## The model

The shape of a tree is the tree with every file emptied. That something depends on the
shape alone is said by one equation: it is the same for a tree and for its shape.
-/

namespace ImportAlias

namespace Listing

/-- The listing with every file emptied. -/
def shape : Listing → Listing
  | .done => .done
  | .leaf n what rest => .leaf n (what.setContent []) rest.shape
  | .dir n mode inside rest => .dir n mode inside.shape rest.shape

end Listing

/-- The node with every file emptied. -/
def Node.shape : Node → Node
  | .leaf what => .leaf (what.setContent [])
  | .dir mode inside => .dir mode inside.shape

theorem Leaf.setContent_setContent (bs bs' : Bytes) (what : Leaf) :
    (what.setContent bs).setContent bs' = what.setContent bs' := by
  cases what <;> rfl

namespace Listing

theorem Above.shape {k : Name} {l : Listing} (h : l.Above k) : l.shape.Above k := by
  induction l with
  | done => trivial
  | leaf n what rest ih => exact ⟨h.1, ih h.2⟩
  | dir n mode inside rest _ ih => exact ⟨h.1, ih h.2⟩

theorem WellFormed.shape {l : Listing} (h : l.WellFormed) : l.shape.WellFormed := by
  induction l with
  | done => trivial
  | leaf n what rest ih => exact ⟨h.1, h.2.1.shape, ih h.2.2⟩
  | dir n mode inside rest ih₁ ih₂ => exact ⟨h.1, ih₁ h.2.1, h.2.2.1.shape, ih₂ h.2.2.2⟩

/-- Writing a file keeps the shape. -/
@[simp] theorem shape_setContent (l : Listing) (bs : Bytes) (loc : Location) :
    (l.setContent bs loc).shape = l.shape := by
  induction l generalizing loc with
  | done => cases loc <;> rfl
  | leaf n what rest ih =>
    cases loc with
    | nil => rfl
    | cons k ks =>
      rw [setContent]
      split
      · split
        · simp [shape, Leaf.setContent_setContent]
        · rfl
      · simp [shape, ih]
  | dir n mode inside rest ih₁ ih₂ =>
    cases loc with
    | nil => rfl
    | cons k ks =>
      rw [setContent]
      split
      · simp [shape, ih₁]
      · simp [shape, ih₂]

/-- What stands at a location of the shape is the shape of what stands there. -/
theorem get?_shape (l : Listing) (loc : Location) :
    l.shape.get? loc = (l.get? loc).map Node.shape := by
  induction l generalizing loc with
  | done => cases loc <;> rfl
  | leaf n what rest ih =>
    cases loc with
    | nil => rfl
    | cons k ks =>
      rw [shape, get?, get?, ih]
      by_cases hn : n = k <;> by_cases hks : ks = [] <;> simp [hn, hks, Node.shape]
  | dir n mode inside rest ih₁ ih₂ =>
    cases loc with
    | nil => rfl
    | cons k ks =>
      rw [shape, get?, get?, ih₁, ih₂]
      by_cases hn : n = k <;> by_cases hks : ks = [] <;> simp [hn, hks, Node.shape]

/-- A walk meets the same names in the shape. -/
theorem walk_shape (skip : List Name → Bool → Bool) (l : Listing) (enter : Bool)
    (here : List Name) : l.shape.walk skip enter here = l.walk skip enter here := by
  induction l generalizing enter here with
  | done => rfl
  | leaf n what rest ih => simp [shape, walk, ih]
  | dir n mode inside rest ih₁ ih₂ => simp [shape, walk, ih₁, ih₂]

end Listing

namespace FileTree

/-- The tree with every file emptied. -/
def shape (t : FileTree) : FileTree := ⟨t.top.shape, t.wellFormed.shape⟩

/-- Writing a file keeps the shape. -/
@[simp] theorem shape_setContent (t : FileTree) (loc : Location) (bs : Bytes) :
    (t.setContent loc bs).shape = t.shape :=
  ext (t.top.shape_setContent bs loc)

theorem get?_shape (t : FileTree) (loc : Location) :
    t.shape.get? loc = (t.get? loc).map Node.shape := by
  unfold get?
  by_cases h : loc = []
  · simp [h, Node.shape, shape]
  · simp [h, shape, Listing.get?_shape]

/-- Steps lead to the same location in the shape. -/
theorem walkWith_shape (t : FileTree) (follow : Location → List Step → Except SystemError Location)
    (loc : Location) (steps : List Step) :
    t.shape.walkWith follow loc steps = t.walkWith follow loc steps := by
  induction steps generalizing loc with
  | nil => rfl
  | cons s rest ih =>
    rw [walkWith, walkWith, get?_shape]
    cases t.get? loc with
    | none => rfl
    | some node =>
      cases node with
      | leaf what => cases what <;> rfl
      | dir mode inside =>
        cases s with
        | stay | up | close => simp [Node.shape, ih]
        | down n =>
          simp only [Option.map_some, Node.shape, get?_shape, ih]
          cases t.get? (loc ++ [n]) with
          | none => rfl
          | some node =>
            cases node with
            | leaf what => cases what <;> rfl
            | dir mode inside => rfl

theorem walkSteps_shape (t : FileTree) (links : Nat) (loc : Location) (steps : List Step) :
    t.shape.walkSteps links loc steps = t.walkSteps links loc steps := by
  induction links generalizing loc steps with
  | zero => exact t.walkWith_shape _ loc steps
  | succ links ih =>
    have hfollow : t.shape.walkSteps links = t.walkSteps links :=
      funext fun loc => funext fun steps => ih loc steps
    rw [walkSteps, walkSteps, hfollow]
    exact t.walkWith_shape _ loc steps

/-- A path leads to the same location in the shape. -/
theorem locate_shape (t : FileTree) (cwd : Location) (p : Path) :
    t.shape.locate cwd p = t.locate cwd p := by
  simp only [locate, walkSteps_shape]

/-- A path leads to the same location in trees of the same shape. -/
theorem locate_of_shape {t t' : FileTree} (h : t'.shape = t.shape) (cwd : Location) (p : Path) :
    t'.locate cwd p = t.locate cwd p := by
  rw [← locate_shape, h, locate_shape]

theorem isFile_shape (t : FileTree) (cwd : Location) (p : Path) :
    t.shape.isFile cwd p = t.isFile cwd p := by
  unfold isFile
  rw [locate_shape]
  cases t.locate cwd p with
  | error e => rfl
  | ok loc =>
    simp only [get?_shape]
    cases t.get? loc with
    | none => rfl
    | some node =>
      cases node with
      | leaf what => cases what <;> rfl
      | dir mode inside => rfl

end FileTree

end ImportAlias
