import ImportAlias.Tree.Listing

/-!
# File trees

A whole file system: the listing of its root directory together with the fact
that it is well formed. Every operation gives a file tree back, so the fact holds
of every tree that a run or a session reaches.
-/

namespace ImportAlias

/-- A file system. -/
structure FileTree where
  /-- What its root directory holds. -/
  top : Listing
  /-- Names may be names, and each directory is sorted by them. -/
  wellFormed : top.WellFormed

namespace FileTree

@[ext] theorem ext {s t : FileTree} (h : s.top = t.top) : s = t := by
  cases s; cases t; cases h; rfl

instance : DecidableEq FileTree := fun s t =>
  decidable_of_iff (s.top = t.top) ⟨ext, congrArg top⟩

/-- The file system with nothing in it. -/
def empty : FileTree := ⟨.done, trivial⟩

/-- What stands at a location. The root is a directory in which everything is allowed. -/
def get? (t : FileTree) (loc : Location) : Option Node :=
  if loc = [] then some (.dir .all t.top) else t.top.get? loc

/-- The tree with another content in the file at a location. -/
def setContent (t : FileTree) (loc : Location) (bs : Bytes) : FileTree :=
  ⟨t.top.setContent bs loc, t.wellFormed.setContent bs loc⟩

/-- The regular files with their locations. -/
def files (t : FileTree) : List (Location × Bytes) := t.top.files

/-! ### Making a tree -/

/-- What is to be put at a location. -/
inductive Item where
  /-- A file. -/
  | file (content : Bytes)
  /-- A directory. -/
  | dir
  /-- A symbolic link. -/
  | link (target : Path)

/-- The node that stands where an item was put. A file put over a file and a
directory put over a directory keep its mode unless another one is given, and the
directory keeps what is inside. -/
def Item.over (item : Item) (mode : Option Mode) (there : Option Node) : Node :=
  match item, there with
  | .file bs, some (.leaf (.file m _)) => .leaf (.file (mode.getD m) bs)
  | .file bs, _ => .leaf (.file (mode.getD .all) bs)
  | .dir, some (.dir m inside) => .dir (mode.getD m) inside
  | .dir, _ => .dir (mode.getD .all) .done
  | .link target, _ => .leaf (.link target)

theorem Item.wellFormed_over (item : Item) (mode : Option Mode) (there : Option Node)
    (h : ∀ x, there = some x → x.WellFormed) : (item.over mode there).WellFormed := by
  unfold Item.over
  split
  · trivial
  · trivial
  · next m inside => exact h (.dir m inside) rfl
  · trivial
  · trivial

/-- The tree with an item at a location, and with the directories that lead to it.
Nothing happens if a name on the way may not be one. -/
def put (t : FileTree) (loc : Location) (item : Item) (mode : Option Mode) : FileTree :=
  if h : ∀ k ∈ loc, Name.Valid k then
    ⟨t.top.alterAt (fun there => some (item.over mode there)) loc,
     t.wellFormed.alterAt h (by
      intro o x ho hx
      simp only [Option.some.injEq] at hx
      subst hx
      exact item.wellFormed_over mode o ho)⟩
  else t

/-- The tree without what was at a location. -/
def remove (t : FileTree) (loc : Location) : FileTree :=
  if h : (∀ k ∈ loc, Name.Valid k) ∧ (t.get? loc).isSome then
    ⟨t.top.alterAt (fun _ => none) loc,
     t.wellFormed.alterAt h.1 (by intro o x _ hx; simp at hx)⟩
  else t

/-! ### Comparing trees -/

/-- The regular files of a tree that hold something else than in another tree. -/
def changes (before after : FileTree) : List (Location × Bytes) :=
  after.files.filter fun f =>
    match before.get? f.1 with
    | some (.leaf (.file _ bs)) => bs ≠ f.2
    | _ => true

end FileTree

end ImportAlias
