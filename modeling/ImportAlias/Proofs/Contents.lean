import ImportAlias.Proofs.Shape
import Mathlib.Algebra.GroupWithZero.Nat

/-!
# What the files of a tree hold

Writing a file changes the content of that file and of no other. `fileAt?` is the view
of a tree in which this is one equation, and reading and writing along a path are said
in terms of it.
-/

namespace ImportAlias

/-- The mode and the content of a node, if it is a file. -/
def Node.file? : Node → Option (Mode × Bytes)
  | .leaf (.file mode bs) => some (mode, bs)
  | _ => none

namespace Listing

/-- The mode and the content of the file at a location, if there is one. -/
def fileAt? (l : Listing) (loc : Location) : Option (Mode × Bytes) := (l.get? loc).bind Node.file?

@[simp] theorem fileAt?_nil (l : Listing) : l.fileAt? [] = none := by
  cases l <;> rfl

theorem fileAt?_leaf (n : Name) (what : Leaf) (rest : Listing) (k : Name) (ks : Location) :
    (leaf n what rest).fileAt? (k :: ks) =
      if n = k then if ks = [] then (Node.leaf what).file? else none
      else rest.fileAt? (k :: ks) := by
  unfold fileAt?
  rw [get?]
  by_cases hn : n = k <;> by_cases hks : ks = [] <;> simp [hn, hks]

theorem fileAt?_dir (n : Name) (mode : Mode) (inside rest : Listing) (k : Name) (ks : Location) :
    (dir n mode inside rest).fileAt? (k :: ks) =
      if n = k then inside.fileAt? ks else rest.fileAt? (k :: ks) := by
  unfold fileAt?
  rw [get?]
  by_cases hn : n = k
  · cases ks with
    | nil => cases inside <;> simp [hn, Node.file?, get?]
    | cons j js => simp [hn]
  · simp [hn]

/-- Writing a file changes its content and nothing else. -/
theorem fileAt?_setContent (l : Listing) (bs : Bytes) (loc loc' : Location) :
    (l.setContent bs loc).fileAt? loc' =
      if loc' = loc then (l.fileAt? loc').map fun f => (f.1, bs) else l.fileAt? loc' := by
  induction l generalizing loc loc' with
  | done => cases loc <;> cases loc' <;> simp [setContent, fileAt?, get?]
  | leaf n what rest ih =>
    cases loc with
    | nil => cases loc' <;> simp [setContent]
    | cons k ks =>
      cases loc' with
      | nil => simp
      | cons j js =>
        rw [setContent]
        by_cases hk : n = k
        · subst hk
          rw [if_pos rfl, fileAt?_leaf, fileAt?_leaf]
          by_cases hj : n = j
          · subst hj
            by_cases hjs : js = []
            · by_cases hks : ks = []
              · cases what <;> simp [hjs, hks, Leaf.setContent, Node.file?]
              · simp [hjs, hks, Ne.symm hks]
            · simp [hjs]
          · simp [hj, Ne.symm hj]
        · rw [if_neg hk, fileAt?_leaf, fileAt?_leaf, ih]
          by_cases hj : n = j
          · subst hj
            simp [hk]
          · simp [hj]
  | dir n mode inside rest ih₁ ih₂ =>
    cases loc with
    | nil => cases loc' <;> simp [setContent]
    | cons k ks =>
      cases loc' with
      | nil => simp
      | cons j js =>
        rw [setContent]
        by_cases hk : n = k
        · subst hk
          rw [if_pos rfl, fileAt?_dir, fileAt?_dir, ih₁]
          by_cases hj : n = j
          · subst hj
            simp
          · simp [hj, Ne.symm hj]
        · rw [if_neg hk, fileAt?_dir, fileAt?_dir, ih₂]
          by_cases hj : n = j
          · subst hj
            simp [hk]
          · simp [hj]

/-- A sum over the contents of the files. -/
def total (w : Bytes → Nat) (l : Listing) : Nat := (l.files.map fun f => w f.2).sum

theorem total_leaf (w : Bytes → Nat) (n : Name) (mode : Mode) (bs : Bytes) (rest : Listing) :
    (leaf n (.file mode bs) rest).total w = w bs + rest.total w := by
  simp [total, files]

theorem total_link (w : Bytes → Nat) (n : Name) (target : Path) (rest : Listing) :
    (leaf n (.link target) rest).total w = rest.total w := rfl

theorem total_dir (w : Bytes → Nat) (n : Name) (mode : Mode) (inside rest : Listing) :
    (dir n mode inside rest).total w = inside.total w + rest.total w := by
  simp [total, files, Function.comp_def]

/-- When a file is written, a sum over the contents changes by what that file adds to it. -/
theorem total_setContent (w : Bytes → Nat) {l : Listing} {loc : Location} {mode : Mode}
    {old : Bytes} (new : Bytes) (h : l.fileAt? loc = some (mode, old)) :
    (l.setContent new loc).total w + w old = l.total w + w new := by
  induction l generalizing loc with
  | done => cases loc <;> simp [fileAt?, get?] at h
  | leaf n what rest ih =>
    cases loc with
    | nil => simp at h
    | cons k ks =>
      rw [fileAt?_leaf] at h
      rw [setContent]
      by_cases hk : n = k
      · rw [if_pos hk] at h ⊢
        by_cases hks : ks = []
        · rw [if_pos hks] at h ⊢
          cases what with
          | link target => cases h
          | file mode' bs =>
            simp only [Node.file?, Option.some.injEq, Prod.mk.injEq] at h
            rw [Leaf.setContent, total_leaf, total_leaf, h.2]
            omega
        · rw [if_neg hks] at h
          cases h
      · rw [if_neg hk] at h ⊢
        have hrest := ih h
        cases what with
        | link target => rw [total_link, total_link, hrest]
        | file mode' bs =>
          rw [total_leaf, total_leaf]
          omega
  | dir n mode' inside rest ih₁ ih₂ =>
    cases loc with
    | nil => simp at h
    | cons k ks =>
      rw [fileAt?_dir] at h
      rw [setContent]
      by_cases hk : n = k
      · rw [if_pos hk] at h ⊢
        have hinside := ih₁ h
        rw [total_dir, total_dir]
        omega
      · rw [if_neg hk] at h ⊢
        have hrest := ih₂ h
        rw [total_dir, total_dir]
        omega

end Listing

namespace FileTree

/-- The mode and the content of the file at a location, if there is one. -/
def fileAt? (t : FileTree) (loc : Location) : Option (Mode × Bytes) := (t.get? loc).bind Node.file?

theorem fileAt?_eq (t : FileTree) (loc : Location) : t.fileAt? loc = t.top.fileAt? loc := by
  unfold fileAt? get?
  by_cases h : loc = []
  · simp [h, Node.file?]
  · simp [h, Listing.fileAt?]

theorem fileAt?_eq_some_iff {t : FileTree} {loc : Location} {mode : Mode} {bs : Bytes} :
    t.fileAt? loc = some (mode, bs) ↔ t.get? loc = some (.leaf (.file mode bs)) := by
  unfold fileAt?
  cases t.get? loc with
  | none => simp
  | some node =>
    cases node with
    | dir mode' inside => simp [Node.file?]
    | leaf what => cases what <;> simp [Node.file?]

/-- Writing a file changes its content and nothing else. -/
theorem fileAt?_setContent (t : FileTree) (loc : Location) (bs : Bytes) (loc' : Location) :
    (t.setContent loc bs).fileAt? loc' =
      if loc' = loc then (t.fileAt? loc').map fun f => (f.1, bs) else t.fileAt? loc' := by
  simp only [fileAt?_eq]
  exact t.top.fileAt?_setContent bs loc loc'

theorem fileAt?_shape (t : FileTree) (loc : Location) :
    t.shape.fileAt? loc = (t.fileAt? loc).map fun f => (f.1, []) := by
  unfold fileAt?
  rw [get?_shape]
  match t.get? loc with
  | none => rfl
  | some (.dir mode inside) => rfl
  | some (.leaf (.link target)) => rfl
  | some (.leaf (.file mode bs)) => rfl

/-- Trees of the same shape have files with the same modes in the same places. -/
theorem exists_fileAt?_of_shape {t t' : FileTree} (h : t'.shape = t.shape) {loc : Location}
    {mode : Mode} {bs : Bytes} (hfile : t'.fileAt? loc = some (mode, bs)) :
    ∃ bs', t.fileAt? loc = some (mode, bs') := by
  have hshape := t.fileAt?_shape loc
  rw [← h, fileAt?_shape, hfile] at hshape
  obtain ⟨f, hf, he⟩ := Option.map_eq_some_iff.1 hshape.symm
  have hmode : f.1 = mode := (Prod.mk.inj he).1
  exact ⟨f.2, by rw [hf, ← hmode]⟩

/-- A sum over the contents of the files. -/
def total (w : Bytes → Nat) (t : FileTree) : Nat := t.top.total w

theorem total_setContent (w : Bytes → Nat) {t : FileTree} {loc : Location} {mode : Mode}
    {old : Bytes} (new : Bytes) (h : t.fileAt? loc = some (mode, old)) :
    (t.setContent loc new).total w + w old = t.total w + w new :=
  Listing.total_setContent w new (by rw [← fileAt?_eq, h])

/-! ### Along a path -/

/-- A text is read where a path leads to a file that may be read and holds UTF-8. -/
theorem readText_eq_ok_iff {t : FileTree} {cwd : Location} {p : Path} {text : Text} :
    t.readText cwd p = .ok text ↔ ∃ loc mode bs, t.locate cwd p = .ok loc ∧
      t.fileAt? loc = some (mode, bs) ∧ mode.read ∧ Utf8.decode? bs = some text := by
  simp only [fileAt?_eq_some_iff]
  unfold readText readBytes contentAt
  constructor
  · intro h
    cases hloc : t.locate cwd p with
    | error e => simp [hloc] at h
    | ok loc =>
      rw [hloc] at h
      match hget : t.get? loc with
      | none => simp [hget] at h
      | some (.dir mode inside) => simp [hget] at h
      | some (.leaf (.link target)) => simp [hget] at h
      | some (.leaf (.file mode bs)) =>
        by_cases hread : mode.read = true
        · cases hd : Utf8.decode? bs with
          | none => simp [hget, hread, hd] at h
          | some text' =>
            simp only [hget, hread, if_true, hd, Except.ok.injEq] at h
            exact ⟨loc, mode, bs, rfl, hget, hread, h ▸ hd⟩
        · simp [hget, hread] at h
  · rintro ⟨loc, mode, bs, hloc, hget, hread, hd⟩
    simp only [hloc, hget, hread, if_true, hd]

/-- A write is refused where the file may not be written. -/
theorem writeText_eq {t : FileTree} {cwd : Location} {p : Path} {loc : Location} {mode : Mode}
    {bs : Bytes} (hloc : t.locate cwd p = .ok loc) (hfile : t.fileAt? loc = some (mode, bs))
    (text : Text) :
    t.writeText cwd p text =
      if mode.write then .ok (t.setContent loc (Utf8.encode text)) else .error (.system .denied) := by
  rw [writeText, hloc]
  simp only [fileAt?_eq_some_iff.1 hfile]

end FileTree

end ImportAlias
