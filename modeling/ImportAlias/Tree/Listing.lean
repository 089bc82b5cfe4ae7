import ImportAlias.Path.Absolute

/-!
# Directory listings

What a directory holds: files, links and directories under names. A listing is
kept sorted by the bytes of its names and no name occurs twice, at every level;
`Listing.WellFormed` says so, and the operations keep it.

## The model

A listing is a chain of entries in which a directory carries its own listing, so
that a whole tree is one inductive type and a statement about trees is a plain
induction.
-/

namespace ImportAlias

/-! ### Names -/

namespace Name

/-- Whether a name comes before another one, byte by byte. -/
def before : Name → Name → Bool
  | [], [] => false
  | [], _ :: _ => true
  | _ :: _, [] => false
  | a :: m, b :: n => a.toNat < b.toNat || (a = b && before m n)

/-- What the name of an entry may be. -/
def Valid (n : Name) : Prop :=
  n ≠ [] ∧ n ≠ [dot] ∧ n ≠ [dot, dot] ∧ slash ∉ n ∧ (0 : UInt8) ∉ n ∧ n.length ≤ 255

instance (n : Name) : Decidable n.Valid := by unfold Valid; infer_instance

theorem before_irrefl (n : Name) : before n n = false := by
  induction n with
  | nil => rfl
  | cons a n ih => simp [before, ih]

theorem before_trans {l m n : Name} (h₁ : before l m) (h₂ : before m n) : before l n := by
  induction l generalizing m n with
  | nil =>
    cases n with
    | nil => cases m <;> simp [before] at h₁ h₂
    | cons c n => rfl
  | cons a l ih =>
    cases m with
    | nil => simp [before] at h₁
    | cons b m =>
      cases n with
      | nil => simp [before] at h₂
      | cons c n =>
        simp only [before, Bool.or_eq_true, decide_eq_true_eq, Bool.and_eq_true] at h₁ h₂ ⊢
        rcases h₁ with h₁ | ⟨rfl, h₁⟩ <;> rcases h₂ with h₂ | ⟨rfl, h₂⟩
        · exact .inl (by omega)
        · exact .inl h₁
        · exact .inl h₂
        · exact .inr ⟨rfl, ih h₁ h₂⟩

theorem before_of_not_before {m n : Name} (hne : m ≠ n) (h : before m n = false) : before n m := by
  induction m generalizing n with
  | nil => cases n <;> simp_all [before]
  | cons a m ih =>
    cases n with
    | nil => rfl
    | cons b n =>
      simp only [before, Bool.or_eq_false_iff, decide_eq_false_iff_not, Bool.and_eq_false_imp,
        decide_eq_true_eq, Bool.or_eq_true, Bool.and_eq_true] at h ⊢
      by_cases hab : a = b
      · subst hab
        exact .inr ⟨rfl, ih (fun e => hne (by rw [e])) (h.2 rfl)⟩
      · refine .inl ?_
        have : a.toNat ≠ b.toNat := fun e => hab (UInt8.toNat_inj.1 e)
        omega

end Name

/-! ### Entries -/

/-- What the owner of a file or directory may do with it. -/
structure Mode where
  /-- Read it, or list it. -/
  read : Bool
  /-- Write it. -/
  write : Bool
  /-- Reach what is inside it. -/
  enter : Bool
deriving DecidableEq, Repr

/-- Everything is allowed. -/
def Mode.all : Mode := ⟨true, true, true⟩

/-- An entry with nothing inside it. -/
inductive Leaf where
  /-- A regular file. -/
  | file (mode : Mode) (content : Bytes)
  /-- A symbolic link. -/
  | link (target : Path)
deriving DecidableEq, Repr

/-- The leaf with another content, if it is a file. -/
def Leaf.setContent (bs : Bytes) : Leaf → Leaf
  | .file mode _ => .file mode bs
  | .link target => .link target

/-- What a directory holds. -/
inductive Listing where
  /-- Nothing more. -/
  | done
  /-- A file or a link, and the rest of the directory. -/
  | leaf (name : Name) (what : Leaf) (rest : Listing)
  /-- A directory with what is inside it, and the rest of the directory around it. -/
  | dir (name : Name) (mode : Mode) (inside rest : Listing)
deriving DecidableEq, Repr

/-- What a location may hold. -/
inductive Node where
  /-- A file or a link. -/
  | leaf (what : Leaf)
  /-- A directory. -/
  | dir (mode : Mode) (inside : Listing)
deriving DecidableEq, Repr

namespace Listing

/-! ### Looking up and writing -/

/-- What stands at a location below a listing. -/
def get? : Listing → Location → Option Node
  | _, [] => none
  | .done, _ :: _ => none
  | .leaf n what rest, k :: ks =>
    if n = k then if ks = [] then some (.leaf what) else none else rest.get? (k :: ks)
  | .dir n mode inside rest, k :: ks =>
    if n = k then if ks = [] then some (.dir mode inside) else inside.get? ks
    else rest.get? (k :: ks)

/-- The listing with another content in the file at a location. -/
def setContent (bs : Bytes) : Listing → Location → Listing
  | l, [] => l
  | .done, _ :: _ => .done
  | .leaf n what rest, k :: ks =>
    if n = k then .leaf n (if ks = [] then what.setContent bs else what) rest
    else .leaf n what (rest.setContent bs (k :: ks))
  | .dir n mode inside rest, k :: ks =>
    if n = k then .dir n mode (inside.setContent bs ks) rest
    else .dir n mode inside (rest.setContent bs (k :: ks))

/-- The regular files below a listing, with the names that lead to them. -/
def files : Listing → List (Location × Bytes)
  | .done => []
  | .leaf n (.file _ bs) rest => ([n], bs) :: rest.files
  | .leaf _ (.link _) rest => rest.files
  | .dir n _ inside rest => inside.files.map (fun f => (n :: f.1, f.2)) ++ rest.files

/-! ### Adding and removing -/

/-- A listing with one more entry in front. -/
def cons? (k : Name) : Option Node → Listing → Listing
  | none, rest => rest
  | some (.leaf what), rest => .leaf k what rest
  | some (.dir mode inside), rest => .dir k mode inside rest

/-- The listing with what is under one name replaced. -/
def alter (f : Option Node → Option Node) (k : Name) : Listing → Listing
  | .done => cons? k (f none) .done
  | .leaf n what rest =>
    if n = k then cons? k (f (some (.leaf what))) rest
    else if k.before n then cons? k (f none) (.leaf n what rest)
    else .leaf n what (alter f k rest)
  | .dir n mode inside rest =>
    if n = k then cons? k (f (some (.dir mode inside))) rest
    else if k.before n then cons? k (f none) (.dir n mode inside rest)
    else .dir n mode inside (alter f k rest)

/-- The listing with what is at one location replaced. Directories that are missing
on the way are made, and a file on the way stops it. -/
def alterAt (f : Option Node → Option Node) : Location → Listing → Listing
  | [], l => l
  | [k], l => l.alter f k
  | k :: ks, l =>
    l.alter (fun
      | none => some (.dir .all (alterAt f ks .done))
      | some (.dir mode inside) => some (.dir mode (alterAt f ks inside))
      | some (.leaf what) => some (.leaf what)) k

/-! ### Order -/

/-- Every name of the listing itself comes after `k`. -/
def Above (k : Name) : Listing → Prop
  | .done => True
  | .leaf n _ rest => k.before n ∧ rest.Above k
  | .dir n _ _ rest => k.before n ∧ rest.Above k

/-- Every name may be one and the names of each directory are strictly increasing. -/
def WellFormed : Listing → Prop
  | .done => True
  | .leaf n _ rest => n.Valid ∧ rest.Above n ∧ rest.WellFormed
  | .dir n _ inside rest => n.Valid ∧ inside.WellFormed ∧ rest.Above n ∧ rest.WellFormed

end Listing

/-- What is inside a node is well formed. -/
def Node.WellFormed : Node → Prop
  | .leaf _ => True
  | .dir _ inside => inside.WellFormed

namespace Listing

theorem Above.trans {j k : Name} {l : Listing} (h : j.before k) (hl : l.Above k) : l.Above j := by
  induction l with
  | done => trivial
  | leaf n what rest ih => exact ⟨Name.before_trans h hl.1, ih hl.2⟩
  | dir n mode inside rest _ ih => exact ⟨Name.before_trans h hl.1, ih hl.2⟩

theorem Above.setContent {k : Name} {l : Listing} (bs : Bytes) (loc : Location) (h : l.Above k) :
    (l.setContent bs loc).Above k := by
  induction l generalizing loc with
  | done => cases loc <;> trivial
  | leaf n what rest ih =>
    cases loc with
    | nil => exact h
    | cons j js =>
      rw [Listing.setContent]
      split
      · exact h
      · exact ⟨h.1, ih _ h.2⟩
  | dir n mode inside rest _ ih =>
    cases loc with
    | nil => exact h
    | cons j js =>
      rw [Listing.setContent]
      split
      · exact h
      · exact ⟨h.1, ih _ h.2⟩

/-- Writing a file keeps the order. -/
theorem WellFormed.setContent {l : Listing} (bs : Bytes) (loc : Location) (h : l.WellFormed) :
    (l.setContent bs loc).WellFormed := by
  induction l generalizing loc with
  | done => cases loc <;> trivial
  | leaf n what rest ih =>
    cases loc with
    | nil => exact h
    | cons j js =>
      rw [Listing.setContent]
      split
      · exact h
      · exact ⟨h.1, h.2.1.setContent bs _, ih _ h.2.2⟩
  | dir n mode inside rest ih₁ ih₂ =>
    cases loc with
    | nil => exact h
    | cons j js =>
      rw [Listing.setContent]
      split
      · exact ⟨h.1, ih₁ _ h.2.1, h.2.2⟩
      · exact ⟨h.1, h.2.1, h.2.2.1.setContent bs _, ih₂ _ h.2.2.2⟩

theorem Above.cons? {j k : Name} {node : Option Node} {rest : Listing} (h : j.before k)
    (hr : rest.Above j) : (Listing.cons? k node rest).Above j := by
  match node with
  | none => exact hr
  | some (.leaf _) => exact ⟨h, hr⟩
  | some (.dir _ _) => exact ⟨h, hr⟩

theorem WellFormed.cons? {k : Name} {node : Option Node} {rest : Listing} (hk : k.Valid)
    (hn : ∀ x, node = some x → x.WellFormed) (ha : rest.Above k) (hr : rest.WellFormed) :
    (Listing.cons? k node rest).WellFormed := by
  match node, hn with
  | none, _ => exact hr
  | some (.leaf _), _ => exact ⟨hk, ha, hr⟩
  | some (.dir _ _), hn => exact ⟨hk, hn _ rfl, ha, hr⟩

theorem Above.alter {j k : Name} {l : Listing} (f : Option Node → Option Node) (h : j.before k)
    (hl : l.Above j) : (l.alter f k).Above j := by
  induction l with
  | done => exact Above.cons? h trivial
  | leaf n what rest ih =>
    rw [Listing.alter]
    split
    · exact Above.cons? h hl.2
    · split
      · exact Above.cons? h hl
      · exact ⟨hl.1, ih hl.2⟩
  | dir n mode inside rest _ ih =>
    rw [Listing.alter]
    split
    · exact Above.cons? h hl.2
    · split
      · exact Above.cons? h hl
      · exact ⟨hl.1, ih hl.2⟩

theorem WellFormed.alter {k : Name} {l : Listing} {f : Option Node → Option Node} (hk : k.Valid)
    (hf : ∀ o x, (∀ y, o = some y → y.WellFormed) → f o = some x → x.WellFormed)
    (h : l.WellFormed) : (l.alter f k).WellFormed := by
  have hnone : ∀ x, f none = some x → x.WellFormed := fun x => hf none x (by simp)
  induction l with
  | done => exact WellFormed.cons? hk hnone trivial trivial
  | leaf n what rest ih =>
    rw [Listing.alter]
    split
    · next e =>
      subst e
      exact WellFormed.cons? hk (fun x => hf _ x (by rintro y ⟨⟩; trivial)) h.2.1 h.2.2
    · next e =>
      split
      · next hb => exact WellFormed.cons? hk hnone ⟨hb, h.2.1.trans hb⟩ h
      · next hb =>
        have := Name.before_of_not_before (Ne.symm e) (by simpa using hb)
        exact ⟨h.1, h.2.1.alter f this, ih h.2.2⟩
  | dir n mode inside rest _ ih =>
    rw [Listing.alter]
    split
    · next e =>
      subst e
      exact WellFormed.cons? hk (fun x => hf _ x (by rintro y ⟨⟩; exact h.2.1)) h.2.2.1 h.2.2.2
    · next e =>
      split
      · next hb => exact WellFormed.cons? hk hnone ⟨hb, h.2.2.1.trans hb⟩ h
      · next hb =>
        have := Name.before_of_not_before (Ne.symm e) (by simpa using hb)
        exact ⟨h.1, h.2.1, h.2.2.1.alter f this, ih h.2.2.2⟩

/-- Replacing what is at a location keeps the order. -/
theorem WellFormed.alterAt {l : Listing} {loc : Location} {f : Option Node → Option Node}
    (hk : ∀ k ∈ loc, Name.Valid k)
    (hf : ∀ o x, (∀ y, o = some y → y.WellFormed) → f o = some x → x.WellFormed)
    (h : l.WellFormed) : (l.alterAt f loc).WellFormed := by
  match loc with
  | [] => exact h
  | [k] => exact h.alter (hk k (by simp)) hf
  | k :: k' :: ks =>
    rw [Listing.alterAt]
    · refine h.alter (hk k (by simp)) ?_
      have hks : ∀ j ∈ k' :: ks, Name.Valid j := fun j hj => hk j (List.mem_cons_of_mem _ hj)
      intro o x ho hx
      match o with
      | none =>
        simp only [Option.some.injEq] at hx
        subst hx
        exact WellFormed.alterAt hks hf trivial
      | some (.dir mode inside) =>
        simp only [Option.some.injEq] at hx
        subst hx
        exact WellFormed.alterAt hks hf (ho _ rfl)
      | some (.leaf what) =>
        simp only [Option.some.injEq] at hx
        subst hx
        trivial
    · simp

end Listing

end ImportAlias
