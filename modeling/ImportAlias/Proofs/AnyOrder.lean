import ImportAlias.Proofs.Independence

/-!
# Files in any order

Where the paths of a run lead to different files, it does not matter in which order they come.
What becomes of a file, its outcome and its new content, is a function of its path and of what
the path leads to in the first tree; so every order gives the same tree, the same outcome for
each path and the same counts. A file that fails might as well not have been on the list.

## The model

`lookUp` is all that editing a file sees of the tree, and `fate` all that follows from it.
Two trees are the same if they have the same shape and the same files (`eq_of_shape`), so
what is known of each file says what the whole tree is.
-/

namespace ImportAlias

/-! ### Trees with the same files -/

theorem Listing.get?_eq_none_of_above {l : Listing} {n : Name} (h : l.Above n) (ks : Location) :
    l.get? (n :: ks) = none := by
  have hne : ∀ m : Name, n.before m → m ≠ n := by
    rintro m hm rfl
    rw [Name.before_irrefl] at hm
    cases hm
  induction l with
  | done => rfl
  | leaf m what rest ih => rw [get?, if_neg (hne m h.1), ih h.2]
  | dir m mode inside rest _ ih => rw [get?, if_neg (hne m h.1), ih h.2]

/-- Listings of the same shape that hold the same files are the same. -/
theorem Listing.eq_of_shape {l l' : Listing} (hl : l.WellFormed) (hl' : l'.WellFormed)
    (hshape : l'.shape = l.shape) (hfile : ∀ loc, l'.fileAt? loc = l.fileAt? loc) : l' = l := by
  induction l generalizing l' with
  | done =>
    cases l' with
    | done => rfl
    | leaf n what rest => cases hshape
    | dir n mode inside rest => cases hshape
  | leaf n what rest ih =>
    cases l' with
    | done => cases hshape
    | dir n' mode' inside' rest' => cases hshape
    | leaf n' what' rest' =>
      simp only [shape, leaf.injEq] at hshape
      obtain ⟨rfl, hwhat, hrest⟩ := hshape
      have hsame : what' = what := by
        have hhere := hfile [n']
        rw [fileAt?_leaf, fileAt?_leaf] at hhere
        cases what <;> cases what' <;> simp_all [Leaf.setContent, Node.file?]
      have hothers : rest' = rest := by
        refine ih hl.2.2 hl'.2.2 hrest fun loc => ?_
        cases loc with
        | nil => simp
        | cons k ks =>
          by_cases hk : n' = k
          · subst hk
            rw [fileAt?, fileAt?, get?_eq_none_of_above hl.2.1, get?_eq_none_of_above hl'.2.1]
          · have hthere := hfile (k :: ks)
            rwa [fileAt?_leaf, fileAt?_leaf, if_neg hk, if_neg hk] at hthere
      rw [hsame, hothers]
  | dir n mode inside rest ih₁ ih₂ =>
    cases l' with
    | done => cases hshape
    | leaf n' what' rest' => cases hshape
    | dir n' mode' inside' rest' =>
      simp only [shape, dir.injEq] at hshape
      obtain ⟨rfl, rfl, hinside, hrest⟩ := hshape
      have hsame : inside' = inside := by
        refine ih₁ hl.2.1 hl'.2.1 hinside fun loc => ?_
        have hhere := hfile (n' :: loc)
        rwa [fileAt?_dir, fileAt?_dir, if_pos rfl, if_pos rfl] at hhere
      have hothers : rest' = rest := by
        refine ih₂ hl.2.2.2 hl'.2.2.2 hrest fun loc => ?_
        cases loc with
        | nil => simp
        | cons k ks =>
          by_cases hk : n' = k
          · subst hk
            rw [fileAt?, fileAt?, get?_eq_none_of_above hl.2.2.1,
              get?_eq_none_of_above hl'.2.2.1]
          · have hthere := hfile (k :: ks)
            rwa [fileAt?_dir, fileAt?_dir, if_neg hk, if_neg hk] at hthere
      rw [hsame, hothers]

namespace FileTree

/-- Trees of the same shape that hold the same files are the same. -/
theorem eq_of_shape {t t' : FileTree} (hshape : t'.shape = t.shape)
    (hfile : ∀ loc, t'.fileAt? loc = t.fileAt? loc) : t' = t := by
  refine ext (Listing.eq_of_shape t.wellFormed t'.wellFormed (congrArg top hshape) fun loc => ?_)
  rw [← fileAt?_eq, ← fileAt?_eq, hfile]

/-! ### What editing a file sees -/

/-- What a path leads to: the mode and the content of a file, or why there is none. -/
def lookUp (t : FileTree) (cwd : Location) (p : Path) : Except Fault (Mode × Bytes) :=
  match t.locate cwd p with
  | .error f => .error f
  | .ok loc =>
    match t.get? loc with
    | some (.leaf (.file mode bs)) => .ok (mode, bs)
    | some (.leaf (.link _)) => .error (.system .linkLoop)
    | some (.dir mode _) => .error (.system (if mode.read then .isDirectory else .denied))
    | none => .error (.system .notFound)

/-- The text of the file that a path leads to depends on what it leads to. -/
theorem readText_eq (t : FileTree) (cwd : Location) (p : Path) :
    t.readText cwd p =
      match t.lookUp cwd p with
      | .error f => .error f
      | .ok (mode, bs) =>
        if mode.read then
          match Utf8.decode? bs with
          | some text => .ok text
          | none => .error .notText
        else .error (.system .denied) := by
  unfold readText readBytes contentAt lookUp
  cases t.locate cwd p with
  | error f => rfl
  | ok loc =>
    dsimp only
    match t.get? loc with
    | none => rfl
    | some (.dir mode inside) => rfl
    | some (.leaf (.link target)) => rfl
    | some (.leaf (.file mode bs)) =>
      cases hread : mode.read with
      | true => cases htext : Utf8.decode? bs <;> simp only [hread, htext, if_true]
      | false => simp only [hread, Bool.false_eq_true, if_false]

theorem exists_of_lookUp {t : FileTree} {cwd : Location} {p : Path} {mode : Mode} {bs : Bytes}
    (h : t.lookUp cwd p = .ok (mode, bs)) :
    ∃ loc, t.locate cwd p = .ok loc ∧ t.fileAt? loc = some (mode, bs) := by
  unfold lookUp at h
  split at h
  · cases h
  · next loc hloc =>
    split at h <;> cases h
    next hget => exact ⟨loc, hloc, fileAt?_eq_some_iff.2 hget⟩

instance (t : FileTree) (cwd : Location) (p q : Path) : Decidable (t.Apart cwd p q) :=
  decidable_of_iff ((t.locate cwd p).toOption = (t.locate cwd q).toOption →
      (t.locate cwd p).toOption = none) (by
    unfold Apart
    cases t.locate cwd p <;> cases t.locate cwd q <;> simp [Except.toOption, eq_comm])

theorem Apart.symm {t : FileTree} {cwd : Location} {p q : Path} (h : t.Apart cwd p q) :
    t.Apart cwd q p := fun loc hq hp => h loc hp hq

end FileTree

namespace Alias

variable {a : Alias} {cwd : Location} {t : FileTree}

/-! ### What becomes of a file -/

/-- What becomes of the file that a path leads to: its outcome, and what it holds afterwards
if it is written. -/
def fate (a : Alias) (cwd : Location) (p : Path) (found : Except Fault (Mode × Bytes)) :
    Outcome × Option Bytes :=
  let tell := fun status replacements => Outcome.mk p (p.displayFrom a.displayBase) status replacements
  match found with
  | .error f => (tell (.failed f.message) 0, none)
  | .ok (mode, bs) =>
    if mode.read then
      match Utf8.decode? bs with
      | none => (tell (.failed Fault.notText.message) 0, none)
      | some text =>
        let e := a.edit cwd p text
        if e.changed then
          if mode.write then (tell .fixed e.replacements, some (Utf8.encode e.text))
          else (tell (.failed SystemError.denied.message) 0, none)
        else (tell .unchanged 0, none)
    else (tell (.failed SystemError.denied.message) 0, none)

/-- The step for one file does what becomes of it and nothing else. -/
theorem process_eq_fate (a : Alias) (cwd : Location) (t : FileTree) (p : Path) :
    (a.process cwd t p).1 = (a.fate cwd p (t.lookUp cwd p)).1 ∧
    ∀ loc mode bs, t.locate cwd p = .ok loc → t.fileAt? loc = some (mode, bs) →
      (a.process cwd t p).2.fileAt? loc =
        some (mode, (a.fate cwd p (t.lookUp cwd p)).2.getD bs) := by
  have hread := t.readText_eq cwd p
  cases hfound : t.lookUp cwd p with
  | error f =>
    rw [hfound] at hread
    rw [process_of_error hread]
    exact ⟨rfl, fun loc mode bs _ hfile => hfile⟩
  | ok found =>
    obtain ⟨mode, bs⟩ := found
    obtain ⟨loc, hloc, hfile⟩ := FileTree.exists_of_lookUp hfound
    have hhere : ∀ loc' mode' bs', t.locate cwd p = .ok loc' → t.fileAt? loc' = some (mode', bs') →
        loc' = loc ∧ mode' = mode ∧ bs' = bs := by
      intro loc' mode' bs' hloc' hfile'
      rw [hloc] at hloc'
      cases hloc'
      rw [hfile] at hfile'
      cases hfile'
      exact ⟨rfl, rfl, rfl⟩
    rw [hfound] at hread
    by_cases hmode : mode.read = true
    · cases htext : Utf8.decode? bs with
      | none =>
        simp only [hmode, if_true, htext] at hread
        rw [process_of_error hread]
        simp [fate, hmode, htext]
      | some text =>
        rw [process_of_file hloc hfile hmode htext]
        by_cases hchanged : (a.edit cwd p text).changed = true
        · by_cases hwrite : mode.write = true
          · simp only [fate, hmode, htext, hchanged, hwrite, if_true, true_and, Option.getD_some]
            intro loc' mode' bs' hloc' hfile'
            obtain ⟨rfl, rfl, rfl⟩ := hhere loc' mode' bs' hloc' hfile'
            rw [FileTree.fileAt?_setContent, if_pos rfl, hfile]
            rfl
          · simp [fate, hmode, htext, hchanged, hwrite]
        · simp [fate, hmode, htext, hchanged]
    · simp only [hmode, Bool.false_eq_true, if_false] at hread
      rw [process_of_error hread]
      simp only [fate, hmode, Bool.false_eq_true, if_false]
      exact ⟨rfl, fun loc' mode' bs' _ hfile' => hfile'⟩

/-! ### Several files -/

/-- A run leaves a file as it was if no path that leads there does anything. -/
theorem fileAt?_editEach_of_idle {ps : List Path} (h : ps.Pairwise (t.Apart cwd)) {loc : Location}
    (hidle : ∀ p ∈ ps, t.locate cwd p = .ok loc → (a.process cwd t p).2 = t) :
    (a.editEach cwd t ps).2.fileAt? loc = t.fileAt? loc := by
  by_cases hsome : ∃ p ∈ ps, t.locate cwd p = .ok loc
  · obtain ⟨p, hp, hloc⟩ := hsome
    rw [fileAt?_editEach h hp hloc, hidle p hp hloc]
  · exact fileAt?_editEach_of_ne fun p hp hloc => hsome ⟨p, hp, hloc⟩

/-- Runs over the same files leave the same tree, where only files that a run does something
to have to be the same. -/
theorem editEach_congr {ps qs : List Path} (hps : ps.Pairwise (t.Apart cwd))
    (hqs : qs.Pairwise (t.Apart cwd))
    (h : ∀ p, (a.process cwd t p).2 ≠ t → (p ∈ qs ↔ p ∈ ps)) :
    (a.editEach cwd t qs).2 = (a.editEach cwd t ps).2 := by
  refine FileTree.eq_of_shape ?_ fun loc => ?_
  · rw [shape_editEach, shape_editEach]
  · by_cases hactive : ∃ p ∈ ps, t.locate cwd p = .ok loc ∧ (a.process cwd t p).2 ≠ t
    · obtain ⟨p, hp, hloc, hne⟩ := hactive
      rw [fileAt?_editEach hps hp hloc, fileAt?_editEach hqs ((h p hne).2 hp) hloc]
    · have hidle : ∀ p ∈ ps, t.locate cwd p = .ok loc → (a.process cwd t p).2 = t :=
        fun p hp hloc => Classical.not_not.1 fun hne => hactive ⟨p, hp, hloc, hne⟩
      have hidle' : ∀ q ∈ qs, t.locate cwd q = .ok loc → (a.process cwd t q).2 = t :=
        fun q hq hloc => Classical.not_not.1 fun hne => hne (hidle q ((h q hne).1 hq) hloc)
      rw [fileAt?_editEach_of_idle hps hidle, fileAt?_editEach_of_idle hqs hidle']

/-- Runs over several files, in terms of what becomes of each. -/
theorem outcomes_eq_fate {ps : List Path} (h : ps.Pairwise (t.Apart cwd)) :
    (a.editEach cwd t ps).1 = ps.map fun p => (a.fate cwd p (t.lookUp cwd p)).1 := by
  rw [outcomes_editEach h]
  exact List.map_congr_left fun p _ => (a.process_eq_fate cwd t p).1

/-- Reports of the same outcomes in another order have the same counts. -/
theorem report_perm {os os' : List Outcome} (h : os.Perm os') (r : Report) :
    os'.foldl Report.record r =
      { os.foldl Report.record r with files := r.files ++ os' } := by
  rw [Report.foldl_record, Report.foldl_record, h.length_eq, h.countP_eq, h.countP_eq,
    h.countP_eq]

/-- **Files may come in any order.** If no two of its paths lead to the same place, a run
gives each path what becomes of it by its own path and by what it leads to in the first
tree: the outcome, and the content if it is a file. No other file changes, nor the shape of
the tree. So every order of the paths leaves the same tree, and the same report but for the
order of the outcomes; and without a file that fails the others fare the same. -/
theorem editAll_perm {σ : Type} (a : Alias) (cwd : Location) (observe : σ → Outcome → σ) (seen : σ)
    (t : FileTree) (ps qs : List Path) (hapart : ps.Pairwise (t.Apart cwd)) (hperm : ps.Perm qs) :
    let run := a.editAll cwd observe seen t
    let fate := fun p => a.fate cwd p (t.lookUp cwd p)
    (run qs).tree = (run ps).tree ∧
    (run ps).report.files = ps.map (fun p => (fate p).1) ∧
    (run qs).report = { (run ps).report with files := qs.map fun p => (fate p).1 } ∧
    (∀ p ∈ ps, ∀ loc mode bs, t.locate cwd p = .ok loc → t.fileAt? loc = some (mode, bs) →
      (run ps).tree.fileAt? loc = some (mode, (fate p).2.getD bs)) ∧
    (∀ loc, (∀ p ∈ ps, t.locate cwd p ≠ .ok loc) →
      (run ps).tree.fileAt? loc = t.fileAt? loc) ∧
    (run ps).tree.shape = t.shape ∧
    (∀ before p after, ps = before ++ p :: after → (fate p).1.isFailed = true →
      (run (before ++ after)).tree = (run ps).tree ∧
      (run (before ++ after)).report.files = (before ++ after).map fun p => (fate p).1) := by
  intro run fate
  have hapart' : qs.Pairwise (t.Apart cwd) :=
    (hperm.pairwise_iff FileTree.Apart.symm).1 hapart
  simp only [run, fate, tree_editAll, files_editAll]
  refine ⟨?_, outcomes_eq_fate hapart, ?_, fun p hp loc mode bs hloc hfile => ?_,
    fun loc hloc => fileAt?_editEach_of_ne hloc, a.shape_editEach cwd t ps,
    fun before p after hps hfailed => ?_⟩
  · exact editEach_congr hapart hapart' fun p _ => hperm.mem_iff.symm
  · have hmap := hperm.map fun p => (a.fate cwd p (t.lookUp cwd p)).1
    simp only [editAll_eq]
    rw [outcomes_eq_fate hapart, outcomes_eq_fate hapart', report_perm hmap]
    rfl
  · rw [fileAt?_editEach hapart hp hloc]
    exact (a.process_eq_fate cwd t p).2 loc mode bs hloc hfile
  · have hsub : (before ++ after).Pairwise (t.Apart cwd) := by
      rw [hps] at hapart
      exact hapart.sublist ((List.Sublist.refl before).append (List.sublist_cons_self p after))
    have hidle : (a.process cwd t p).2 = t := by
      refine process_eq_of_not_fixed ?_
      rw [(a.process_eq_fate cwd t p).1]
      unfold Outcome.isFailed at hfailed
      unfold Outcome.isFixed
      split at hfailed
      · next cause hcause => simp [hcause]
      · cases hfailed
    refine ⟨editEach_congr hapart hsub fun q hq => ?_, outcomes_eq_fate hsub⟩
    have hne : q ≠ p := by
      rintro rfl
      exact hq hidle
    rw [hps]
    simp [hne]

/-- A tree with a file that needs a change, one that may not be written and one that holds no
text. -/
def mixedTree : FileTree :=
  let text := FileTree.Item.file (Utf8.encode "import a from '../a'".toList)
  let place := fun n : String => ["src", "x", n].map fun n => Utf8.encode n.toList
  let t := FileTree.empty.put (place "a.ts") text none
  let t := t.put (place "b.ts") text (some ⟨true, false, false⟩)
  t.put (place "c.ts") (.file [0xFF]) none

/-- Paths in the mixed tree. The last one leads nowhere. -/
def mixedPaths : List Path :=
  ["/src/x/a.ts", "/src/x/b.ts", "/src/x/c.ts", "/src/x/d.ts"].map fun p => .ofText p.toList

/-- The mixed tree in one order and in the opposite one. -/
theorem editAll_perm_mixedTree :
    let run := (Settings.default.toAlias []).editAll [] (fun (_ : Unit) _ => ()) () mixedTree
    mixedPaths.Pairwise (mixedTree.Apart []) ∧
    (run mixedPaths).report.files.map (·.status) =
      [.fixed, .failed SystemError.denied.message, .failed Fault.notText.message,
        .failed SystemError.notFound.message] ∧
    (run mixedPaths).tree ≠ mixedTree ∧
    (run mixedPaths.reverse).tree = (run mixedPaths).tree ∧
    (run mixedPaths.reverse).report.failed = (run mixedPaths).report.failed := by
  intro run
  have hapart : mixedPaths.Pairwise (mixedTree.Apart []) := by decide +kernel
  have hany := editAll_perm (Settings.default.toAlias []) [] (fun (_ : Unit) _ => ()) () mixedTree
    mixedPaths mixedPaths.reverse hapart (List.reverse_perm mixedPaths).symm
  have hfailed := congrArg Report.failed hany.2.2.1
  exact ⟨hapart, by decide +kernel, by decide +kernel, hany.1, hfailed⟩

end Alias

end ImportAlias
