import ImportAlias.Proofs.Locations

/-!
# Going down from a root

A path that names lead to from a root is looked up by the steps of the root and then by one
step down for each name. The root's steps may follow links, and so may the last name, but
where the names between them are of directories they lead through exactly those, each of
which has to let anyone in.
-/

namespace ImportAlias

/-! ### What stands below a directory -/

/-- What stands two names or more below a listing stands in the directory of the first one. -/
theorem Listing.get?_cons_cons (l : Listing) (k k' : Name) (ks : Location) :
    l.get? (k :: k' :: ks) =
      match l.get? [k] with
      | some (.dir _ inside) => inside.get? (k' :: ks)
      | _ => none := by
  induction l with
  | done => rfl
  | leaf n what rest ih =>
    rw [get?, get?]
    by_cases hn : n = k
    · simp [hn]
    · simp only [if_neg hn, ih]
  | dir n mode inside rest _ ih =>
    rw [get?, get?]
    by_cases hn : n = k
    · simp [hn]
    · simp only [if_neg hn, ih]

theorem Listing.get?_append {l : Listing} {loc : Location} {mode : Mode} {inside : Listing}
    (h : l.get? loc = some (.dir mode inside)) (k : Name) (ks : Location) :
    l.get? (loc ++ k :: ks) = inside.get? (k :: ks) := by
  induction loc generalizing l with
  | nil => cases l <;> cases h
  | cons j js ih =>
    cases js with
    | nil =>
      rw [List.cons_append, List.nil_append, get?_cons_cons, h]
    | cons j' js =>
      rw [get?_cons_cons] at h
      rw [List.cons_append, List.cons_append, get?_cons_cons]
      split at h
      · next mode' inside' hj => exact ih h
      · cases h

namespace FileTree

/-- What stands below a directory stands in what it holds. -/
theorem get?_append {t : FileTree} {loc : Location} {mode : Mode} {inside : Listing}
    (h : t.get? loc = some (.dir mode inside)) (k : Name) (ks : Location) :
    t.get? (loc ++ k :: ks) = inside.get? (k :: ks) := by
  have hne : loc ++ k :: ks ≠ [] := by simp
  rw [get?, if_neg hne]
  by_cases hloc : loc = []
  · rw [get?, if_pos hloc] at h
    cases h
    rw [hloc, List.nil_append]
  · rw [get?, if_neg hloc] at h
    exact Listing.get?_append h k ks

/-! ### Steps after steps -/

/-- What is known of steps with others after them: they fail, whatever follows, or what
follows goes on from a location with some links left to follow. -/
def GoesOn (t : FileTree) (go : List Step → Except SystemError Location) : Prop :=
  (∃ e, ∀ more, go more = .error e) ∨ ∃ links loc, ∀ more, go more = t.walkSteps links loc more

theorem goesOn_walkWith {t : FileTree} (links : Nat)
    {follow : Location → List Step → Except SystemError Location}
    (hlinks : t.walkSteps links = t.walkWith follow)
    (hfollow : ∀ loc steps, t.GoesOn fun more => follow loc (steps ++ more)) (loc : Location)
    (steps : List Step) : t.GoesOn fun more => t.walkWith follow loc (steps ++ more) := by
  induction steps generalizing loc with
  | nil => exact .inr ⟨links, loc, fun more => by rw [hlinks]; rfl⟩
  | cons s rest ih =>
    simp only [List.cons_append, walkWith]
    match t.get? loc with
    | none => exact .inl ⟨.notDirectory, fun _ => rfl⟩
    | some (.leaf what) => exact .inl ⟨.notDirectory, fun _ => rfl⟩
    | some (.dir mode inside) =>
      cases s with
      | close => exact ih loc
      | stay =>
        by_cases henter : mode.enter = true
        · simp only [henter, if_true]
          exact ih loc
        · exact .inl ⟨.denied, fun _ => by simp [henter]⟩
      | up =>
        by_cases henter : mode.enter = true
        · simp only [henter, if_true]
          exact ih loc.dropLast
        · exact .inl ⟨.denied, fun _ => by simp [henter]⟩
      | down n =>
        by_cases henter : mode.enter = true
        · by_cases hlong : maxNameLength < n.length
          · exact .inl ⟨.nameTooLong, fun _ => by simp [henter, hlong]⟩
          · simp only [henter, Bool.true_eq_false, if_false, if_neg hlong]
            match t.get? (loc ++ [n]) with
            | none => exact .inl ⟨.notFound, fun _ => rfl⟩
            | some (.dir mode' inside') => exact ih (loc ++ [n])
            | some (.leaf (.file mode' bs)) => exact ih (loc ++ [n])
            | some (.leaf (.link target)) =>
              by_cases hempty : target.bytes = []
              · exact .inl ⟨.notFound, fun _ => by simp [hempty]⟩
              · simp only [if_neg hempty, ← List.append_assoc]
                exact hfollow _ _
        · exact .inl ⟨.denied, fun _ => by simp [henter]⟩

/-- Steps fail, whatever follows them, or what follows goes on from where they lead. -/
theorem goesOn_walkSteps (t : FileTree) (links : Nat) (loc : Location) (steps : List Step) :
    t.GoesOn fun more => t.walkSteps links loc (steps ++ more) := by
  induction links generalizing loc steps with
  | zero => exact goesOn_walkWith 0 rfl (fun _ _ => .inl ⟨.linkLoop, fun _ => rfl⟩) loc steps
  | succ links ih => exact goesOn_walkWith (links + 1) rfl ih loc steps

end FileTree

/-! ### Names from a root -/

namespace Path

/-- The bytes that names lead to do not end in a slash. -/
theorem getLast?_descend {p : Path} {names : List Name} (hp : p.isAbsolute)
    (hn : ∀ n ∈ names, Name.Valid n) (hne : names ≠ []) :
    (p.descend names).bytes.getLast? ≠ some slash := by
  induction names generalizing p with
  | nil => exact absurd rfl hne
  | cons n names ih =>
    have hvalid := hn n List.mem_cons_self
    cases names with
    | nil =>
      obtain ⟨u, hu, -⟩ := join_eq hp hvalid
      obtain ⟨hnil, -, -, hslash, -⟩ := hvalid
      intro hlast
      rw [show (p.descend [n]).bytes = u ++ slash :: n from hu, List.append_cons,
        List.getLast?_append, List.getLast?_eq_some_getLast hnil, Option.some_or,
        ← List.getLast?_eq_some_getLast hnil] at hlast
      exact hslash (List.mem_of_getLast? hlast)
    | cons n' names =>
      exact ih (isAbsolute_join hp hvalid) (fun m hm => hn m (List.mem_cons_of_mem _ hm))
        (List.cons_ne_nil _ _)

/-- The steps along the path that names lead to. -/
theorem steps_descend {p : Path} {names : List Name} (hp : p.isAbsolute)
    (hn : ∀ n ∈ names, Name.Valid n) (hne : names ≠ []) :
    (p.descend names).steps = trail p.bytes ++ names.map .down := by
  rw [steps, if_neg (getLast?_descend hp hn hne), List.append_nil, ← trail_descend hp hn]
  rfl

end Path

namespace FileTree

theorem walkSteps_of_locate {t : FileTree} {cwd : Location} {p : Path} {loc : Location}
    (hp : p.isAbsolute) (h : t.locate cwd p = .ok loc) :
    t.walkSteps maxLinks [] p.steps = .ok loc := by
  unfold locate at h
  simp only [hp, if_true] at h
  split at h
  · cases h
  · split at h
    · cases h
    · split at h
      · cases h
      · split at h
        · next loc' hwalk =>
          cases h
          exact hwalk
        · cases h

/-- Going on with a closing slash or with nothing stays where it is. -/
theorem walkSteps_closing {t : FileTree} {links : Nat} {loc loc' : Location} {b : Prop}
    [Decidable b] (h : t.walkSteps links loc (if b then [.close] else []) = .ok loc') :
    loc' = loc := by
  by_cases hb : b
  · rw [if_pos hb] at h
    cases links <;> rw [walkSteps, walkWith] at h <;> split at h <;> cases h <;> rfl
  · rw [if_neg hb] at h
    cases links <;> cases h <;> rfl

/-- Names lead from a root to where their steps lead from the root's location. -/
theorem exists_walkSteps_of_locate {t : FileTree} {cwd : Location} {p : Path} {root : Location}
    (hp : p.isAbsolute) (hroot : t.locate cwd p = .ok root) :
    ∃ links, ∀ names, names ≠ [] → (∀ n ∈ names, Name.Valid n) → ∀ loc,
      t.locate cwd (p.descend names) = .ok loc →
        t.walkSteps links root (names.map .down) = .ok loc := by
  have hsteps := walkSteps_of_locate hp hroot
  rcases t.goesOn_walkSteps maxLinks [] (Path.trail p.bytes) with ⟨e, he⟩ | ⟨links, mid, hmid⟩
  · have hfail := he (if p.bytes.getLast? = some slash then [.close] else [])
    exact absurd (hsteps.symm.trans hfail) (by simp)
  · have hclose := hmid (if p.bytes.getLast? = some slash then [.close] else [])
    have heq : root = mid := walkSteps_closing (hclose.symm.trans hsteps)
    refine ⟨links, fun names hne hn loc hloc => ?_⟩
    have habs := (Path.descend_spec hp hn).1
    have hdown := walkSteps_of_locate habs hloc
    rw [Path.steps_descend hp hn hne] at hdown
    rw [heq]
    exact (hmid _).symm.trans hdown

/-- A step down starts in a directory that lets anyone in, and goes to an entry of it. -/
theorem walkSteps_down {t : FileTree} {links : Nat} {loc loc' : Location} {n : Name}
    {rest : List Step} (h : t.walkSteps links loc (.down n :: rest) = .ok loc') :
    ∃ mode inside, t.get? loc = some (.dir mode inside) ∧ mode.enter = true ∧
      ((∃ target, t.get? (loc ++ [n]) = some (.leaf (.link target))) ∨
        (∃ node, t.get? (loc ++ [n]) = some node) ∧
          t.walkSteps links (loc ++ [n]) rest = .ok loc') := by
  obtain ⟨follow, hlinks⟩ : ∃ follow, t.walkSteps links = t.walkWith follow := by
    cases links with
    | zero => exact ⟨_, rfl⟩
    | succ links => exact ⟨_, rfl⟩
  rw [hlinks] at h ⊢
  rw [walkWith] at h
  rcases hget : t.get? loc with _ | (what | ⟨mode, inside⟩)
  · simp [hget] at h
  · simp [hget] at h
  · simp only [hget] at h
    by_cases henter : mode.enter = true
    · simp only [henter, Bool.true_eq_false, if_false] at h
      refine ⟨mode, inside, rfl, henter, ?_⟩
      split at h
      · cases h
      · rcases hnext : t.get? (loc ++ [n]) with _ | ((_ | target) | _)
        · simp [hnext] at h
        · simp only [hnext] at h
          exact .inr ⟨⟨_, rfl⟩, h⟩
        · exact .inl ⟨target, rfl⟩
        · simp only [hnext] at h
          exact .inr ⟨⟨_, rfl⟩, h⟩
    · simp [henter] at h

/-- Names that lead through directories lead through directories that let anyone in, to an
entry of the last one. Unless the entry is a link, that is where they end. -/
theorem enter_of_walkSteps {t : FileTree} {links : Nat} {root loc : Location}
    {names : List Name} (hne : names ≠ [])
    (hdirs : ∀ i < names.length, ∃ mode inside,
      t.get? (root ++ names.take i) = some (.dir mode inside))
    (h : t.walkSteps links root (names.map .down) = .ok loc) :
    (∀ i < names.length, ∃ mode inside,
      t.get? (root ++ names.take i) = some (.dir mode inside) ∧ mode.enter = true) ∧
    ((∃ target, t.get? (root ++ names) = some (.leaf (.link target))) ∨
      (∃ node, t.get? (root ++ names) = some node) ∧ loc = root ++ names) := by
  induction names generalizing root with
  | nil => exact absurd rfl hne
  | cons n names ih =>
    obtain ⟨mode, inside, hroot, henter, hnext⟩ := walkSteps_down h
    cases names with
    | nil =>
      refine ⟨fun i hi => ?_, ?_⟩
      · have hzero : i = 0 := by simpa using hi
        exact ⟨mode, inside, by rw [hzero, List.take_zero, List.append_nil, hroot], henter⟩
      · rcases hnext with hlink | ⟨hnode, hstay⟩
        · exact .inl hlink
        · refine .inr ⟨hnode, ?_⟩
          cases links <;> cases hstay <;> rfl
    | cons n' names =>
      have hassoc : ∀ ks : Location, root ++ n :: ks = root ++ [n] ++ ks := fun ks => by simp
      have hdirs' : ∀ i < (n' :: names).length, ∃ mode inside,
          t.get? (root ++ [n] ++ (n' :: names).take i) = some (.dir mode inside) := by
        intro i hi
        obtain ⟨mode', inside', hget⟩ := hdirs (i + 1) (by simpa using hi)
        exact ⟨mode', inside', by rw [← hassoc]; exact hget⟩
      -- the name is that of a directory, so no link is followed here
      have hgo : t.walkSteps links (root ++ [n]) ((n' :: names).map .down) = .ok loc := by
        rcases hnext with ⟨target, hlink⟩ | ⟨-, hgo⟩
        · obtain ⟨mode', inside', hget⟩ := hdirs' 0 (by simp)
          rw [List.take_zero, List.append_nil, hlink] at hget
          cases hget
        · exact hgo
      obtain ⟨hbelow, hlast⟩ := ih (List.cons_ne_nil _ _) hdirs' hgo
      refine ⟨fun i hi => ?_, ?_⟩
      · cases i with
        | zero => exact ⟨mode, inside, by rw [List.take_zero, List.append_nil, hroot], henter⟩
        | succ i =>
          rw [List.take_succ_cons, hassoc]
          exact hbelow i (by simpa using hi)
      · rw [hassoc]
        exact hlast

end FileTree

end ImportAlias
