import ImportAlias.Proofs.Descent

/-!
# The scan as a filter

A scan goes down the tree and leaves entries out together with all that lies below them.
What it finds can be said without the walk: a path is found if it meets conditions that are
about the path alone, and the paths come in the order of their names.

## The model

`Eligible` is the condition on the names that lead to a file. `mem_walk_iff` unfolds the walk
by one name. From it come the two directions: what the walk went through, name by name, and
that nothing it may go through is missed.
-/

namespace ImportAlias

/-! ### A walk, one name after the other -/

namespace Listing

theorem not_mem_walk_of_above {l : Listing} {n : Name} (habove : l.Above n) (hl : l.WellFormed)
    (skip : List Name → Bool → Bool) (enter : Bool) (here tail : List Name) :
    here ++ n :: tail ∉ l.walk skip enter here := by
  intro h
  have hbefore := before_of_mem_walk habove hl h tail
  rw [Location.before_irrefl] at hbefore
  cases hbefore

/-- What a walk gives below a name depends on the entry with that name. -/
theorem mem_walk_iff {skip : List Name → Bool → Bool} {l : Listing} (hl : l.WellFormed)
    {enter : Bool} {here : List Name} (k : Name) (ks : List Name) :
    here ++ k :: ks ∈ l.walk skip enter here ↔
      match l.get? [k] with
      | none => False
      | some (.leaf _) => ks = [] ∧ skip (here ++ [k]) false = false
      | some (.dir mode inside) =>
        skip (here ++ [k]) true = false ∧ enter = true ∧ mode.read = true ∧
          here ++ [k] ++ ks ∈ inside.walk skip mode.enter (here ++ [k]) := by
  induction l with
  | done => simp [walk, get?]
  | leaf n what rest ih =>
    rw [walk, List.mem_append, get?]
    by_cases hn : n = k
    · subst hn
      have hrest := not_mem_walk_of_above hl.2.1 hl.2.2 skip enter here ks
      by_cases hskip : skip (here ++ [n]) false = true <;> simp [hrest, hskip]
    · have hother : here ++ k :: ks ≠ here ++ [n] := by
        intro e
        exact hn (List.cons.inj (List.append_cancel_left e)).1.symm
      rw [if_neg hn, ← ih hl.2.2]
      by_cases hskip : skip (here ++ [n]) false = true <;> simp [hskip, hother]
  | dir n mode inside rest _ ih =>
    have hinside : ∀ x : List Name,
        (x ∈ if skip (here ++ [n]) true || !enter || !mode.read then []
          else inside.walk skip mode.enter (here ++ [n])) ↔
        skip (here ++ [n]) true = false ∧ enter = true ∧ mode.read = true ∧
          x ∈ inside.walk skip mode.enter (here ++ [n]) := by
      intro x
      cases skip (here ++ [n]) true <;> cases enter <;> cases mode.read <;> simp
    rw [walk, List.mem_append, hinside, get?]
    by_cases hn : n = k
    · subst hn
      have hrest := not_mem_walk_of_above hl.2.2.1 hl.2.2.2 skip enter here ks
      simp [hrest]
    · have hother : here ++ k :: ks ∉ inside.walk skip mode.enter (here ++ [n]) := by
        intro h
        obtain ⟨tail, e, -⟩ := met_of_mem_walk hl.2.1 h
        rw [List.append_assoc] at e
        exact hn (List.cons.inj (List.append_cancel_left e)).1.symm
      rw [if_neg hn, ← ih hl.2.2.2]
      simp [hother]

/-- No beginning of the names after `here` is left out. All but the whole of them lead to
directories. -/
def Passes (skip : List Name → Bool → Bool) (here tail : List Name) : Prop :=
  ∀ i < tail.length, skip (here ++ tail.take (i + 1)) (decide (i + 1 < tail.length)) = false

theorem passes_cons {skip : List Name → Bool → Bool} {here ks : List Name} {k : Name} :
    Passes skip here (k :: ks) ↔
      skip (here ++ [k]) (decide (ks ≠ [])) = false ∧ Passes skip (here ++ [k]) ks := by
  have hfirst : decide (0 + 1 < (k :: ks).length) = decide (ks ≠ []) := by
    cases ks <;> simp
  constructor
  · intro h
    refine ⟨?_, fun i hi => ?_⟩
    · have hzero := h 0 (by simp)
      rw [hfirst] at hzero
      simpa using hzero
    · have hsucc := h (i + 1) (by simpa using hi)
      rw [List.take_succ_cons, List.append_cons] at hsucc
      simpa using hsucc
  · rintro ⟨hzero, hrest⟩ i hi
    cases i with
    | zero =>
      rw [hfirst]
      simpa using hzero
    | succ i =>
      rw [List.take_succ_cons, List.append_cons]
      simpa using hrest i (by simpa using hi)

end Listing

/-! ### What a walk goes through -/

namespace FileTree

open Listing (Passes passes_cons)

variable {t : FileTree} {skip : List Name → Bool → Bool} {loc : Location} {mode : Mode}
  {inside : Listing}

/-- A directory that can be listed and entered, and no link to one. -/
def Browsable (t : FileTree) (loc : Location) : Prop :=
  ∃ mode inside, t.get? loc = some (.dir mode inside) ∧ mode.read = true ∧ mode.enter = true

/-- A walk goes through directories that can be listed and leaves nothing out on its way. -/
theorem passes_of_mem_walk (hget : t.get? loc = some (.dir mode inside))
    (hread : mode.read = true) {here tail : List Name}
    (h : here ++ tail ∈ inside.walk skip mode.enter here) :
    (∀ i < tail.length, ∃ mode inside,
      t.get? (loc ++ tail.take i) = some (.dir mode inside) ∧ mode.read = true) ∧
    Passes skip here tail := by
  induction tail generalizing loc mode inside here with
  | nil => exact ⟨by simp, by simp [Passes]⟩
  | cons k ks ih =>
    have hloc : ∃ mode inside,
        t.get? (loc ++ []) = some (.dir mode inside) ∧ mode.read = true :=
      ⟨mode, inside, by rw [List.append_nil, hget], hread⟩
    rw [Listing.mem_walk_iff (wellFormed_get? hget)] at h
    match hk : inside.get? [k] with
    | none => simp [hk] at h
    | some (.leaf what) =>
      simp only [hk] at h
      obtain ⟨rfl, hskip⟩ := h
      refine ⟨fun i hi => ?_, passes_cons.2 ⟨by simpa using hskip, by simp [Passes]⟩⟩
      have hzero : i = 0 := by simpa using hi
      rwa [hzero, List.take_zero]
    | some (.dir mode' inside') =>
      simp only [hk] at h
      obtain ⟨hskip, -, hread', hmem⟩ := h
      have hget' : t.get? (loc ++ [k]) = some (.dir mode' inside') := by
        rw [get?_append hget, hk]
      obtain ⟨hdirs, hpass⟩ := ih hget' hread' hmem
      have hks : ks ≠ [] := by
        obtain ⟨tail, e, hm⟩ := Listing.met_of_mem_walk (wellFormed_get? hget') hmem
        rw [List.append_cancel_left e]
        exact hm.nonempty
      refine ⟨fun i hi => ?_, passes_cons.2 ⟨by simpa [hks] using hskip, hpass⟩⟩
      cases i with
      | zero => rwa [List.take_zero]
      | succ i =>
        rw [List.take_succ_cons, List.append_cons]
        exact hdirs i (by simpa using hi)

/-- A walk misses no file or link that it may go to through directories that can be listed
and entered. -/
theorem mem_walk_of_passes (hget : t.get? loc = some (.dir mode inside)) {here tail : List Name}
    (hne : tail ≠ []) (hdirs : ∀ i < tail.length, t.Browsable (loc ++ tail.take i))
    (hleaf : ∃ what, t.get? (loc ++ tail) = some (.leaf what)) (hpass : Passes skip here tail) :
    here ++ tail ∈ inside.walk skip mode.enter here := by
  induction tail generalizing loc mode inside here with
  | nil => exact absurd rfl hne
  | cons k ks ih =>
    have henter : mode.enter = true := by
      obtain ⟨mode', inside', hget', -, henter'⟩ := hdirs 0 (by simp)
      rw [List.take_zero, List.append_nil, hget] at hget'
      cases hget'
      exact henter'
    obtain ⟨hskip, hrest⟩ := passes_cons.1 hpass
    rw [Listing.mem_walk_iff (wellFormed_get? hget)]
    cases ks with
    | nil =>
      obtain ⟨what, hwhat⟩ := hleaf
      rw [get?_append hget] at hwhat
      simp only [hwhat, true_and]
      simpa using hskip
    | cons k' ks =>
      obtain ⟨mode', inside', hget', hread', -⟩ := hdirs 1 (by simp)
      rw [List.take_succ_cons, List.take_zero] at hget'
      have hk := (get?_append hget k []).symm.trans hget'
      simp only [hk]
      refine ⟨by simpa using hskip, henter, hread', ?_⟩
      refine ih hget' (List.cons_ne_nil _ _) (fun i hi => ?_) ?_ hrest
      · have hbelow := hdirs (i + 1) (by simpa using hi)
        rwa [List.take_succ_cons, List.append_cons] at hbelow
      · rwa [← List.append_cons]

end FileTree

/-! ### What a scan finds -/

namespace Settings

variable {s : Settings} {cwd : Location} {t : FileTree}

/-- Whether an entry is kept by its name. As a reader sees it, the name is not `.git`, none
of the patterns spells it and none that is well formed matches it. -/
def Keeps (s : Settings) (n : Name) : Prop :=
  let name := Utf8.decodeLossy n
  name ≠ ".git".toList ∧ name ∉ s.patterns ∧
    ∀ p ∈ s.patterns, ∀ parts, NamePattern.parts? none p = some parts →
      NamePattern.fitAll parts name = false

theorem excludesName_eq_false_iff (n : Name) : excludesName s.patterns n = false ↔ s.Keeps n := by
  simp only [excludesName, Keeps, Bool.or_eq_false_iff, decide_eq_false_iff_not,
    List.any_eq_false, Bool.not_eq_true]
  constructor
  · rintro ⟨hgit, hall⟩
    refine ⟨hgit, fun hmem => (hall _ hmem).1 rfl, fun p hp parts hparts => ?_⟩
    have hfit := (hall p hp).2
    rwa [hparts] at hfit
  · rintro ⟨hgit, hspelled, hmatched⟩
    refine ⟨hgit, fun p hp => ⟨?_, ?_⟩⟩
    · rintro rfl
      exact hspelled hp
    · split
      · next parts hparts => exact hmatched p hp parts hparts
      · rfl

/-- What makes a file below the source root one to look at, said of the names that lead to
it. Only the root may be reached through links, and its own name is not looked at. -/
structure Eligible (s : Settings) (cwd : Location) (t : FileTree) (names : List Name) : Prop where
  /-- The names lead somewhere. -/
  nonempty : names ≠ []
  /-- They may be names. -/
  valid : ∀ n ∈ names, n.Valid
  /-- The root and each place on the way is a directory that can be listed and entered. -/
  way : ∃ root, t.locate cwd (s.absoluteRoot cwd) = .ok root ∧
    ∀ i < names.length, t.Browsable (root ++ names.take i)
  /-- None of the names is left out. -/
  kept : ∀ n ∈ names, s.Keeps n
  /-- The path is one of a file to look at. -/
  candidate : s.isCandidate cwd t ((s.absoluteRoot cwd).descend names) = true

/-- Without ignore files the walk leaves nothing out where every name is kept. -/
theorem passes_skips_iff (hs : s.ignoreFiles = false) (root : Location) (names : List Name) :
    Listing.Passes (s.skips cwd t root) [] names ↔ ∀ n ∈ names, s.Keeps n := by
  have hskips : ∀ here n b, s.skips cwd t root (here ++ [n]) b = excludesName s.patterns n := by
    intro here n b
    simp [skips, hs]
  have hall : ∀ here, Listing.Passes (s.skips cwd t root) here names ↔ ∀ n ∈ names, s.Keeps n := by
    induction names with
    | nil => simp [Listing.Passes]
    | cons k ks ih =>
      intro here
      rw [Listing.passes_cons, hskips, excludesName_eq_false_iff, ih, List.forall_mem_cons]
  exact hall []

/-- A candidate has a name of text with an extension that counts, and leads to a file that
can be read and holds a text with a relative import. -/
theorem isCandidate_iff {p : Path} :
    s.isCandidate cwd t p = true ↔
      (∃ n name, p.fileName? = some n ∧ Utf8.decode? n = some name ∧
        ∃ ext ∈ s.extensions, ext <:+ name) ∧
      ∃ loc mode bs text, t.locate cwd p = .ok loc ∧ t.fileAt? loc = some (mode, bs) ∧
        mode.read = true ∧ Utf8.decode? bs = some text ∧ Import.hasRelativeImport text = true := by
  have hname : s.acceptsName p = true ↔ ∃ n name, p.fileName? = some n ∧
      Utf8.decode? n = some name ∧ ∃ ext ∈ s.extensions, ext <:+ name := by
    unfold acceptsName
    cases p.fileName? with
    | none => simp
    | some n => cases hn : Utf8.decode? n <;> simp [hn, hasExtension]
  simp only [isCandidate, Bool.and_eq_true, hname, FileTree.hasRelativeImport_iff]
  constructor
  · rintro ⟨⟨-, hext⟩, htext⟩
    exact ⟨hext, htext⟩
  · rintro ⟨hext, loc, mode, bs, text, hloc, hfile, htext⟩
    refine ⟨⟨?_, hext⟩, loc, mode, bs, text, hloc, hfile, htext⟩
    simp only [FileTree.isFile, hloc, FileTree.fileAt?_eq_some_iff.1 hfile]

/-- A candidate leads to a file. -/
theorem exists_file_of_isCandidate {p : Path} (h : s.isCandidate cwd t p = true) :
    ∃ loc mode bs, t.locate cwd p = .ok loc ∧ t.get? loc = some (.leaf (.file mode bs)) := by
  obtain ⟨-, loc, mode, bs, text, hloc, hfile, -⟩ := isCandidate_iff.1 h
  exact ⟨loc, mode, bs, hloc, FileTree.fileAt?_eq_some_iff.1 hfile⟩

/-- How the walk comes from the source root to a file to look at. -/
structure Approach (s : Settings) (cwd : Location) (t : FileTree) (root : Location)
    (names : List Name) : Prop where
  /-- The names start at the location of the source root. -/
  start : t.locate cwd (s.absoluteRoot cwd) = .ok root
  /-- They lead somewhere. -/
  nonempty : names ≠ []
  /-- They may be names. -/
  valid : ∀ n ∈ names, n.Valid
  /-- The root and each place on the way is a directory that can be listed and entered. -/
  way : ∀ i < names.length, t.Browsable (root ++ names.take i)
  /-- No place on the way is left out. -/
  passes : Listing.Passes (s.skips cwd t root) [] names
  /-- At the end there is the file itself or a link to it. -/
  finish : (∃ target, t.get? (root ++ names) = some (.leaf (.link target))) ∨
    (∃ mode bs, t.get? (root ++ names) = some (.leaf (.file mode bs))) ∧
      t.locate cwd ((s.absoluteRoot cwd).descend names) = .ok (root ++ names)

theorem Approach.of_mem_walk {names : List Name} (hwalk : names ∈ s.walk cwd t)
    (hcand : s.isCandidate cwd t ((s.absoluteRoot cwd).descend names) = true) :
    ∃ root, s.Approach cwd t root names := by
  obtain ⟨habs, hm⟩ := mem_walk hwalk
  unfold walk at hwalk
  split at hwalk
  · cases hwalk
  · next root hroot =>
    split at hwalk
    · next mode inside hget =>
      split at hwalk
      · next hread =>
        obtain ⟨hdirs, hpass⟩ := FileTree.passes_of_mem_walk hget hread hwalk
        obtain ⟨loc, mode, bs, hloc, hfile⟩ := exists_file_of_isCandidate hcand
        obtain ⟨links, hsteps⟩ := FileTree.exists_walkSteps_of_locate habs hroot
        -- the walk says that the directories can be listed, the look-up that they let it in
        obtain ⟨henter, hlast⟩ := FileTree.enter_of_walkSteps hm.nonempty
          (fun i hi => (hdirs i hi).imp fun _ h => h.imp fun _ h => h.1)
          (hsteps names hm.nonempty hm.valid loc hloc)
        refine ⟨root, hroot, hm.nonempty, hm.valid, fun i hi => ?_, hpass, hlast.imp_right ?_⟩
        · obtain ⟨mode', inside', hget', hread'⟩ := hdirs i hi
          obtain ⟨mode'', inside'', hget'', henter''⟩ := henter i hi
          rw [hget'] at hget''
          cases hget''
          exact ⟨mode', inside', hget', hread', henter''⟩
        · rintro ⟨-, rfl⟩
          exact ⟨⟨mode, bs, hfile⟩, hloc⟩
      · cases hwalk
    · cases hwalk

/-- Every path of a scan is spelled by the names along which the walk came to it. -/
theorem Approach.of_mem_scan {p : Path} (h : p ∈ s.scan cwd t) :
    ∃ root names, p = (s.absoluteRoot cwd).descend names ∧ s.Approach cwd t root names := by
  obtain ⟨names, hwalk, rfl, hcand⟩ := mem_scan h
  obtain ⟨root, happroach⟩ := of_mem_walk hwalk hcand
  exact ⟨root, names, rfl, happroach⟩

theorem Eligible.of_mem_walk (hs : s.ignoreFiles = false) {names : List Name}
    (hwalk : names ∈ s.walk cwd t)
    (hcand : s.isCandidate cwd t ((s.absoluteRoot cwd).descend names) = true) :
    s.Eligible cwd t names := by
  obtain ⟨root, h⟩ := Approach.of_mem_walk hwalk hcand
  exact ⟨h.nonempty, h.valid, ⟨root, h.start, h.way⟩, (passes_skips_iff hs root names).1 h.passes,
    hcand⟩

theorem Eligible.mem_walk (hs : s.ignoreFiles = false) {names : List Name}
    (h : s.Eligible cwd t names) : names ∈ s.walk cwd t := by
  obtain ⟨root, hroot, hdirs⟩ := h.way
  obtain ⟨mode, inside, hget, hread, -⟩ := hdirs 0 (List.length_pos_iff.2 h.nonempty)
  rw [List.take_zero, List.append_nil] at hget
  obtain ⟨loc, mode', bs, hloc, hfile⟩ := exists_file_of_isCandidate h.candidate
  obtain ⟨links, hsteps⟩ :=
    FileTree.exists_walkSteps_of_locate (isAbsolute_absoluteRoot hroot) hroot
  have hlast := (FileTree.enter_of_walkSteps h.nonempty
    (fun i hi => (hdirs i hi).imp fun _ h => h.imp fun _ h => h.1)
    (hsteps names h.nonempty h.valid loc hloc)).2
  have hleaf : ∃ what, t.get? (root ++ names) = some (.leaf what) := by
    rcases hlast with ⟨target, hlink⟩ | ⟨-, rfl⟩
    · exact ⟨_, hlink⟩
    · exact ⟨_, hfile⟩
  unfold walk
  simp only [hroot, hget, hread, if_true]
  exact FileTree.mem_walk_of_passes hget h.nonempty hdirs hleaf
    ((passes_skips_iff hs root names).2 h.kept)

theorem fileName?_descend {p : Path} {names : List Name} (hp : p.isAbsolute)
    (hn : ∀ n ∈ names, Name.Valid n) (hne : names ≠ []) :
    (p.descend names).fileName? = names.getLast? := by
  rw [Path.fileName?, (Path.descend_spec hp hn).2, List.getLast?_append, List.getLast?_map,
    List.getLast?_eq_some_getLast hne]
  rfl

/-- **A scan is a filter.** Without ignore files, a scan finds exactly the paths from the root
whose names are eligible, in strictly increasing order of the names, and so none of them
twice. Which files count is said by the last name and the text alone. -/
theorem scan_eq_filter (s : Settings) (cwd : Location) (t : FileTree)
    (hs : s.ignoreFiles = false) :
    ∃ found : List (List Name),
      s.scan cwd t = found.map (s.absoluteRoot cwd).descend ∧
      (∀ names, names ∈ found ↔ s.Eligible cwd t names) ∧
      found.Pairwise (fun x y => Location.before x y) ∧
      (s.scan cwd t).Nodup ∧
      (∀ names ∈ found, ((s.absoluteRoot cwd).descend names).fileName? = names.getLast?) ∧
      ∀ p, s.isCandidate cwd t p = true ↔
        (∃ n name, p.fileName? = some n ∧ Utf8.decode? n = some name ∧
          ∃ ext ∈ s.extensions, ext <:+ name) ∧
        ∃ loc mode bs text, t.locate cwd p = .ok loc ∧ t.fileAt? loc = some (mode, bs) ∧
          mode.read = true ∧ Utf8.decode? bs = some text ∧
          Import.hasRelativeImport text = true := by
  let found := (s.walk cwd t).filter (s.isCandidate cwd t ∘ (s.absoluteRoot cwd).descend)
  have hscan : s.scan cwd t = found.map (s.absoluteRoot cwd).descend := List.filter_map
  have hfound : ∀ names, names ∈ found ↔ s.Eligible cwd t names := by
    intro names
    rw [List.mem_filter]
    constructor
    · rintro ⟨hwalk, hcand⟩
      exact .of_mem_walk hs hwalk hcand
    · intro h
      exact ⟨h.mem_walk hs, h.candidate⟩
  have habs : ∀ names ∈ found, (s.absoluteRoot cwd).isAbsolute := by
    intro names hnames
    obtain ⟨root, hroot, -⟩ := ((hfound names).1 hnames).way
    exact isAbsolute_absoluteRoot hroot
  refine ⟨found, hscan, hfound, (s.pairwise_walk cwd t).filter _, ?_, ?_, fun p => isCandidate_iff⟩
  · rw [hscan]
    have hnodup : found.Nodup := (s.nodup_walk cwd t).filter _
    -- different names make different components
    refine List.pairwise_map.2 (hnodup.imp_of_mem fun {x y} hx hy hne heq => hne ?_)
    have hcomp := congrArg Path.components heq
    rw [(Path.descend_spec (habs x hx) ((hfound x).1 hx).valid).2,
      (Path.descend_spec (habs x hx) ((hfound y).1 hy).valid).2] at hcomp
    exact (List.map_inj_right fun _ _ => Component.normal.inj).1 (List.append_cancel_left hcomp)
  · intro names hnames
    have h := (hfound names).1 hnames
    exact fileName?_descend (habs names hnames) h.valid h.nonempty

/-- A tree in which the order of whole paths is not the order of names, with a link to a file,
a link to a directory, a directory that cannot be entered and one that is to be left out. -/
def tangledTree : FileTree :=
  let text := FileTree.Item.file (Utf8.encode "import a from '../a'".toList)
  let place := fun names : List String => names.map fun n => Utf8.encode n.toList
  let link := fun target : String => FileTree.Item.link (.ofText target.toList)
  let shut := some (Mode.mk true true false)
  let t := FileTree.empty.put (place ["src", "a.ts"]) text none
  let t := t.put (place ["src", "a", "x.ts"]) text none
  let t := t.put (place ["src", "a-b", "x.ts"]) text none
  let t := t.put (place ["src", "kept", "x.md"]) text none
  let t := t.put (place ["src", "node_modules", "x.ts"]) text none
  let t := t.put (place ["src", "shut", "x.ts"]) text none
  let t := t.put (place ["src", "shut"]) .dir shut
  let t := t.put (place ["src", "b.ts"]) (link "a/x.ts") none
  t.put (place ["src", "c"]) (link "a") none

/-- Settings that leave out two names, of which one is the root's. -/
def tangledSettings : Settings :=
  { default with patterns := ["src".toList, "node_*".toList] }

/-- In the tangled tree a scan finds three files and the link to one. -/
theorem scan_eq_filter_tangledTree :
    tangledSettings.ignoreFiles = false ∧
      (tangledSettings.scan [] tangledTree).map (fun p => String.ofList p.display) =
        ["/src/a/x.ts", "/src/a-b/x.ts", "/src/a.ts", "/src/b.ts"] ∧
      ∃ found : List (List Name),
        tangledSettings.scan [] tangledTree =
          found.map (tangledSettings.absoluteRoot []).descend ∧
        (∀ names, names ∈ found ↔ tangledSettings.Eligible [] tangledTree names) ∧
        found.Pairwise fun x y => Location.before x y := by
  obtain ⟨found, hscan, hfound, horder, -⟩ := scan_eq_filter tangledSettings [] tangledTree rfl
  exact ⟨rfl, by decide +kernel, found, hscan, hfound, horder⟩

end Settings

end ImportAlias
