import ImportAlias.Proofs.Spellings

/-!
# Parent steps in the path of a file

A path may lead through a directory and out of it again. Taken as it is spelled, each `..` cancels
the directory before it, and what is left is the way from the root to the file. A specifier is
resolved with other directories: all names of the path count, also those that a `..` cancels, and
the `..` itself does not. So the alias form of a specifier is the one that belongs to the file if
and only if there is no `..` in the path; each of them lets it name a place that lies one
directory too deep.

## The model

`Path.collapsed?` is the path that is left, for a path that stays below the root all the way.
-/

namespace ImportAlias

/-! ### Cancelling -/

namespace Component

/-- The names that components lead to from some names, if each `..` has a name to cancel. -/
def collapse? (names : List Name) : List Component → Option (List Name)
  | [] => some names
  | .normal n :: cs => collapse? (names ++ [n]) cs
  | .current :: cs => collapse? names cs
  | .parent :: cs => if names = [] then none else collapse? names.dropLast cs
  | .root :: _ => none

variable {names left : List Name} {cs : List Component}

theorem collapse?_append_normal (names : List Name) (cs : List Component) (n : Name) :
    collapse? names (cs ++ [.normal n]) = (collapse? names cs).map (· ++ [n]) := by
  fun_induction collapse? names cs with
  | case1 names => rfl
  | case2 names m cs ih => exact ih
  | case3 names cs ih => exact ih
  | case4 cs => rfl
  | case5 names cs hne ih => rw [List.cons_append, collapse?, if_neg hne, ih]
  | case6 names cs => rfl

/-- Each `..` takes one name away. -/
theorem length_of_collapse? (h : collapse? names cs = some left) :
    left.length + cs.count .parent = names.length + (cs.filterMap name?).length := by
  fun_induction collapse? names cs with
  | case1 names =>
    cases h
    rfl
  | case2 names n cs ih =>
    have hrest := ih h
    rw [List.length_append, List.length_singleton] at hrest
    rw [List.count_cons_of_ne Component.noConfusion]
    simp only [List.filterMap_cons, name?, List.length_cons]
    omega
  | case3 names cs ih =>
    rw [List.count_cons_of_ne (by decide), List.filterMap_cons_none rfl]
    exact ih h
  | case4 cs => cases h
  | case5 names cs hne ih =>
    -- the name that is cancelled was counted when it was added
    have hrest := ih h
    have hpos := List.length_pos_of_ne_nil hne
    rw [List.length_dropLast] at hrest
    rw [List.count_cons_self, List.filterMap_cons_none rfl]
    omega
  | case6 names cs => cases h

/-- Without a `..` all names are left. -/
theorem collapse?_of_not_mem (h : collapse? names cs = some left) (hnone : .parent ∉ cs) :
    left = names ++ cs.filterMap name? := by
  fun_induction collapse? names cs with
  | case1 names =>
    cases h
    exact (List.append_nil _).symm
  | case2 names n cs ih =>
    rw [ih h fun hm => hnone (List.mem_cons_of_mem _ hm), List.append_assoc]
    rfl
  | case3 names cs ih =>
    rw [ih h fun hm => hnone (List.mem_cons_of_mem _ hm), List.filterMap_cons_none rfl]
  | case4 cs => cases h
  | case5 names cs => exact absurd List.mem_cons_self hnone
  | case6 names cs => cases h

/-- Nothing is left that was not there. -/
theorem mem_of_collapse? (h : collapse? names cs = some left) {n : Name} (hn : n ∈ left) :
    n ∈ names ∨ .normal n ∈ cs := by
  fun_induction collapse? names cs with
  | case1 names =>
    cases h
    exact .inl hn
  | case2 names m cs ih =>
    rcases ih h with hm | hm
    · rcases List.mem_append.1 hm with hm | hm
      · exact .inl hm
      · rw [List.mem_singleton.1 hm]
        exact .inr List.mem_cons_self
    · exact .inr (List.mem_cons_of_mem _ hm)
  | case3 names cs ih => exact (ih h).imp_right (List.mem_cons_of_mem _)
  | case4 cs => cases h
  | case5 names cs hne ih =>
    exact (ih h).imp (fun hm => List.dropLast_subset _ hm) (List.mem_cons_of_mem _)
  | case6 names cs => cases h

end Component

namespace Path

open Component (collapse?)

/-- The path without `..` and `.` that a relative path stands for by its spelling, if it does not
leave the directory that it starts in. -/
def collapsed? (p : Path) : Option Path :=
  (collapse? [] p.components).map fun names => ⟨spell .bare names⟩

/-- The path that is left has the names that are left. -/
theorem components_spell_of_collapse? {p : Path} {names : List Name}
    (h : collapse? [] p.components = some names) :
    components ⟨spell .bare names⟩ = names.map .normal := by
  have hnames : ∀ n ∈ names, n ∈ fields slash p.bytes ∧
      Component.ofSegment? n = some (.normal n) := by
    intro n hn
    rcases Component.mem_of_collapse? h hn with hn | hn
    · cases hn
    · exact mem_fields_of_mem_components hn
  rw [components_spell fun n hn => not_mem_of_mem_fields (hnames n hn).1]
  · exact List.filterMap_eq_map_iff_forall_eq_some.2 fun n hn => (hnames n hn).2
  · intro _ n hn
    have hread := (hnames n (List.mem_of_mem_head? hn)).2
    unfold Component.ofSegment? at hread
    split at hread
    · cases hread
    · next htrivial => exact Bool.eq_false_iff.2 htrivial

/-- **What cancelling does to the directories of a file**: each `..` takes one of them away, the
others stay, and without a `..` all of them do. -/
theorem directories_collapsed {p p' : Path} (hfile : p.fileName?.isSome)
    (h : p.collapsed? = some p') :
    p'.directories.length + p.components.count .parent = p.directories.length ∧
      (∀ d ∈ p'.directories, d ∈ p.directories) ∧
      (.parent ∉ p.components → p'.directories = p.directories) := by
  obtain ⟨names, hnames, rfl⟩ := Option.map_eq_some_iff.1 h
  obtain ⟨file, hname⟩ := Option.isSome_iff_exists.1 hfile
  obtain ⟨cs, hcs⟩ := exists_of_fileName? hname
  have hcomponents := components_spell_of_collapse? hnames
  rw [hcs, Component.collapse?_append_normal] at hnames
  obtain ⟨left, hleft, rfl⟩ := Option.map_eq_some_iff.1 hnames
  have hdirectories : directories ⟨spell .bare (left ++ [file])⟩ = left.map Utf8.decodeLossy := by
    rw [directories, hcomponents, List.map_append, List.map_singleton, List.dropLast_concat,
      Component.filterMap_name?_map_normal]
  have hall : p.directories = (cs.filterMap Component.name?).map Utf8.decodeLossy := by
    rw [directories, hcs, List.dropLast_concat]
  rw [hdirectories, hall, hcs]
  refine ⟨?_, fun d hd => ?_, fun hnone => ?_⟩
  · have hlength := Component.length_of_collapse? hleft
    rw [List.count_append, List.count_singleton, List.length_map, List.length_map]
    simpa using hlength
  · obtain ⟨n, hn, rfl⟩ := List.mem_map.1 hd
    rcases Component.mem_of_collapse? hleft hn with hn | hn
    · cases hn
    · exact List.mem_map_of_mem (List.mem_filterMap.2 ⟨_, hn, rfl⟩)
  · rw [Component.collapse?_of_not_mem hleft fun hm => hnone (List.mem_append_left _ hm),
      List.nil_append]

/-- The directories of a path that is a text can stand in a specifier. -/
theorem isName_of_mem_directories {t d : Text} (h : d ∈ (ofText t).directories) :
    Specifier.IsName d := by
  obtain ⟨n, hn, rfl⟩ := List.mem_map.1 h
  obtain ⟨c, hc, hname⟩ := List.mem_filterMap.1 hn
  obtain rfl : c = .normal n := by
    cases c <;> cases hname
    rfl
  obtain ⟨hfield, hread⟩ := mem_fields_of_mem_components (List.dropLast_subset _ hc)
  rw [ofText, Utf8.fields_encode] at hfield
  obtain ⟨u, hu, rfl⟩ := List.mem_map.1 hfield
  rw [Utf8.decodeLossy_encode]
  refine ⟨?_, ?_, ?_, not_mem_of_mem_fields hu⟩ <;> rintro rfl <;> cases hread

end Path

/-! ### Places -/

/-- Where nothing climbs, a specifier leads on in the same way from every directory. -/
theorem Location.exists_follow_eq_append {rest : Text} (h : ['.', '.'] ∉ fields '/' rest) :
    ∃ onward, ∀ loc : Location, loc.follow rest = loc ++ onward := by
  unfold follow
  generalize fields '/' rest = segments at h
  induction segments with
  | nil => exact ⟨[], fun loc => (List.append_nil loc).symm⟩
  | cons s segments ih =>
    obtain ⟨onward, honward⟩ := ih fun hm => h (List.mem_cons_of_mem _ hm)
    have hdots : s ≠ ['.', '.'] := fun e => h (e ▸ List.mem_cons_self)
    by_cases hs : s = [] ∨ s = ['.']
    · refine ⟨onward, fun loc => ?_⟩
      rw [List.foldl_cons, visit, if_pos hs, honward]
    · refine ⟨Utf8.encode s :: onward, fun loc => ?_⟩
      rw [List.foldl_cons, visit, if_neg hs, if_neg hdots, honward, List.append_assoc]
      rfl

namespace Specifier

theorem count_slash_intercalate {dirs : List Text} (hne : dirs ≠ []) (h : ∀ d ∈ dirs, '/' ∉ d) :
    (List.intercalate ['/'] dirs).count '/' + 1 = dirs.length := by
  induction dirs with
  | nil => exact absurd rfl hne
  | cons d dirs ih =>
    have hd := List.count_eq_zero.2 (h d List.mem_cons_self)
    cases dirs with
    | nil => rw [List.intercalate_singleton, hd, List.length_singleton]
    | cons e dirs =>
      have hrest := ih (List.cons_ne_nil _ _) fun x hx => h x (List.mem_cons_of_mem _ hx)
      rw [List.intercalate_cons_cons, List.count_append, List.count_append, hd,
        List.count_singleton_self, List.length_cons]
      omega

/-- There is a slash for each directory that a climb leaves. -/
theorem count_slash_stem {dirs : List Text} (h : ∀ d ∈ dirs, '/' ∉ d) (levels : Nat) :
    (stem dirs levels).count '/' = dirs.length - levels := by
  unfold stem
  by_cases hlevels : dirs.length ≤ levels
  · rw [if_pos hlevels, Nat.sub_eq_zero_of_le hlevels]
    rfl
  · have hlength : (dirs.take (dirs.length - levels)).length = dirs.length - levels := by
      rw [List.length_take]
      omega
    have hne : dirs.take (dirs.length - levels) ≠ [] := by
      rw [← List.length_pos_iff, hlength]
      omega
    rw [if_neg hlevels, List.count_append, List.count_singleton_self,
      count_slash_intercalate hne fun d hd => h d (List.mem_of_mem_take hd), hlength]

variable {dirs dirs' : List Text} {spec : Text}

/-- Equal alias forms come from equally many directories, if the climb leaves the root in neither
case. -/
theorem length_eq_of_resolve_eq (h : ∀ d ∈ dirs, '/' ∉ d) (h' : ∀ d ∈ dirs', '/' ∉ d)
    (hlevels : (climb spec).1 ≤ dirs.length) (hlevels' : (climb spec).1 ≤ dirs'.length)
    {spelling : Text} (he : resolve dirs spelling spec = resolve dirs' spelling spec) :
    dirs.length = dirs'.length := by
  rw [resolve_eq, resolve_eq, List.append_cancel_right_eq, List.append_cancel_left_eq] at he
  have hcount := congrArg (List.count '/') he
  rw [count_slash_stem h, count_slash_stem h'] at hcount
  omega

/-- What an alias form names from the root, if the climb does not leave it. -/
theorem follow_stem_climb (h : ∀ d ∈ dirs, IsName d) (hlevels : (climb spec).1 ≤ dirs.length)
    (root : Location) :
    root.follow (stem dirs (climb spec).1 ++ (climb spec).2) =
      (root ++ dirs.map Utf8.encode).follow spec := by
  rw [follow_stem_eq h root hlevels, replicate_climb]

/-- A specifier that climbs only at its start leads as much deeper as its directory lies. -/
theorem length_follow {n : Nat} (hlength : dirs'.length + n = dirs.length)
    (hlevels : (climb spec).1 ≤ dirs'.length) (hrest : ['.', '.'] ∉ fields '/' (climb spec).2)
    (root : Location) :
    ((root ++ dirs.map Utf8.encode).follow spec).length =
      ((root ++ dirs'.map Utf8.encode).follow spec).length + n := by
  obtain ⟨onward, honward⟩ := Location.exists_follow_eq_append hrest
  rw [← replicate_climb spec, Location.follow_climb, Location.follow_climb, honward, honward]
  simp only [List.length_append, List.length_take, List.length_map]
  omega

/-- **A parent step in a path is read as nothing.** Let a path to a file stand for another one
when each `..` in it cancels the directory before it, and let a specifier climb no more levels
than the other path has directories. Read from the root, the alias form for either path names
what the specifier names from the directories of that path. The two forms are the same if and
only if there is no `..` in the path. If the specifier climbs only at its start, the form for the
path names a place that lies one directory too deep for each `..`, so it names what the specifier
names from the directories of the other path if and only if there is none. -/
theorem resolve_collapsed_iff (t : Text) (p' : Path) (spec : Text)
    (hfile : (Path.ofText t).fileName?.isSome) (hcollapsed : (Path.ofText t).collapsed? = some p')
    (hlevels : (climb spec).1 ≤ p'.directories.length) :
    let p := Path.ofText t
    (∀ spelling, resolve p.directories spelling spec = resolve p'.directories spelling spec ↔
      .parent ∉ p.components) ∧
    ∃ s s', (∀ spelling, resolve p.directories spelling spec = spelling ++ s ∧
        resolve p'.directories spelling spec = spelling ++ s') ∧
      ∀ root : Location,
        let place := (root ++ p'.directories.map Utf8.encode).follow spec
        root.follow s = (root ++ p.directories.map Utf8.encode).follow spec ∧
        root.follow s' = place ∧
        (['.', '.'] ∉ fields '/' (climb spec).2 →
          (root.follow s).length = place.length + p.components.count .parent ∧
          (root.follow s = place ↔ .parent ∉ p.components)) := by
  intro p
  obtain ⟨hcount, hmem, hsame⟩ := Path.directories_collapsed (p := p) hfile hcollapsed
  have hnames : ∀ d ∈ p.directories, IsName d := fun d => Path.isName_of_mem_directories
  have hnames' : ∀ d ∈ p'.directories, IsName d := fun d hd => hnames d (hmem d hd)
  have hall : (climb spec).1 ≤ p.directories.length := by omega
  refine ⟨fun spelling => ⟨fun he => ?_, fun hnone => by rw [hsame hnone]⟩,
    stem p.directories (climb spec).1 ++ (climb spec).2,
    stem p'.directories (climb spec).1 ++ (climb spec).2, fun spelling => ?_, fun root => ?_⟩
  · -- equally many directories are left, so no name was cancelled
    have hlength := length_eq_of_resolve_eq (fun d hd => (hnames d hd).2.2.2)
      (fun d hd => (hnames' d hd).2.2.2) hall hlevels he
    rw [← List.count_eq_zero]
    omega
  · rw [resolve_eq, resolve_eq, List.append_assoc, List.append_assoc]
    exact ⟨rfl, rfl⟩
  · intro place
    rw [follow_stem_climb hnames hall root]
    refine ⟨rfl, follow_stem_climb hnames' hlevels root, fun hrest => ?_⟩
    have hdeeper := length_follow hcount hlevels hrest root
    refine ⟨hdeeper, fun he => ?_, fun hnone => by rw [← hsame hnone]⟩
    rw [he] at hdeeper
    rw [← List.count_eq_zero]
    exact Nat.left_eq_add.1 hdeeper

/-- The path `./a/../b/c/f.ts` stands for `b/c/f.ts`. Its form of `../x` is not that of the
other path, and from `/home` it does not lead to `/home/b/x`. -/
theorem resolve_collapsed_iff_detour :
    let p := Path.ofText "./a/../b/c/f.ts".toList
    let p' := Path.ofText "b/c/f.ts".toList
    let spec := "../x".toList
    let place := fun names : List String => names.map fun n => Utf8.encode n.toList
    p.fileName?.isSome ∧ p.collapsed? = some p' ∧ (climb spec).1 ≤ p'.directories.length ∧
      resolve p.directories "@/".toList spec ≠ resolve p'.directories "@/".toList spec ∧
      ∃ s, (∀ spelling, resolve p.directories spelling spec = spelling ++ s) ∧
        Location.follow (place ["home"]) s ≠ place ["home", "b", "x"] := by
  intro p p' spec place
  have hfile : p.fileName?.isSome := by decide
  have hcollapsed : p.collapsed? = some p' := by decide
  have hdirectories : p'.directories = [['b'], ['c']] := by decide +kernel
  have hlevels : (climb spec).1 ≤ p'.directories.length := by
    rw [hdirectories]
    decide
  have hparent : .parent ∈ p.components := by decide
  obtain ⟨hforms, s, s', hs, hplaces⟩ := resolve_collapsed_iff _ p' spec hfile hcollapsed hlevels
  obtain ⟨-, -, hleads⟩ := hplaces (place ["home"])
  have hx : Location.follow (place ["home"] ++ p'.directories.map Utf8.encode) spec =
      place ["home", "b", "x"] := by
    rw [hdirectories]
    decide
  refine ⟨hfile, hcollapsed, hlevels, fun he => (hforms _).1 he hparent, s, fun spelling =>
    (hs spelling).1, fun he => (hleads (by decide)).2.1 (he.trans hx.symm) hparent⟩

/-- In the file `a/../b/f.ts`, which is `b/f.ts`, the specifier `../x` climbs to the root, and its
alias form names a place in `a` all the same. -/
theorem resolve_detour_ne :
    let p := Path.ofText "a/../b/f.ts".toList
    let p' := Path.ofText "b/f.ts".toList
    let spec := "../x".toList
    p.fileName?.isSome ∧ p.collapsed? = some p' ∧ (climb spec).1 ≤ p'.directories.length ∧
      resolve p.directories "@/".toList spec = "@/a/x".toList ∧
      resolve p'.directories "@/".toList spec = "@/x".toList ∧
      resolve p.directories "@/".toList spec ≠ resolve p'.directories "@/".toList spec := by
  decide +kernel

end Specifier

end ImportAlias
