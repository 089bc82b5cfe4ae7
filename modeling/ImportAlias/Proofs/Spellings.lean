import Mathlib.Data.List.Basic
import ImportAlias.Proofs.Relocation

/-!
# Spellings of a path

A path can be spelled in many ways: from the working directory or from the root of the file
system, with one slash or several, with `.` here and there, with a closing slash. The alias
takes all of them for the same. What it makes of a file depends on the components of two
absolute forms alone, that of the source root and that of the file: the directories are those
after the root, and a file that is not below the root counts as lying in it.

The path that is shown to a reader is cut off after the components of a base, and joining it to
the base gives the components of the path again. A cut at slashes leaves a text a text, so for a
path that is a text nothing is lost on the way.
-/

namespace ImportAlias

/-! ### Texts cut at slashes -/

theorem fields_append_of_not_mem {α : Type} [DecidableEq α] {sep : α} {xs : List α} (h : sep ∉ xs)
    (ys : List α) : fields sep (xs ++ ys) = (fields sep ys).modifyHead (xs ++ ·) := by
  induction xs with
  | nil => exact (congrFun List.modifyHead_id (fields sep ys)).symm
  | cons x xs ih =>
    have hx : x ≠ sep := fun e => h (e ▸ List.mem_cons_self)
    rw [List.cons_append, fields, if_neg hx, ih fun hm => h (List.mem_cons_of_mem _ hm)]
    cases fields sep ys <;> rfl

namespace Utf8

/-- Bytes of a text are cut at slashes where the text is. -/
theorem fields_encode (t : Text) : fields slash (encode t) = (fields '/' t).map encode := by
  induction t with
  | nil => rfl
  | cons c t ih =>
    have hencode : encode (c :: t) = String.utf8EncodeChar c ++ encode t := rfl
    by_cases hc : c = '/'
    · have hslash : String.utf8EncodeChar '/' = [slash] := by decide
      rw [hencode, hc, hslash, List.singleton_append, fields, if_pos rfl, fields, if_pos rfl, ih]
      rfl
    · have hfree : slash ∉ String.utf8EncodeChar c := fun hm => hc (eq_slash_of_mem hm)
      rw [hencode, fields_append_of_not_mem hfree, ih, fields, if_neg hc]
      cases fields '/' t <;> rfl

theorem exists_encode_intercalate {ss : List Name} (h : ∀ s ∈ ss, ∃ u, s = encode u) :
    ∃ u, List.intercalate [slash] ss = encode u := by
  induction ss with
  | nil => exact ⟨[], rfl⟩
  | cons s ss ih =>
    obtain ⟨u, rfl⟩ := h s List.mem_cons_self
    obtain ⟨v, hv⟩ := ih fun r hr => h r (List.mem_cons_of_mem _ hr)
    cases ss with
    | nil => exact ⟨u, List.intercalate_singleton⟩
    | cons s' ss =>
      refine ⟨u ++ '/' :: v, ?_⟩
      have hslash : encode ('/' :: v) = [slash] ++ encode v := rfl
      rw [List.intercalate_cons_cons, hv, encode_append, hslash, List.append_assoc]

end Utf8

/-! ### Openings -/

namespace Component

/-- What stands between slashes is neither the root nor a `.`. -/
theorem ne_of_mem_spelledBy {bs : Bytes} {c : Component} (h : c ∈ spelledBy bs) :
    c ≠ .root ∧ c ≠ .current := by
  obtain ⟨s, hs, -⟩ := exists_spelling?_of_mem h
  constructor <;> rintro rfl <;> cases hs

end Component

namespace Path

open Component (spelledBy)

theorem opening_eq_root_iff {p : Path} : p.parts.opening = .root ↔ p.isAbsolute := by
  refine ⟨fun h => ?_, opening_of_isAbsolute⟩
  rcases p.parts_cases with ⟨-, hparts⟩ | ⟨bs, hbytes, -⟩ |
    ⟨s, ss, -, -, ⟨-, hparts⟩ | ⟨-, hparts⟩⟩
  · rw [hparts] at h
    cases h
  · exact isAbsolute_iff.2 ⟨bs, hbytes⟩
  · rw [hparts] at h
    cases h
  · rw [hparts] at h
    cases h

theorem root_mem_components_iff {p : Path} : .root ∈ p.components ↔ p.isAbsolute := by
  rw [components_eq, List.mem_append, ← opening_eq_root_iff]
  constructor
  · rintro (h | h)
    · cases hopening : p.parts.opening with
      | root => rfl
      | current | bare => simp [hopening, Opening.components] at h
    · exact absurd rfl (Component.ne_of_mem_spelledBy h).1
  · intro h
    rw [h]
    exact .inl List.mem_cons_self

/-- Only the empty path says nothing at all. -/
theorem components_eq_nil_iff {p : Path} : p.components = [] ↔ p.bytes = [] := by
  constructor
  · intro h
    rcases p.parts_cases with ⟨hbytes, -⟩ | ⟨bs, -, hparts⟩ |
      ⟨s, ss, -, hne, ⟨-, hparts⟩ | ⟨hdot, hparts⟩⟩
    · exact hbytes
    · rw [components, hparts] at h
      cases h
    · rw [components, hparts] at h
      cases h
    · have hs : isTrivial s = false := by simp [isTrivial, hne, hdot]
      obtain ⟨c, hc⟩ := Option.isSome_iff_exists.1 (Component.isSome_ofSegment? hs)
      rw [components, hparts, List.filterMap_cons_some hc] at h
      cases h
  · intro h
    rw [components_eq, parts, h]
    rfl

theorem filter_components (p : Path) :
    (p.components.filter fun c => c ≠ .root ∧ c ≠ .current) = spelledBy p.bytes := by
  have hopening : (p.parts.opening.components.filter fun c => c ≠ .root ∧ c ≠ .current) = [] := by
    cases p.parts.opening <;> rfl
  rw [components_eq, List.filter_append, hopening, List.nil_append, List.filter_eq_self]
  intro c hc
  exact decide_eq_true (Component.ne_of_mem_spelledBy hc)

/-! ### Absolute forms -/

/-- The components that a path has for a process that works at `cwd`: the root, the names of
`cwd` unless the path starts at the root itself, and what the path says. -/
def componentsFrom (cwd : Location) (p : Path) : List Component :=
  if p.components = [] then []
  else .root :: ((if .root ∈ p.components then [] else cwd.map .normal) ++
    p.components.filter fun c => c ≠ .root ∧ c ≠ .current)

theorem components_absolute_eq_componentsFrom {cwd : Location} (hcwd : ∀ n ∈ cwd, n.Valid)
    (p : Path) : (p.absolute cwd).components = p.componentsFrom cwd := by
  by_cases hp : p.bytes = []
  · have hnil := components_eq_nil_iff.2 hp
    rw [absolute, if_pos hp, componentsFrom, if_pos hnil, hnil]
  · obtain ⟨hfree, hback⟩ := Component.filterMap_spelling?_spelledBy p.bytes
    have hnames : cwd.filterMap Component.ofSegment? = cwd.map .normal :=
      List.filterMap_eq_map_iff_forall_eq_some.2 fun n hn =>
        Component.ofSegment?_of_valid (hcwd n hn)
    have hslash : ∀ s ∈ (if p.isAbsolute then [] else cwd) ++
        (spelledBy p.bytes).filterMap Component.spelling?, slash ∉ s := by
      intro s hs
      rcases List.mem_append.1 hs with hs | hs
      · by_cases habs : p.isAbsolute = true
        · rw [if_pos habs] at hs
          cases hs
        · rw [if_neg habs] at hs
          exact (hcwd s hs).2.2.2.1
      · exact hfree s hs
    rw [components_absolute_eq hp, componentsFrom, if_neg (mt components_eq_nil_iff.1 hp),
      Component.spelledBy_intercalate hslash, List.filterMap_append, hback, filter_components]
    by_cases habs : p.isAbsolute = true
    · rw [if_pos habs, if_pos (root_mem_components_iff.2 habs)]
      rfl
    · rw [if_neg habs, if_neg (mt root_mem_components_iff.1 habs), hnames]

/-! ### The parent of a path -/

theorem filterMap_dropLast_trimSteps (ss : List Name) :
    (trimSteps ss).dropLast.filterMap Component.ofSegment? =
      (ss.filterMap Component.ofSegment?).dropLast := by
  rw [← filterMap_trimSteps ss, trimSteps]
  cases hleft : ss.reverse.dropWhile isTrivial with
  | nil => rfl
  | cons s left =>
    have hhead := List.head?_dropWhile_not isTrivial ss.reverse
    rw [hleft] at hhead
    have hs : isTrivial s = false := by simpa using hhead
    obtain ⟨c, hc⟩ := Option.isSome_iff_exists.1 (Component.isSome_ofSegment? hs)
    rw [List.reverse_cons, List.dropLast_concat, List.filterMap_append,
      List.filterMap_cons_some hc, List.filterMap_nil, List.dropLast_concat]

/-- The last component of a path comes from a segment, or it is all that the path says. -/
theorem getLast?_components (p : Path) :
    (∃ c ∈ spelledBy p.bytes, p.components.getLast? = some c) ∨
      p.components = p.parts.opening.components := by
  rw [components_eq]
  cases hlast : (spelledBy p.bytes).getLast? with
  | none => exact .inr (by rw [List.getLast?_eq_none_iff.1 hlast, List.append_nil])
  | some c =>
    refine .inl ⟨c, List.mem_of_getLast? hlast, ?_⟩
    rw [List.getLast?_append, hlast]
    rfl

/-- The parent of a path has its components but the last. A path without a parent has at most
one. -/
theorem components_parent? (p : Path) :
    (p.parent?.map components).getD [] = p.components.dropLast := by
  rcases p.getLast?_components with ⟨c, hc, hlast⟩ | hall
  · obtain ⟨hroot, hcurrent⟩ := Component.ne_of_mem_spelledBy hc
    have hparent : p.parent? =
        some ⟨spell p.parts.opening (trimSteps (trimSteps p.parts.segments).dropLast)⟩ := by
      unfold parent?
      cases c <;> simp_all
    have hstart : trimSteps (trimSteps p.parts.segments).dropLast <+: p.parts.segments :=
      ((trimSteps_isPrefix _).trans (List.dropLast_prefix _)).trans (trimSteps_isPrefix _)
    have hsegments : p.parts.segments.filterMap Component.ofSegment? = spelledBy p.bytes :=
      List.append_cancel_left p.components_eq
    rw [hparent, Option.map_some, Option.getD_some,
      components_spell (fun s hs => not_mem_of_mem_segments (hstart.subset hs))
        (fun hbare => isTrivial_head_of_isPrefix hstart (isTrivial_head_segments hbare)),
      filterMap_trimSteps, filterMap_dropLast_trimSteps, hsegments, components_eq,
      List.dropLast_append_of_ne_nil (List.ne_nil_of_mem hc)]
  · rw [hall, parent?, hall]
    cases p.parts.opening <;> rfl

/-- The directories that a file path goes through are the names of its parent. -/
theorem directories_eq_parent? (p : Path) :
    p.directories =
      (((p.parent?.map components).getD []).filterMap Component.name?).map Utf8.decodeLossy := by
  rw [components_parent?, directories]

/-! ### Joining what is left -/

/-- Cutting components off a path that is a text leaves a text. -/
theorem exists_ofText_dropComponents (t : Text) (n : Nat) :
    ∃ u, (ofText t).dropComponents n = ofText u := by
  obtain ⟨o, ss, hspell, hsegments, -⟩ := (ofText t).exists_spell_dropComponents n
  have htexts : ∀ s ∈ ss, ∃ u, s = Utf8.encode u := by
    intro s hs
    have hfield := mem_fields_of_mem_segments (hsegments s hs)
    rw [ofText, Utf8.fields_encode] at hfield
    obtain ⟨u, -, hu⟩ := List.mem_map.1 hfield
    exact ⟨u, hu.symm⟩
  rw [hspell]
  cases o with
  | root =>
    obtain ⟨u, hu⟩ := Utf8.exists_encode_intercalate htexts
    exact ⟨'/' :: u, by rw [spell, hu]; rfl⟩
  | current =>
    have hdot : ∃ u, [dot] = Utf8.encode u := ⟨['.'], rfl⟩
    obtain ⟨u, hu⟩ := Utf8.exists_encode_intercalate (List.forall_mem_cons.2 ⟨hdot, htexts⟩)
    exact ⟨u, by rw [spell, hu]; rfl⟩
  | bare =>
    obtain ⟨u, hu⟩ := Utf8.exists_encode_intercalate htexts
    exact ⟨u, by rw [spell, hu]; rfl⟩

theorem display_ofText (t : Text) : (ofText t).display = t := Utf8.decodeLossy_encode t

/-- What is left of a path after a base leads from the base to the path again. -/
theorem components_join_dropComponents {p base : Path} (h : base.components <+: p.components) :
    (base.join (p.dropComponents base.components.length)).components = p.components := by
  obtain ⟨rest, hrest⟩ := h
  have hleft := p.components_dropComponents base.components.length
  by_cases hbase : base.bytes = []
  · have hjoin : base.join (p.dropComponents base.components.length) =
        p.dropComponents base.components.length := by
      simp [join, hbase]
    rw [hjoin, hleft, components_eq_nil_iff.2 hbase]
    rfl
  · have hlength : base.components.length ≠ 0 := fun e =>
      hbase (components_eq_nil_iff.1 (List.length_eq_zero_iff.1 e))
    obtain ⟨o, ss, hspell, hsegments, hhead, -, hbare⟩ :=
      p.exists_spell_dropComponents base.components.length
    obtain rfl := hbare hlength
    have hopening : (p.dropComponents base.components.length).parts.opening = .bare := by
      rw [hspell]
      exact opening_spell_bare (fun s hs => not_mem_of_mem_segments (hsegments s hs)) (hhead rfl)
    rw [components_join_of_bare hbase hopening, hleft, ← hrest, List.drop_left]

theorem relativeTo?_of_not_isPrefix {p base : Path} (h : ¬ base.components <+: p.components) :
    p.relativeTo? base = none := by
  rw [relativeTo?]
  cases hafter : after? base.components p.components with
  | none => rfl
  | some rest => exact absurd ⟨rest, (after?_eq_some_iff.1 hafter).symm⟩ h

theorem displayFrom_of_not_isPrefix {p base : Path} (h : ¬ base.components <+: p.components) :
    p.displayFrom base = p.display := by
  rw [displayFrom, relativeTo?_of_not_isPrefix h]
  rfl

/-- **A reader finds the path again** by joining what is shown to the base, if the path is a
text. -/
theorem components_join_displayFrom {t : Text} {base : Path}
    (h : base.components <+: (ofText t).components) :
    (base.join (ofText ((ofText t).displayFrom base))).components = (ofText t).components := by
  obtain ⟨rest, hrest⟩ := h
  obtain ⟨u, hu⟩ := exists_ofText_dropComponents t base.components.length
  have hshown : ofText ((ofText t).displayFrom base) =
      (ofText t).dropComponents base.components.length := by
    rw [displayFrom, relativeTo?_of_append hrest.symm, Option.getD_some, hu, display_ofText]
  rw [hshown, components_join_dropComponents ⟨rest, hrest⟩]

/-! ### Names of files -/

/-- A path without a slash goes through no directory. -/
theorem directories_of_not_mem {n : Name} (h : slash ∉ n) : directories ⟨n⟩ = [] := by
  have hdrop : (components ⟨n⟩).dropLast = [] := by
    rcases parts_cases ⟨n⟩ with ⟨-, hparts⟩ | ⟨bs, hbytes, -⟩ |
      ⟨s, ss, hfields, -, hparts⟩
    · rw [components, hparts]
      rfl
    · have hn : n = slash :: bs := hbytes
      rw [hn] at h
      exact absurd List.mem_cons_self h
    · rw [fields_of_not_mem h] at hfields
      obtain ⟨rfl, rfl⟩ := List.cons.inj hfields
      rcases hparts with ⟨-, hparts⟩ | ⟨-, hparts⟩ <;> rw [components, hparts]
      · rfl
      · cases hsegment : Component.ofSegment? n <;> simp [Opening.components, hsegment]
  rw [directories, hdrop]
  rfl

/-- A name in a path is one of its segments and stands for itself. -/
theorem mem_fields_of_mem_components {p : Path} {n : Name} (h : .normal n ∈ p.components) :
    n ∈ fields slash p.bytes ∧ Component.ofSegment? n = some (.normal n) := by
  rw [components_eq, List.mem_append] at h
  rcases h with h | h
  · cases hopening : p.parts.opening <;> simp [hopening, Opening.components] at h
  · obtain ⟨s, hs, hread⟩ := List.mem_filterMap.1 h
    have hname : s = n := by
      unfold Component.ofSegment? at hread
      split at hread
      · cases hread
      · split at hread <;> cases hread
        rfl
    rw [hname] at hs hread
    exact ⟨hs, hread⟩

theorem exists_of_fileName? {p : Path} {n : Name} (h : p.fileName? = some n) :
    ∃ cs, p.components = cs ++ [.normal n] := by
  obtain ⟨c, hlast, hname⟩ := Option.bind_eq_some_iff.1 h
  obtain ⟨cs, hcs⟩ := List.getLast?_eq_some_iff.1 hlast
  cases c <;> cases hname
  exact ⟨cs, hcs⟩

theorem slash_not_mem_of_fileName? {p : Path} {n : Name} (h : p.fileName? = some n) :
    slash ∉ n := by
  obtain ⟨cs, hcs⟩ := exists_of_fileName? h
  have hmem : .normal n ∈ p.components := by
    rw [hcs]
    exact List.mem_append_right cs List.mem_cons_self
  exact not_mem_of_mem_fields (mem_fields_of_mem_components hmem).1

end Path

/-! ### What the alias sees -/

namespace Alias

open Specifier (parentStep)

/-- A file that is not below the root counts as lying in it. -/
theorem directories_of_not_isPrefix {a : Alias} {cwd : Location} {p : Path}
    (h : ¬ a.root.components <+: (p.absolute cwd).components) : a.directories cwd p = [] := by
  rw [directories, pathFromRoot]
  simp only [Path.relativeTo?_of_not_isPrefix h]
  apply Path.directories_of_not_mem
  cases hname : (p.absolute cwd).fileName? with
  | none => exact List.not_mem_nil
  | some n => exact Path.slash_not_mem_of_fileName? hname

/-- The directories are read off two lists of components. -/
theorem directories_congr {a a' : Alias} {cwd cwd' : Location} {p p' : Path}
    (hroot : a'.root.components = a.root.components)
    (hp : (p'.absolute cwd').components = (p.absolute cwd).components) :
    a'.directories cwd' p' = a.directories cwd p := by
  by_cases hstart : a.root.components <+: (p.absolute cwd).components
  · obtain ⟨rest, hrest⟩ := hstart
    have hrest' : (p'.absolute cwd').components = a'.root.components ++ rest := by
      rw [hp, hroot, hrest]
    rw [directories_of_append hrest.symm, directories_of_append hrest']
  · rw [directories_of_not_isPrefix hstart, directories_of_not_isPrefix (by rwa [hp, hroot])]

theorem edit_congr {a a' : Alias} {cwd cwd' : Location} {p p' : Path}
    (hspelling : a'.spelling = a.spelling)
    (hdirectories : a'.directories cwd' p' = a.directories cwd p) (t : Text) :
    a'.edit cwd' p' t = a.edit cwd p t := by
  rw [edit, edit, hspelling, hdirectories]

/-- Where there is no directory to climb out of, every climb ends at the root. -/
theorem resolve_of_directories_eq_nil {a : Alias} {cwd : Location} {p : Path}
    (h : a.directories cwd p = []) (levels : Nat) {rest : Text}
    (hrest : after? parentStep rest = none) :
    a.resolve cwd p ((List.replicate levels parentStep).flatten ++ rest) = a.spelling ++ rest := by
  rw [resolve, h, Specifier.resolve, Specifier.climb_replicate levels hrest]
  exact if_pos (Nat.zero_le levels)

/-- **Only components count.** Let a root and a file be given by any paths, and take the
components of their absolute forms.
* If those of the root come first in those of the file, the directories are the names that come
  after them, without the last component.
* If they do not, there are no directories, and every climb ends at the root.
* Either way they are the names of the parent of the path from the root.
* Other paths, and other working directories, that lead to the same components lead to the same
  edit of every text.
* The components of an absolute form are those of the path after the working directory.
* What is shown of a path that is a text leads from a base to its components, if those of the
  base come first in them; if they do not, the path is shown as it is. -/
theorem view_of_components (cwd : Location) (root p : Path) (spelling : Text) :
    let a := ofPath cwd root spelling
    let r := (root.absolute cwd).components
    let c := (p.absolute cwd).components
    (∀ m, c = r ++ m →
      a.directories cwd p = (m.dropLast.filterMap Component.name?).map Utf8.decodeLossy) ∧
    (¬ r <+: c → a.directories cwd p = [] ∧
      ∀ levels rest, after? parentStep rest = none →
        a.resolve cwd p ((List.replicate levels parentStep).flatten ++ rest) = spelling ++ rest) ∧
    a.directories cwd p = (((a.pathFromRoot cwd p).parent?.map Path.components).getD []
      |>.filterMap Component.name?).map Utf8.decodeLossy ∧
    (∀ cwd' root' p', (root'.absolute cwd').components = r → (p'.absolute cwd').components = c →
      ∀ t, (ofPath cwd' root' spelling).edit cwd' p' t = a.edit cwd p t) ∧
    ((∀ n ∈ cwd, n.Valid) → r = root.componentsFrom cwd ∧ c = p.componentsFrom cwd) ∧
    ∀ base : Path,
      (base.components <+: p.components → ∀ t, p = .ofText t →
        (base.join (.ofText (p.displayFrom base))).components = p.components) ∧
      (¬ base.components <+: p.components → p.displayFrom base = p.display) := by
  intro a r c
  refine ⟨fun m hm => directories_of_append hm, fun hstart => ?_,
    Path.directories_eq_parent? _, ?_, fun hcwd => ?_, fun base => ?_⟩
  · have hnil := directories_of_not_isPrefix (a := a) hstart
    exact ⟨hnil, fun levels rest hrest => resolve_of_directories_eq_nil hnil levels hrest⟩
  · intro cwd' root' p' hroot hp t
    have hdirectories : (ofPath cwd' root' spelling).directories cwd' p' = a.directories cwd p :=
      directories_congr hroot hp
    have hspelling : (ofPath cwd' root' spelling).spelling = a.spelling := rfl
    exact edit_congr hspelling hdirectories t
  · exact ⟨Path.components_absolute_eq_componentsFrom hcwd root,
      Path.components_absolute_eq_componentsFrom hcwd p⟩
  · refine ⟨fun hstart t ht => ?_, Path.displayFrom_of_not_isPrefix⟩
    subst ht
    exact Path.components_join_displayFrom hstart

/-- In the directory `/w`, the paths `./src//x/./y.ts` and `//w/src/x//y.ts/.` are the same file
of the directory `x` below `src/`, and `/w/srcx/f/g.ts` is not below it. -/
theorem view_of_components_slashes :
    let cwd : Location := [Utf8.encode ['w']]
    let path := fun s : String => Path.ofText s.toList
    let a := ofPath cwd (path "src/") "@/".toList
    let b := ofPath cwd (path "//w/./src") "@/".toList
    let p := path "./src//x/./y.ts"
    let outside := path "/w/srcx/f/g.ts"
    a.directories cwd p = [['x']] ∧
      (∀ t, b.edit cwd (path "//w/src/x//y.ts/.") t = a.edit cwd p t) ∧
      a.directories cwd outside = [] ∧
      a.resolve cwd outside "../../m".toList = "@/m".toList ∧
      ((path "./src").join (.ofText (p.displayFrom (path "./src")))).components = p.components := by
  intro cwd path a b p outside
  obtain ⟨hbelow, -, -, hsame, -, hshown⟩ := view_of_components cwd (path "src/") p "@/".toList
  obtain ⟨-, houtside, -⟩ := view_of_components cwd (path "src/") outside "@/".toList
  obtain ⟨hnone, hclimb⟩ := houtside (by decide)
  have hx : a.directories cwd p = [['x']] := by
    rw [hbelow [.normal (Utf8.encode ['x']), .normal (Utf8.encode "y.ts".toList)] (by decide)]
    exact congrArg (fun t => [t]) (Utf8.decodeLossy_encode ['x'])
  exact ⟨hx, hsame cwd (path "//w/./src") (path "//w/src/x//y.ts/.") (by decide) (by decide), hnone,
    hclimb 2 ['m'] (by decide), (hshown (path "./src")).1 (by decide) _ rfl⟩

end Alias

end ImportAlias
