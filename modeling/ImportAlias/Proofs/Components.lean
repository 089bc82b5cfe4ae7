import ImportAlias.Alias
import ImportAlias.Tree.Listing

/-!
# Components of built paths

Paths are built by joining names, made absolute, and cut. What such a path means is
read off its components: a name that is joined adds a component, an absolute path keeps
its components when it is made absolute, and cutting components off a path leaves the
others. So a file below the source root is seen by the alias in the directories that the
walk went through.
-/

namespace ImportAlias

/-! ### Fields -/

/-- A separator cuts a list in two. -/
theorem fields_append {α : Type} [DecidableEq α] (sep : α) (xs ys : List α) :
    fields sep (xs ++ sep :: ys) = fields sep xs ++ fields sep ys := by
  induction xs with
  | nil => simp [fields]
  | cons x xs ih =>
    rw [List.cons_append, fields, fields, ih]
    by_cases hx : x = sep
    · simp [hx]
    · obtain ⟨y, l, hl⟩ := List.exists_cons_of_ne_nil (fields_ne_nil sep xs)
      simp [hx, hl]

theorem fields_of_not_mem {α : Type} [DecidableEq α] {sep : α} {xs : List α} (h : sep ∉ xs) :
    fields sep xs = [xs] := by
  induction xs with
  | nil => rfl
  | cons x xs ih =>
    have hx : x ≠ sep := fun e => h (e ▸ List.mem_cons_self)
    rw [fields, ih fun hm => h (List.mem_cons_of_mem _ hm), if_neg hx]
    rfl

theorem not_mem_of_mem_fields {α : Type} [DecidableEq α] {sep : α} {xs s : List α}
    (h : s ∈ fields sep xs) : sep ∉ s := by
  induction xs generalizing s with
  | nil =>
    rw [List.mem_singleton.1 h]
    exact List.not_mem_nil
  | cons x xs ih =>
    rw [fields] at h
    by_cases hx : x = sep
    · rw [if_pos hx] at h
      rcases List.mem_cons.1 h with rfl | h
      · exact List.not_mem_nil
      · exact ih h
    · rw [if_neg hx] at h
      obtain ⟨y, l, hl⟩ := List.exists_cons_of_ne_nil (fields_ne_nil sep xs)
      rw [hl] at h ih
      rcases List.mem_cons.1 h with rfl | h
      · intro hm
        rcases List.mem_cons.1 hm with e | hm
        · exact hx e.symm
        · exact ih List.mem_cons_self hm
      · exact ih (List.mem_cons_of_mem _ h)

/-- Putting separators between parts without one is undone by cutting there. -/
theorem fields_intercalate {α : Type} [DecidableEq α] {sep : α} {l : List (List α)} (hne : l ≠ [])
    (h : ∀ s ∈ l, sep ∉ s) : fields sep (List.intercalate [sep] l) = l := by
  induction l with
  | nil => exact absurd rfl hne
  | cons s l ih =>
    cases l with
    | nil =>
      rw [List.intercalate_singleton]
      exact fields_of_not_mem (h s List.mem_cons_self)
    | cons s' l =>
      have hrest := ih (List.cons_ne_nil s' l) fun r hr => h r (List.mem_cons_of_mem _ hr)
      calc fields sep (List.intercalate [sep] (s :: s' :: l))
          = fields sep (s ++ sep :: List.intercalate [sep] (s' :: l)) := by
            rw [List.intercalate_cons_cons]
            simp
        _ = [s] ++ s' :: l := by
            rw [fields_append, hrest, fields_of_not_mem (h s List.mem_cons_self)]

/-! ### The components that bytes spell -/

namespace Component

theorem filterMap_name?_map_normal (names : List Name) :
    (names.map normal).filterMap name? = names := by
  rw [List.filterMap_map]
  exact List.filterMap_some

/-- The components that bytes spell, a slash at their start not counted. -/
def spelledBy (bs : Bytes) : List Component := (fields slash bs).filterMap ofSegment?

theorem spelledBy_append (xs ys : Bytes) :
    spelledBy (xs ++ slash :: ys) = spelledBy xs ++ spelledBy ys := by
  rw [spelledBy, fields_append, List.filterMap_append]
  rfl

@[simp] theorem spelledBy_nil : spelledBy [] = [] := rfl

@[simp] theorem spelledBy_slash (bs : Bytes) : spelledBy (slash :: bs) = spelledBy bs :=
  spelledBy_append [] bs

theorem ofSegment?_eq_none_of_isTrivial {s : Name} (h : isTrivial s) : ofSegment? s = none := by
  rw [ofSegment?, if_pos h]

theorem isSome_ofSegment? {s : Name} (h : isTrivial s = false) : (ofSegment? s).isSome := by
  rw [ofSegment?, h]
  by_cases hs : s = [dot, dot] <;> simp [hs]

theorem ofSegment?_of_valid {n : Name} (h : n.Valid) : ofSegment? n = some (.normal n) := by
  obtain ⟨hnil, hdot, hdots, -⟩ := h
  have htrivial : isTrivial n = false := by simp [isTrivial, hnil, hdot]
  rw [ofSegment?, htrivial]
  simp [hdots]

theorem spelledBy_of_valid {n : Name} (h : n.Valid) : spelledBy n = [.normal n] := by
  have hslash : slash ∉ n := h.2.2.2.1
  rw [spelledBy, fields_of_not_mem hslash, List.filterMap_cons, ofSegment?_of_valid h]
  rfl

theorem spelledBy_intercalate {l : List Name} (h : ∀ s ∈ l, slash ∉ s) :
    spelledBy (List.intercalate [slash] l) = l.filterMap ofSegment? := by
  cases l with
  | nil => rfl
  | cons s l => rw [spelledBy, fields_intercalate (List.cons_ne_nil _ _) h]

/-- A component that bytes spell is read back from its spelling. -/
theorem exists_spelling?_of_mem {bs : Bytes} {c : Component} (h : c ∈ spelledBy bs) :
    ∃ s, c.spelling? = some s ∧ slash ∉ s ∧ ofSegment? s = some c := by
  obtain ⟨s, hs, hc⟩ := List.mem_filterMap.1 h
  refine ⟨s, ?_, not_mem_of_mem_fields hs, hc⟩
  unfold ofSegment? at hc
  split at hc
  · cases hc
  · split at hc
    · next hdots =>
      cases hc
      rw [hdots]
      rfl
    · cases hc
      rfl

/-- Components that bytes spell are read back from their spellings. -/
theorem filterMap_spelling?_spelledBy (bs : Bytes) :
    (∀ s ∈ (spelledBy bs).filterMap spelling?, slash ∉ s) ∧
      ((spelledBy bs).filterMap spelling?).filterMap ofSegment? = spelledBy bs := by
  have hread : ∀ l : List Component, (∀ c ∈ l, c ∈ spelledBy bs) →
      (∀ s ∈ l.filterMap spelling?, slash ∉ s) ∧
        (l.filterMap spelling?).filterMap ofSegment? = l := by
    intro l hl
    induction l with
    | nil => exact ⟨by simp, rfl⟩
    | cons c l ih =>
      obtain ⟨s, hs, hslash, hc⟩ := exists_spelling?_of_mem (hl c List.mem_cons_self)
      obtain ⟨hfree, hback⟩ := ih fun d hd => hl d (List.mem_cons_of_mem _ hd)
      rw [List.filterMap_cons_some hs]
      refine ⟨fun r hr => ?_, ?_⟩
      · rcases List.mem_cons.1 hr with rfl | hr
        · exact hslash
        · exact hfree r hr
      · rw [List.filterMap_cons_some hc, hback]
  exact hread _ fun _ hc => hc

end Component

namespace Path

open Component (spelledBy)

theorem isAbsolute_iff {p : Path} : p.isAbsolute ↔ ∃ bs, p.bytes = slash :: bs := by
  unfold isAbsolute
  cases p.bytes with
  | nil => simp
  | cons b bs => simp

theorem ne_nil_of_isAbsolute {p : Path} (h : p.isAbsolute) : p.bytes ≠ [] := by
  obtain ⟨bs, hbs⟩ := isAbsolute_iff.1 h
  rw [hbs]
  exact List.cons_ne_nil _ _

/-- **How a path is cut**: it is empty, or it starts with a slash and is cut after it, or its
first segment is not empty and is its opening if it is a `.`. -/
theorem parts_cases (p : Path) :
    (p.bytes = [] ∧ p.parts = ⟨.bare, []⟩) ∨
    (∃ bs, p.bytes = slash :: bs ∧ p.parts = ⟨.root, fields slash bs⟩) ∨
    ∃ s ss, fields slash p.bytes = s :: ss ∧ s ≠ [] ∧
      (s = [dot] ∧ p.parts = ⟨.current, ss⟩ ∨ s ≠ [dot] ∧ p.parts = ⟨.bare, s :: ss⟩) := by
  unfold parts
  cases p.bytes with
  | nil => exact .inl ⟨rfl, rfl⟩
  | cons b bs =>
    by_cases hb : b = slash
    · exact .inr (.inl ⟨bs, by rw [hb], by simp only [hb, if_true]⟩)
    · obtain ⟨r, rs, hr⟩ := List.exists_cons_of_ne_nil (fields_ne_nil slash bs)
      have hfields : fields slash (b :: bs) = (b :: r) :: rs := by
        rw [fields, if_neg hb, hr]
        rfl
      refine .inr (.inr ⟨b :: r, rs, hfields, List.cons_ne_nil b r, ?_⟩)
      simp only [if_neg hb, hfields]
      by_cases hdot : b :: r = [dot]
      · exact .inl ⟨hdot, if_pos hdot⟩
      · exact .inr ⟨hdot, if_neg hdot⟩

/-- The components of a path are those of its opening and those that its bytes spell. -/
theorem components_eq (p : Path) :
    p.components = p.parts.opening.components ++ spelledBy p.bytes := by
  rcases p.parts_cases with ⟨hbytes, hparts⟩ | ⟨bs, hbytes, hparts⟩ |
    ⟨s, ss, hfields, -, ⟨rfl, hparts⟩ | ⟨-, hparts⟩⟩ <;> rw [components, hparts]
  · rw [hbytes]
    rfl
  · rw [hbytes, Component.spelledBy_slash, spelledBy]
  · rw [spelledBy, hfields]
    rfl
  · rw [spelledBy, hfields]

theorem mem_fields_of_mem_segments {p : Path} {s : Name} (h : s ∈ p.parts.segments) :
    s ∈ fields slash p.bytes := by
  rcases p.parts_cases with ⟨-, hparts⟩ | ⟨bs, hbytes, hparts⟩ |
    ⟨r, rs, hfields, -, ⟨-, hparts⟩ | ⟨-, hparts⟩⟩ <;> rw [hparts] at h
  · cases h
  · rw [hbytes, fields, if_pos rfl]
    exact List.mem_cons_of_mem [] h
  · rw [hfields]
    exact List.mem_cons_of_mem r h
  · rwa [hfields]

theorem not_mem_of_mem_segments {p : Path} {s : Name} (h : s ∈ p.parts.segments) : slash ∉ s :=
  not_mem_of_mem_fields (mem_fields_of_mem_segments h)

theorem opening_of_isAbsolute {p : Path} (h : p.isAbsolute) : p.parts.opening = .root := by
  obtain ⟨bs, hbs⟩ := isAbsolute_iff.1 h
  rw [parts, hbs]
  simp

theorem components_of_isAbsolute {p : Path} (h : p.isAbsolute) :
    p.components = .root :: spelledBy p.bytes := by
  rw [components_eq, opening_of_isAbsolute h]
  rfl

/-! ### Spelling -/

/-- A relative spelling opens with its first segment if that is a `.`. -/
theorem parts_intercalate {s : Name} {ss : List Name} (hs : s ≠ []) (h : ∀ r ∈ s :: ss, slash ∉ r) :
    parts ⟨List.intercalate [slash] (s :: ss)⟩ =
      if s = [dot] then ⟨.current, ss⟩ else ⟨.bare, s :: ss⟩ := by
  have hfields := fields_intercalate (List.cons_ne_nil s ss) h
  cases hbytes : List.intercalate [slash] (s :: ss) with
  | nil =>
    rw [hbytes] at hfields
    exact absurd (List.cons.inj hfields).1.symm hs
  | cons b bs =>
    have hb : b ≠ slash := by
      intro e
      rw [hbytes, e, fields, if_pos rfl] at hfields
      exact hs (List.cons.inj hfields).1.symm
    rw [hbytes] at hfields
    simp only [parts, if_neg hb, hfields]

/-- A spelling without an opening has none, if its first segment says something. -/
theorem opening_spell_bare {ss : List Name} (h : ∀ s ∈ ss, slash ∉ s)
    (hhead : ∀ s ∈ ss.head?, isTrivial s = false) : (parts ⟨spell .bare ss⟩).opening = .bare := by
  cases ss with
  | nil => rfl
  | cons s ss =>
    have hs : isTrivial s = false := hhead s rfl
    simp only [isTrivial, Bool.or_eq_false_iff, decide_eq_false_iff_not] at hs
    rw [spell, parts_intercalate hs.1 h, if_neg hs.2]

/-- A spelling is read as its opening and its segments. -/
theorem components_spell {o : Opening} {ss : List Name} (h : ∀ s ∈ ss, slash ∉ s)
    (hhead : o = .bare → ∀ s ∈ ss.head?, isTrivial s = false) :
    components ⟨spell o ss⟩ = o.components ++ ss.filterMap Component.ofSegment? := by
  rw [components_eq]
  cases o with
  | root =>
    rw [spell, opening_of_isAbsolute (isAbsolute_iff.2 ⟨_, rfl⟩), Component.spelledBy_slash,
      Component.spelledBy_intercalate h]
  | current =>
    have hslash : ∀ r ∈ [dot] :: ss, slash ∉ r := List.forall_mem_cons.2 ⟨by decide, h⟩
    rw [spell, parts_intercalate (List.cons_ne_nil _ _) hslash, if_pos rfl,
      Component.spelledBy_intercalate hslash]
    rfl
  | bare =>
    rw [opening_spell_bare h (hhead rfl), spell, Component.spelledBy_intercalate h]

/-- Where a path has no opening, its first segment says something. -/
theorem isTrivial_head_segments {p : Path} (h : p.parts.opening = .bare) :
    ∀ s ∈ p.parts.segments.head?, isTrivial s = false := by
  rcases p.parts_cases with ⟨-, hparts⟩ | ⟨bs, -, hparts⟩ |
    ⟨s, ss, -, hne, ⟨-, hparts⟩ | ⟨hdot, hparts⟩⟩ <;> rw [hparts] at h ⊢
  · intro s hs
    cases hs
  · cases h
  · cases h
  · rintro _ ⟨⟩
    simp [isTrivial, hne, hdot]

/-! ### Joining -/

theorem isAbsolute_of_valid {n : Name} (h : n.Valid) : isAbsolute ⟨n⟩ = false := by
  rw [Bool.eq_false_iff]
  intro habs
  obtain ⟨bs, hbs⟩ := isAbsolute_iff.1 habs
  have hslash : slash ∉ n := h.2.2.2.1
  exact hslash (by rw [show n = slash :: bs from hbs]; exact List.mem_cons_self)

/-- An absolute path is followed by the name after a slash, of which it may have one. -/
theorem join_eq {p : Path} {n : Name} (hp : p.isAbsolute) (hn : n.Valid) :
    ∃ u, (p.join ⟨n⟩).bytes = u ++ slash :: n ∧ (p.bytes = u ∨ p.bytes = u ++ [slash]) := by
  have hne := ne_nil_of_isAbsolute hp
  rw [join, isAbsolute_of_valid hn]
  by_cases hlast : p.bytes.getLast? = some slash
  · obtain ⟨u, hu⟩ := List.getLast?_eq_some_iff.1 hlast
    refine ⟨u, ?_, .inr hu⟩
    simp [hu]
  · refine ⟨p.bytes, ?_, .inl rfl⟩
    simp [hlast, hne]

theorem isAbsolute_join {p : Path} {n : Name} (hp : p.isAbsolute) (hn : n.Valid) :
    (p.join ⟨n⟩).isAbsolute := by
  obtain ⟨bs, hbs⟩ := isAbsolute_iff.1 hp
  obtain ⟨u, hu, hp | hp⟩ := join_eq hp hn
  · exact isAbsolute_iff.2 ⟨bs ++ slash :: n, by rw [hu, ← hp, hbs]; rfl⟩
  · cases u with
    | nil => exact isAbsolute_iff.2 ⟨n, hu⟩
    | cons c u =>
      have hc : c = slash := by
        rw [hbs, List.cons_append] at hp
        exact (List.cons.inj hp).1.symm
      exact isAbsolute_iff.2 ⟨u ++ slash :: n, by rw [hu, hc]; rfl⟩

/-- What follows a slash does not change how a path opens. -/
theorem opening_append_slash (xs ys : Bytes) :
    (parts ⟨xs ++ slash :: ys⟩).opening = if xs = [] then .root else (parts ⟨xs⟩).opening := by
  cases xs with
  | nil => simp [parts]
  | cons b bs =>
    have hfields := fields_append slash (b :: bs) ys
    obtain ⟨s, ss, hs⟩ := List.exists_cons_of_ne_nil (fields_ne_nil slash (b :: bs))
    rw [hs, List.cons_append, List.cons_append] at hfields
    by_cases hb : b = slash
    · simp [parts, hb]
    · by_cases hdot : s = [dot] <;> simp [parts, hb, hs, hfields, hdot]

/-- Joining a path without an opening adds its components. -/
theorem components_join_of_bare {p q : Path} (hp : p.bytes ≠ []) (hq : q.parts.opening = .bare) :
    (p.join q).components = p.components ++ q.components := by
  have habs : q.isAbsolute = false := by
    rw [Bool.eq_false_iff]
    intro habs
    rw [opening_of_isAbsolute habs] at hq
    cases hq
  rw [components_eq p, components_eq q, hq, join, habs]
  by_cases hlast : p.bytes.getLast? = some slash
  · obtain ⟨u, hu⟩ := List.getLast?_eq_some_iff.1 hlast
    have hjoined : p.bytes ++ q.bytes = u ++ slash :: q.bytes := by simp [hu]
    have hopening : p.parts.opening = if u = [] then .root else (parts ⟨u⟩).opening := by
      rw [← opening_append_slash u [], ← hu]
    rw [if_neg Bool.false_ne_true, if_pos (.inr hlast), hjoined, components_eq,
      opening_append_slash, ← hopening, hu, Component.spelledBy_append,
      Component.spelledBy_append]
    simp [Opening.components]
  · rw [if_neg Bool.false_ne_true, if_neg (not_or.2 ⟨hp, hlast⟩), components_eq,
      opening_append_slash, if_neg hp, Component.spelledBy_append]
    simp [Opening.components]

/-- Joining a name to a path adds a component. -/
theorem components_join {p : Path} {n : Name} (hp : p.isAbsolute) (hn : n.Valid) :
    (p.join ⟨n⟩).components = p.components ++ [.normal n] := by
  have hne := ne_nil_of_isAbsolute hp
  have hbare : (parts ⟨n⟩).opening = .bare := by
    obtain ⟨hnil, hdot, -, hslash, -⟩ := hn
    have hparts := parts_intercalate hnil (List.forall_mem_singleton.2 hslash)
    rw [List.intercalate_singleton, if_neg hdot] at hparts
    rw [hparts]
  rw [components_join_of_bare hne hbare, components_eq ⟨n⟩, hbare,
    Component.spelledBy_of_valid hn]
  rfl

/-- Names lead from an absolute path to one with a component more for each of them. -/
theorem descend_spec {p : Path} {names : List Name} (hp : p.isAbsolute)
    (hn : ∀ n ∈ names, Name.Valid n) :
    (p.descend names).isAbsolute ∧
      (p.descend names).components = p.components ++ names.map .normal := by
  induction names generalizing p with
  | nil => exact ⟨hp, by simp [descend]⟩
  | cons n names ih =>
    have hvalid := hn n List.mem_cons_self
    obtain ⟨habs, hcomp⟩ := ih (isAbsolute_join hp hvalid) fun m hm => hn m (List.mem_cons_of_mem _ hm)
    refine ⟨habs, hcomp.trans ?_⟩
    rw [components_join hp hvalid]
    simp

theorem descend_injective {p : Path} {names names' : List Name} (hp : p.isAbsolute)
    (hn : ∀ n ∈ names, Name.Valid n) (hn' : ∀ n ∈ names', Name.Valid n)
    (h : p.descend names = p.descend names') : names = names' := by
  have hcomp := congrArg components h
  rw [(descend_spec hp hn).2, (descend_spec hp hn').2] at hcomp
  exact (List.map_inj_right fun _ _ => Component.normal.inj).1 (List.append_cancel_left hcomp)

/-! ### Absolute paths -/

theorem isAbsolute_absolute {cwd : Location} {p : Path} (hp : p.bytes ≠ []) :
    (p.absolute cwd).isAbsolute := by
  rw [absolute, if_neg hp]
  by_cases htwice : p.opensTwice = true <;> simp [isAbsolute, htwice]

/-- The components of an absolute form are the root and what the names of the working
directory and of the path spell. -/
theorem components_absolute_eq {cwd : Location} {p : Path} (hp : p.bytes ≠ []) :
    (p.absolute cwd).components =
      .root :: spelledBy (List.intercalate [slash] ((if p.isAbsolute then [] else cwd) ++
        (spelledBy p.bytes).filterMap Component.spelling?)) := by
  have hnames : p.components.filterMap Component.spelling? =
      (spelledBy p.bytes).filterMap Component.spelling? := by
    rw [components_eq, List.filterMap_append]
    cases p.parts.opening <;> rfl
  have hclosing : ∀ (xs : Bytes) (b : Prop) [Decidable b],
      spelledBy (xs ++ if b then [slash] else []) = spelledBy xs := by
    intro xs b _
    by_cases hb : b
    · rw [if_pos hb, Component.spelledBy_append, Component.spelledBy_nil, List.append_nil]
    · rw [if_neg hb, List.append_nil]
  have hopening : ∀ xs : Bytes,
      spelledBy ((if p.opensTwice then [slash, slash] else [slash]) ++ xs) = spelledBy xs := by
    intro xs
    by_cases htwice : p.opensTwice = true <;> simp [htwice]
  rw [components_of_isAbsolute (isAbsolute_absolute hp), absolute, if_neg hp]
  simp only [hnames]
  rw [hclosing, hopening]

/-- Making an absolute path absolute keeps its components. -/
theorem components_absolute {cwd : Location} {p : Path} (hp : p.isAbsolute) :
    (p.absolute cwd).components = p.components := by
  have hne := ne_nil_of_isAbsolute hp
  obtain ⟨hslash, hback⟩ := Component.filterMap_spelling?_spelledBy p.bytes
  rw [components_absolute_eq hne, if_pos hp, List.nil_append,
    Component.spelledBy_intercalate hslash, hback, components_of_isAbsolute hp]

/-! ### Cutting -/

theorem filterMap_dropWhile_isTrivial (ss : List Name) :
    (ss.dropWhile isTrivial).filterMap Component.ofSegment? = ss.filterMap Component.ofSegment? := by
  induction ss with
  | nil => rfl
  | cons s ss ih =>
    by_cases hs : isTrivial s = true
    · rw [List.dropWhile_cons_of_pos hs, ih,
        List.filterMap_cons_none (Component.ofSegment?_eq_none_of_isTrivial hs)]
    · rw [List.dropWhile_cons_of_neg hs]

theorem filterMap_trimSteps (ss : List Name) :
    (trimSteps ss).filterMap Component.ofSegment? = ss.filterMap Component.ofSegment? := by
  rw [trimSteps, List.filterMap_reverse, filterMap_dropWhile_isTrivial, List.filterMap_reverse,
    List.reverse_reverse]

theorem filterMap_dropSteps (n : Nat) (ss : List Name) :
    (dropSteps n ss).filterMap Component.ofSegment? =
      (ss.filterMap Component.ofSegment?).drop n := by
  fun_induction dropSteps n ss with
  | case1 => rfl
  | case2 => simp
  | case3 n s ss hs ih =>
    rw [ih, List.filterMap_cons_none (Component.ofSegment?_eq_none_of_isTrivial hs)]
  | case4 n s ss hs ih =>
    obtain ⟨c, hc⟩ := Option.isSome_iff_exists.1 (Component.isSome_ofSegment? (by simpa using hs))
    rw [ih, List.filterMap_cons_some hc, List.drop_succ_cons]

theorem trimSteps_isPrefix (ss : List Name) : trimSteps ss <+: ss := by
  have h := List.reverse_prefix.2 (List.dropWhile_suffix isTrivial (l := ss.reverse))
  rwa [List.reverse_reverse] at h

theorem dropSteps_sublist (n : Nat) (ss : List Name) : (dropSteps n ss).Sublist ss := by
  fun_induction dropSteps n ss with
  | case1 => exact List.Sublist.refl _
  | case2 => exact List.Sublist.refl _
  | case3 n s ss hs ih => exact ih.cons s
  | case4 n s ss hs ih => exact ih.cons s

theorem isTrivial_head_of_isPrefix {rs ss : List Name} (hstart : rs <+: ss)
    (h : ∀ s ∈ ss.head?, isTrivial s = false) : ∀ s ∈ rs.head?, isTrivial s = false := by
  intro s hs
  obtain ⟨rest, hrest⟩ := hstart
  refine h s ?_
  rw [← hrest, List.head?_append, Option.mem_def.1 hs]
  rfl

/-- **How what is left of a path is spelled**: by some of its segments that stand for the
components that are left, and without an opening if anything was cut off. -/
theorem exists_spell_dropComponents (n : Nat) (p : Path) :
    ∃ o ss, p.dropComponents n = ⟨spell o ss⟩ ∧ (∀ s ∈ ss, s ∈ p.parts.segments) ∧
      (o = .bare → ∀ s ∈ ss.head?, isTrivial s = false) ∧
      o.components ++ ss.filterMap Component.ofSegment? = p.components.drop n ∧
      (n ≠ 0 → o = .bare) := by
  cases n with
  | zero =>
    refine ⟨p.parts.opening, trimSteps p.parts.segments, rfl, ?_, ?_, ?_, fun h => absurd rfl h⟩
    · exact fun s hs => (trimSteps_isPrefix _).subset hs
    · exact fun hbare => isTrivial_head_of_isPrefix (trimSteps_isPrefix _)
        (isTrivial_head_segments hbare)
    · rw [filterMap_trimSteps]
      rfl
  | succ n =>
    let left := dropSteps (n + 1 - p.parts.opening.components.length) p.parts.segments
    refine ⟨.bare, trimSteps (left.dropWhile isTrivial), rfl, fun s hs => ?_, fun _ => ?_, ?_,
      fun _ => rfl⟩
    · have hleft := (List.dropWhile_sublist isTrivial).subset ((trimSteps_isPrefix _).subset hs)
      exact (dropSteps_sublist _ _).subset hleft
    · refine isTrivial_head_of_isPrefix (trimSteps_isPrefix _) fun s hs => ?_
      have hnot := List.head?_dropWhile_not isTrivial left
      rw [Option.mem_def.1 hs] at hnot
      simpa using hnot
    · have hlen : p.parts.opening.components.length ≤ n + 1 := by
        cases p.parts.opening <;> simp [Opening.components]
      rw [filterMap_trimSteps, filterMap_dropWhile_isTrivial, filterMap_dropSteps, components,
        List.drop_append, List.drop_eq_nil_of_le hlen]
      rfl

/-- Cutting components off a path leaves the others. -/
theorem components_dropComponents (n : Nat) (p : Path) :
    (p.dropComponents n).components = p.components.drop n := by
  obtain ⟨o, ss, hspell, hsegments, hhead, hcomponents, -⟩ := p.exists_spell_dropComponents n
  have hslash : ∀ s ∈ ss, slash ∉ s := fun s hs => not_mem_of_mem_segments (hsegments s hs)
  rw [hspell, components_spell hslash hhead, hcomponents]

theorem relativeTo?_of_append {p base : Path} {rest : List Component}
    (h : p.components = base.components ++ rest) :
    p.relativeTo? base = some (p.dropComponents base.components.length) := by
  rw [relativeTo?, h, after?_append]
  rfl

end Path

/-- The alias sees a file in the directories that come after its root, if the root comes first
in the absolute form of the file's path. -/
theorem Alias.directories_of_append {a : Alias} {cwd : Location} {p : Path} {rest : List Component}
    (h : (p.absolute cwd).components = a.root.components ++ rest) :
    a.directories cwd p = (rest.dropLast.filterMap Component.name?).map Utf8.decodeLossy := by
  rw [directories, pathFromRoot]
  simp only [Path.relativeTo?_of_append h]
  rw [Path.directories, Path.components_dropComponents, h, List.drop_left]

/-- The alias sees a file below its root in the directories that the names go through. -/
theorem Alias.directories_descend {a : Alias} {names : List Name} (cwd : Location)
    (ha : a.root.isAbsolute) (hn : ∀ n ∈ names, Name.Valid n) :
    a.directories cwd (a.root.descend names) = names.dropLast.map Utf8.decodeLossy := by
  obtain ⟨habs, hcomp⟩ := Path.descend_spec ha hn
  have hfull : ((a.root.descend names).absolute cwd).components =
      a.root.components ++ names.map .normal := by
    rw [Path.components_absolute habs, hcomp]
  rw [directories_of_append hfull, ← List.map_dropLast, Component.filterMap_name?_map_normal]

end ImportAlias
