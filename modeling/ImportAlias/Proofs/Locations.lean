import ImportAlias.Proofs.Independence
import ImportAlias.Proofs.Scanning

/-!
# Locations without links

In a tree without links a path can only lead to one location, the one that its steps
spell, if it leads anywhere. The files that a scan finds are spelled by different names
from one root, so in such a tree no two of them are the same file.
-/

namespace ImportAlias

/-- Whether a listing has no link in it, at any level. -/
def Listing.linkFree : Listing → Bool
  | .done => true
  | .leaf _ (.file _ _) rest => rest.linkFree
  | .leaf _ (.link _) _ => false
  | .dir _ _ inside rest => inside.linkFree && rest.linkFree

/-- Whether a tree has no link in it. -/
def FileTree.linkFree (t : FileTree) : Bool := t.top.linkFree

theorem Listing.get?_ne_link {l : Listing} (h : l.linkFree = true) (loc : Location)
    (target : Path) : l.get? loc ≠ some (.leaf (.link target)) := by
  intro hget
  induction l generalizing loc with
  | done => cases loc <;> cases hget
  | leaf n what rest ih =>
    cases what with
    | link target' => cases h
    | file mode bs =>
      cases loc with
      | nil => cases hget
      | cons k ks =>
        rw [Listing.get?] at hget
        split at hget
        · split at hget <;> cases hget
        · exact ih h _ hget
  | dir n mode inside rest ih₁ ih₂ =>
    rw [linkFree, Bool.and_eq_true] at h
    cases loc with
    | nil => cases hget
    | cons k ks =>
      rw [Listing.get?] at hget
      split at hget
      · split at hget
        · cases hget
        · exact ih₁ h.1 _ hget
      · exact ih₂ h.2 _ hget

theorem FileTree.get?_ne_link {t : FileTree} (h : t.linkFree = true) (loc : Location)
    (target : Path) : t.get? loc ≠ some (.leaf (.link target)) := by
  unfold get?
  split
  · simp
  · exact t.top.get?_ne_link h loc target

/-! ### Where steps lead -/

/-- The location that a step leads to, if no link is met. -/
def Step.move (loc : Location) : Step → Location
  | .stay | .close => loc
  | .up => loc.dropLast
  | .down n => loc ++ [n]

/-- The location that a path spells, from where it starts. -/
def Path.place (p : Path) (start : Location) : Location := p.steps.foldl Step.move start

/-- Without links, steps lead where they spell. -/
theorem FileTree.walkWith_linkFree {t : FileTree} (h : t.linkFree = true)
    {follow : Location → List Step → Except SystemError Location} {loc loc' : Location}
    {steps : List Step} (hwalk : t.walkWith follow loc steps = .ok loc') :
    loc' = steps.foldl Step.move loc := by
  induction steps generalizing loc with
  | nil =>
    cases hwalk
    rfl
  | cons s rest ih =>
    rw [walkWith] at hwalk
    rcases hget : t.get? loc with _ | (what | ⟨mode, inside⟩)
    · simp [hget] at hwalk
    · simp [hget] at hwalk
    · simp only [hget] at hwalk
      cases s with
      | close => exact ih hwalk
      | stay | up =>
        by_cases henter : mode.enter = true
        · simp only [henter, if_true] at hwalk
          exact ih hwalk
        · simp [henter] at hwalk
      | down n =>
        by_cases henter : mode.enter = true
        · simp only [henter, Bool.true_eq_false, if_false] at hwalk
          split at hwalk
          · cases hwalk
          · rcases hnext : t.get? (loc ++ [n]) with _ | ((_ | target) | _)
            · simp [hnext] at hwalk
            · simp only [hnext] at hwalk
              exact ih hwalk
            · exact absurd hnext (t.get?_ne_link h _ target)
            · simp only [hnext] at hwalk
              exact ih hwalk
        · simp [henter] at hwalk

/-- Without links, a path leads where it spells. -/
theorem FileTree.locate_linkFree {t : FileTree} (h : t.linkFree = true) {cwd : Location}
    {p : Path} {loc : Location} (hloc : t.locate cwd p = .ok loc) :
    loc = p.place (if p.isAbsolute then [] else cwd) := by
  unfold locate at hloc
  split at hloc
  · cases hloc
  · split at hloc
    · cases hloc
    · split at hloc
      · cases hloc
      · split at hloc
        · next loc' hwalk =>
          cases hloc
          exact walkWith_linkFree h hwalk
        · cases hloc

/-! ### Where names lead from a root -/

namespace Path

/-- Where bytes lead that are cut at slashes. -/
def trail (bs : Bytes) : List Step := (fields slash bs).filterMap Step.ofSegment?

theorem trail_append (xs ys : Bytes) : trail (xs ++ slash :: ys) = trail xs ++ trail ys := by
  rw [trail, fields_append, List.filterMap_append]
  rfl

theorem trail_of_valid {n : Name} (h : n.Valid) : trail n = [.down n] := by
  obtain ⟨hnil, hdot, hdots, hslash, -⟩ := h
  rw [trail, fields_of_not_mem hslash]
  simp [Step.ofSegment?, hnil, hdot, hdots]

/-- A closing slash does not change where a path leads. -/
theorem place_eq (p : Path) (start : Location) :
    p.place start = (trail p.bytes).foldl Step.move start := by
  rw [place, steps, List.foldl_append]
  split <;> rfl

theorem trail_join {p : Path} {n : Name} (hp : p.isAbsolute) (hn : n.Valid) :
    trail (p.join ⟨n⟩).bytes = trail p.bytes ++ [.down n] := by
  obtain ⟨u, hu, hp | hp⟩ := join_eq hp hn
  · rw [hu, hp, trail_append, trail_of_valid hn]
  · have hclosed : trail (u ++ [slash]) = trail u := by
      rw [trail_append, show trail [] = [] from rfl, List.append_nil]
    rw [hu, hp, trail_append, trail_of_valid hn, hclosed]

/-- Names lead from a path by one step down for each of them. -/
theorem trail_descend {p : Path} {names : List Name} (hp : p.isAbsolute)
    (hn : ∀ n ∈ names, Name.Valid n) :
    trail (p.descend names).bytes = trail p.bytes ++ names.map .down := by
  induction names generalizing p with
  | nil => simp [descend]
  | cons n names ih =>
    have hvalid := hn n List.mem_cons_self
    have hrest := ih (isAbsolute_join hp hvalid) fun m hm => hn m (List.mem_cons_of_mem _ hm)
    refine hrest.trans ?_
    rw [trail_join hp hvalid, List.append_assoc]
    rfl

theorem foldl_move_down (names : List Name) (loc : Location) :
    (names.map Step.down).foldl Step.move loc = loc ++ names := by
  induction names generalizing loc with
  | nil => simp
  | cons n names ih =>
    rw [List.map_cons, List.foldl_cons, ih, Step.move, List.append_assoc]
    rfl

theorem place_descend {p : Path} {names : List Name} (hp : p.isAbsolute)
    (hn : ∀ n ∈ names, Name.Valid n) (start : Location) :
    (p.descend names).place start = p.place start ++ names := by
  rw [place_eq, place_eq, trail_descend hp hn, List.foldl_append, foldl_move_down]

end Path

/-! ### Files of a scan -/

namespace Settings

variable {s : Settings} {cwd : Location} {t : FileTree}

/-- The walk of a scan is in strictly increasing order. -/
theorem pairwise_walk (s : Settings) (cwd : Location) (t : FileTree) :
    (s.walk cwd t).Pairwise fun x y => Location.before x y := by
  unfold walk
  split
  · exact List.Pairwise.nil
  · next loc _ =>
    split
    · next mode inside hget =>
      split
      · exact Listing.pairwise_walk _ (FileTree.wellFormed_get? hget) _ _
      · exact List.Pairwise.nil
    · exact List.Pairwise.nil

theorem nodup_walk (s : Settings) (cwd : Location) (t : FileTree) : (s.walk cwd t).Nodup := by
  refine (s.pairwise_walk cwd t).imp ?_
  rintro x y h rfl
  rw [Location.before_irrefl] at h
  cases h

/-- No path is found twice. -/
theorem nodup_scan (s : Settings) (cwd : Location) (t : FileTree) : (s.scan cwd t).Nodup := by
  refine List.Pairwise.filter _ (List.pairwise_map.2 ?_)
  refine (s.nodup_walk cwd t).imp_of_mem fun {x y} hx hy hne heq => hne ?_
  obtain ⟨habs, hm⟩ := mem_walk hx
  exact Path.descend_injective habs hm.valid (mem_walk hy).2.valid heq

/-- Without links, names that the walk goes along lead from the root's location. -/
theorem locate_descend (h : t.linkFree = true) {names : List Name} (hn : names ∈ s.walk cwd t)
    {loc : Location} (hloc : t.locate cwd ((s.absoluteRoot cwd).descend names) = .ok loc) :
    loc = (s.absoluteRoot cwd).place [] ++ names := by
  obtain ⟨habs, hm⟩ := mem_walk hn
  have hdescend := (Path.descend_spec habs hm.valid).1
  rw [FileTree.locate_linkFree h hloc, if_pos hdescend, Path.place_descend habs hm.valid]

/-- **Without links, no two paths of a scan lead to one file.** -/
theorem pairwise_apart_scan (h : t.linkFree = true) :
    (s.scan cwd t).Pairwise (t.Apart cwd) := by
  refine List.Pairwise.filter _ (List.pairwise_map.2 ?_)
  refine (s.nodup_walk cwd t).imp_of_mem fun {x y} hx hy hne loc hloc hloc' => ?_
  rw [locate_descend h hx hloc] at hloc'
  exact hne (List.append_cancel_left (locate_descend h hy hloc'))

end Settings

end ImportAlias
