import ImportAlias.Scan.Walk

/-!
# What a walk meets

The names that a walk gives lead through directories below its start, may be names, and
come in strictly increasing order: compared name by name, the first difference decides.
-/

namespace ImportAlias

/-- Whether a location comes before another one: the first name that differs decides, and
a location comes before all that lie below it. -/
def Location.before : Location → Location → Bool
  | [], [] => false
  | [], _ :: _ => true
  | _ :: _, [] => false
  | m :: ms, n :: ns => m.before n || (m = n && Location.before ms ns)

namespace Location

theorem before_irrefl (loc : Location) : before loc loc = false := by
  induction loc with
  | nil => rfl
  | cons n loc ih => simp [before, Name.before_irrefl, ih]

theorem before_cons_of_before {m n : Name} (h : m.before n) (ms ns : Location) :
    before (m :: ms) (n :: ns) := by
  rw [before, h, Bool.true_or]

theorem before_append_left (loc : Location) {ms ns : Location} (h : before ms ns) :
    before (loc ++ ms) (loc ++ ns) := by
  induction loc with
  | nil => exact h
  | cons n loc ih => simp [before, ih]

end Location

namespace Listing

/-- The names of the directories below a listing. -/
def directoryNames : Listing → List Name
  | .done => []
  | .leaf _ _ rest => rest.directoryNames
  | .dir n _ inside rest => n :: (inside.directoryNames ++ rest.directoryNames)

/-- What is known of the names that a walk gives for an entry: the entry's own name may be
one and the names before it are of directories. -/
structure Met (l : Listing) (tail : List Name) : Prop where
  /-- They lead somewhere. -/
  nonempty : tail ≠ []
  /-- They may be names. -/
  valid : ∀ n ∈ tail, Name.Valid n
  /-- All but the last one are names of directories. -/
  directories : ∀ n ∈ tail.dropLast, n ∈ l.directoryNames
  /-- No name of the listing itself comes before the first one. -/
  above : ∀ k, l.Above k → ∀ n ∈ tail.head?, k.before n

theorem Met.leaf {n : Name} (hn : n.Valid) (what : Leaf) (rest : Listing) :
    (leaf n what rest).Met [n] where
  nonempty := List.cons_ne_nil _ _
  valid m hm := by rwa [List.mem_singleton.1 hm]
  directories m hm := by cases hm
  above k hk m hm := by
    cases hm
    exact hk.1

theorem Met.inside {n : Name} {mode : Mode} {inside rest : Listing} {tail : List Name}
    (hn : n.Valid) (h : inside.Met tail) : (dir n mode inside rest).Met (n :: tail) where
  nonempty := List.cons_ne_nil _ _
  valid m hm := by
    rcases List.mem_cons.1 hm with rfl | hm
    · exact hn
    · exact h.valid m hm
  directories m hm := by
    rw [List.dropLast_cons_of_ne_nil h.nonempty] at hm
    rcases List.mem_cons.1 hm with rfl | hm
    · exact List.mem_cons_self
    · exact List.mem_cons_of_mem _ (List.mem_append_left _ (h.directories m hm))
  above k hk m hm := by
    cases hm
    exact hk.1

theorem Met.of_rest {l rest : Listing} {tail : List Name} (h : rest.Met tail)
    (hsub : ∀ n ∈ rest.directoryNames, n ∈ l.directoryNames)
    (habove : ∀ k, l.Above k → rest.Above k) : l.Met tail where
  nonempty := h.nonempty
  valid := h.valid
  directories n hn := hsub n (h.directories n hn)
  above k hk := h.above k (habove k hk)

/-- What a walk gives is met below the directory where it starts. -/
theorem met_of_mem_walk {skip : List Name → Bool → Bool} {l : Listing} (hl : l.WellFormed)
    {enter : Bool} {here names : List Name} (h : names ∈ l.walk skip enter here) :
    ∃ tail, names = here ++ tail ∧ l.Met tail := by
  induction l generalizing enter here with
  | done => cases h
  | leaf n what rest ih =>
    rw [walk] at h
    rcases List.mem_append.1 h with h | h
    · split at h
      · cases h
      · exact ⟨[n], List.mem_singleton.1 h, .leaf hl.1 what rest⟩
    · obtain ⟨tail, rfl, hm⟩ := ih hl.2.2 h
      exact ⟨tail, rfl, hm.of_rest (fun _ hn => hn) fun _ hk => hk.2⟩
  | dir n mode inside rest ih₁ ih₂ =>
    rw [walk] at h
    rcases List.mem_append.1 h with h | h
    · split at h
      · cases h
      · obtain ⟨tail, rfl, hm⟩ := ih₁ hl.2.1 h
        exact ⟨n :: tail, by simp, hm.inside hl.1⟩
    · obtain ⟨tail, rfl, hm⟩ := ih₂ hl.2.2.2 h
      refine ⟨tail, rfl, hm.of_rest (fun k hk => ?_) fun _ hk => hk.2⟩
      exact List.mem_cons_of_mem _ (List.mem_append_right _ hk)

/-- Everything below an entry comes before everything that a walk gives for the rest. -/
theorem before_of_mem_walk {skip : List Name → Bool → Bool} {rest : Listing} {n : Name}
    (habove : rest.Above n) (hrest : rest.WellFormed) {enter : Bool} {here names : List Name}
    (h : names ∈ rest.walk skip enter here) (tail : List Name) :
    Location.before (here ++ n :: tail) names := by
  obtain ⟨tail', rfl, hm⟩ := met_of_mem_walk hrest h
  obtain ⟨k, ks, rfl⟩ := List.exists_cons_of_ne_nil hm.nonempty
  exact Location.before_append_left _
    (Location.before_cons_of_before (hm.above n habove k rfl) tail ks)

/-- **A walk is in strictly increasing order.** -/
theorem pairwise_walk (skip : List Name → Bool → Bool) {l : Listing} (hl : l.WellFormed)
    (enter : Bool) (here : List Name) :
    (l.walk skip enter here).Pairwise fun x y => Location.before x y := by
  induction l generalizing enter here with
  | done => exact List.Pairwise.nil
  | leaf n what rest ih =>
    rw [walk, List.pairwise_append]
    refine ⟨?_, ih hl.2.2 enter here, fun x hx y hy => ?_⟩
    · split
      · exact List.Pairwise.nil
      · exact List.pairwise_singleton _ _
    · split at hx
      · cases hx
      · rw [List.mem_singleton.1 hx]
        exact before_of_mem_walk hl.2.1 hl.2.2 hy []
  | dir n mode inside rest ih₁ ih₂ =>
    rw [walk, List.pairwise_append]
    refine ⟨?_, ih₂ hl.2.2.2 enter here, fun x hx y hy => ?_⟩
    · split
      · exact List.Pairwise.nil
      · exact ih₁ hl.2.1 mode.enter (here ++ [n])
    · split at hx
      · cases hx
      · obtain ⟨tail, rfl, -⟩ := met_of_mem_walk hl.2.1 hx
        rw [List.append_assoc]
        exact before_of_mem_walk hl.2.2.1 hl.2.2.2 hy tail

end Listing

end ImportAlias
