import ImportAlias.Proofs.Components
import ImportAlias.Proofs.Editing

/-!
# What a specifier names

A specifier is read segment by segment from the directory of the file that it stands in:
`..` leaves a directory, a name goes on into one, and empty segments and `.` say nothing.
The alias form of a specifier, without the spelling of the alias, is read the same way from
the source root. It names the same place, unless the specifier climbs out of the root before
it names anything; such a climb stops at the root.

## The model

`Location.follow` is this reading. It goes along whole locations, the root's own names
included, so that a segment after the climb may leave the root like any other directory. What
those segments say plays no part in the argument: both readings come to them in the same
directory.
-/

namespace ImportAlias

/-! ### Bytes of texts -/

namespace Utf8

/-- Of all characters only a slash has the byte of one. -/
theorem eq_slash_of_mem {c : Char} (h : slash ∈ String.utf8EncodeChar c) : c = '/' := by
  have hbyte : ∀ n : Nat, slash = UInt8.ofNat n → n % 256 = 47 := by
    intro n hn
    have hnat := congrArg UInt8.toNat hn
    rw [UInt8.toNat_ofNat'] at hnat
    exact hnat.symm
  have hval : c.val.toNat = 47 := by
    simp only [String.utf8EncodeChar] at h
    repeat' split at h
    all_goals simp only [List.mem_cons, List.not_mem_nil, or_false] at h
    -- a character of one byte is that byte, and the bytes of all others are above 127
    · have := hbyte _ h
      omega
    · rcases h with h | h <;> have := hbyte _ h <;> omega
    · rcases h with h | h | h <;> have := hbyte _ h <;> omega
    · rcases h with h | h | h | h <;> have := hbyte _ h <;> omega
  exact Char.ext (UInt32.toNat_inj.1 hval)

theorem slash_not_mem_encode {t : Text} (h : '/' ∉ t) : slash ∉ encode t := by
  intro hmem
  obtain ⟨c, hc, hbyte⟩ := List.mem_flatMap.1 hmem
  rw [eq_slash_of_mem hbyte] at hc
  exact h hc

end Utf8

/-! ### Following a specifier -/

namespace Location

/-- The location that one segment of a specifier leads to. -/
def visit (loc : Location) (segment : Text) : Location :=
  if segment = [] ∨ segment = ['.'] then loc
  else if segment = ['.', '.'] then loc.dropLast
  else loc ++ [Utf8.encode segment]

/-- The location that a specifier names in a file of the directory `loc`. -/
def follow (loc : Location) (spec : Text) : Location := (fields '/' spec).foldl visit loc

theorem follow_append_slash (loc : Location) (s t : Text) :
    loc.follow (s ++ '/' :: t) = (loc.follow s).follow t := by
  rw [follow, fields_append, List.foldl_append]
  rfl

/-- A climb leaves one directory for each level. -/
theorem follow_climb (loc : Location) (levels : Nat) (rest : Text) :
    loc.follow ((List.replicate levels Specifier.parentStep).flatten ++ rest) =
      follow (loc.take (loc.length - levels)) rest := by
  induction levels generalizing loc with
  | zero => simp
  | succ levels ih =>
    have hstep : loc.follow ['.', '.'] = loc.dropLast := rfl
    calc loc.follow ((List.replicate (levels + 1) Specifier.parentStep).flatten ++ rest)
        = follow loc.dropLast
            ((List.replicate levels Specifier.parentStep).flatten ++ rest) := by
          rw [← hstep, ← follow_append_slash]
          simp [List.replicate_succ, Specifier.parentStep]
      _ = follow (loc.take (loc.length - (levels + 1))) rest := by
          rw [ih, List.length_dropLast, List.dropLast_eq_take, List.take_take]
          congr 2
          omega

end Location

namespace Specifier

open Location (follow)

/-- What the name of a directory may be in a specifier. -/
def IsName (d : Text) : Prop := d ≠ [] ∧ d ≠ ['.'] ∧ d ≠ ['.', '.'] ∧ '/' ∉ d

instance (d : Text) : Decidable (IsName d) := inferInstanceAs (Decidable (_ ∧ _))

theorem IsName.visit {d : Text} (h : IsName d) (loc : Location) :
    Location.visit loc d = loc ++ [Utf8.encode d] := by
  obtain ⟨hnil, hdot, hdots, -⟩ := h
  rw [Location.visit, if_neg (not_or.2 ⟨hnil, hdot⟩), if_neg hdots]

/-- Names lead on into directories. -/
theorem follow_names {dirs : List Text} (hne : dirs ≠ []) (h : ∀ d ∈ dirs, IsName d)
    (loc : Location) : loc.follow (List.intercalate ['/'] dirs) = loc ++ dirs.map Utf8.encode := by
  rw [follow, fields_intercalate hne fun d hd => (h d hd).2.2.2]
  clear hne
  induction dirs generalizing loc with
  | nil => simp
  | cons d dirs ih =>
    rw [List.foldl_cons, (h d List.mem_cons_self).visit,
      ih fun e he => h e (List.mem_cons_of_mem _ he)]
    simp

/-- The directories that a climb leaves lead on into them. -/
theorem follow_stem {dirs : List Text} (h : ∀ d ∈ dirs, IsName d) (root : Location)
    (levels : Nat) (rest : Text) :
    root.follow (stem dirs levels ++ rest) =
      follow (root ++ (dirs.take (dirs.length - levels)).map Utf8.encode) rest := by
  unfold stem
  by_cases hlevels : dirs.length ≤ levels
  · simp [hlevels, Nat.sub_eq_zero_of_le hlevels]
  · have hleft : ∀ d ∈ dirs.take (dirs.length - levels), IsName d :=
      fun d hd => h d (List.mem_of_mem_take hd)
    have hne : dirs.take (dirs.length - levels) ≠ [] := by
      rw [Ne, List.take_eq_nil_iff]
      rintro (hzero | rfl)
      · omega
      · exact hlevels (Nat.zero_le levels)
    rw [if_neg hlevels, List.append_assoc, List.singleton_append, Location.follow_append_slash,
      follow_names hne hleft]

theorem climb_replicate (levels : Nat) {rest : Text} (h : after? parentStep rest = none) :
    climb ((List.replicate levels parentStep).flatten ++ rest) = (levels, rest) := by
  induction levels with
  | zero => exact climb_of_not_parentStep h
  | succ levels ih =>
    rw [List.replicate_succ, List.flatten_cons, List.append_assoc, climb_parentStep, ih]

/-- A climb that stays below the root and what follows it lead to the same location as the
directories that it leaves. -/
theorem follow_stem_eq {dirs : List Text} (h : ∀ d ∈ dirs, IsName d) (root : Location)
    {levels : Nat} (hlevels : levels ≤ dirs.length) (rest : Text) :
    root.follow (stem dirs levels ++ rest) =
      (root ++ dirs.map Utf8.encode).follow
        ((List.replicate levels parentStep).flatten ++ rest) := by
  have hlength : (root ++ dirs.map Utf8.encode).length - levels =
      root.length + (dirs.length - levels) := by
    rw [List.length_append, List.length_map]
    omega
  rw [follow_stem h, Location.follow_climb, hlength, List.take_length_add_append, List.map_take]

end Specifier

/-! ### The path of a file -/

namespace Specifier

theorem IsName.isTrivial_encode {d : Text} (h : IsName d) : isTrivial (Utf8.encode d) = false := by
  obtain ⟨hnil, hdot, -⟩ := h
  simp only [isTrivial, Bool.or_eq_false_iff, decide_eq_false_iff_not]
  exact ⟨fun e => hnil (Utf8.encode_injective e), fun e => hdot (Utf8.encode_injective e)⟩

theorem IsName.ofSegment?_encode {d : Text} (h : IsName d) :
    Component.ofSegment? (Utf8.encode d) = some (.normal (Utf8.encode d)) := by
  have hdots : Utf8.encode d ≠ [dot, dot] := fun e => h.2.2.1 (Utf8.encode_injective e)
  rw [Component.ofSegment?, h.isTrivial_encode, if_neg Bool.false_ne_true, if_neg hdots]

theorem filterMap_ofSegment?_encode {dirs : List Text} (h : ∀ d ∈ dirs, IsName d) :
    (dirs.map Utf8.encode).filterMap Component.ofSegment? =
      (dirs.map Utf8.encode).map .normal := by
  induction dirs with
  | nil => rfl
  | cons d dirs ih =>
    rw [List.map_cons, List.filterMap_cons_some (h d List.mem_cons_self).ofSegment?_encode,
      ih fun e he => h e (List.mem_cons_of_mem _ he), List.map_cons]

end Specifier

/-- The path of a file in some directories has these directories. -/
theorem Path.directories_intercalate {dirs : List Text} (hdirs : ∀ d ∈ dirs, Specifier.IsName d)
    {file : Name} (hfile : isTrivial file = false) (hslash : slash ∉ file) :
    directories ⟨List.intercalate [slash] (dirs.map Utf8.encode ++ [file])⟩ = dirs := by
  obtain ⟨last, hlast⟩ := Option.isSome_iff_exists.1 (Component.isSome_ofSegment? hfile)
  have hslashes : ∀ s ∈ dirs.map Utf8.encode ++ [file], slash ∉ s := by
    intro s hs
    rcases List.mem_append.1 hs with hs | hs
    · obtain ⟨d, hd, rfl⟩ := List.mem_map.1 hs
      exact Utf8.slash_not_mem_encode (hdirs d hd).2.2.2
    · rwa [List.mem_singleton.1 hs]
  have hhead : ∀ s ∈ (dirs.map Utf8.encode ++ [file]).head?, isTrivial s = false := by
    intro s hs
    cases dirs with
    | nil =>
      cases hs
      exact hfile
    | cons d dirs =>
      cases hs
      exact (hdirs d List.mem_cons_self).isTrivial_encode
  have hcomponents : components ⟨List.intercalate [slash] (dirs.map Utf8.encode ++ [file])⟩ =
      (dirs.map Utf8.encode).map .normal ++ [last] := by
    refine (components_spell (o := .bare) hslashes fun _ => hhead).trans ?_
    rw [List.filterMap_append, Specifier.filterMap_ofSegment?_encode hdirs,
      List.filterMap_cons_some hlast]
    rfl
  have hdecoded : (dirs.map Utf8.encode).map Utf8.decodeLossy = dirs := by
    rw [List.map_map]
    exact List.map_id'' Utf8.decodeLossy_encode dirs
  rw [directories, hcomponents, List.dropLast_concat, Component.filterMap_name?_map_normal, hdecoded]

/-! ### The place of a module -/

namespace Specifier

/-- **An alias form names the same place.** A specifier that climbs some levels and then goes
on in any way stands in a file of some directories below a root. Its alias form is the spelling
of the alias and a text that does not depend on the spelling. If the climb does not leave the
root, that text names from the root what the specifier names from the directory of the file. If
it does, it stops at the root, as the climb of just so many levels would. -/
theorem resolve_follow (root : Location) (dirs : List Text) (file : Name) (levels : Nat)
    (rest : Text) (hdirs : ∀ d ∈ dirs, IsName d)
    (hfile : file ≠ [] ∧ file ≠ [dot] ∧ slash ∉ file) (hrest : after? parentStep rest = none) :
    let p : Path := ⟨List.intercalate [slash] (dirs.map Utf8.encode ++ [file])⟩
    let spec := fun levels => (List.replicate levels parentStep).flatten ++ rest
    ∃ t, (∀ spelling, resolve p.directories spelling (spec levels) = spelling ++ t) ∧
      (levels ≤ dirs.length →
        root.follow t = (root ++ dirs.map Utf8.encode).follow (spec levels)) ∧
      (dirs.length < levels → t = rest ∧ ∀ spelling,
        resolve p.directories spelling (spec levels) =
          resolve p.directories spelling (spec dirs.length)) := by
  intro p spec
  have hdirectories : p.directories = dirs := by
    refine Path.directories_intercalate hdirs ?_ hfile.2.2
    simp [isTrivial, hfile.1, hfile.2.1]
  have hresolve : ∀ levels spelling,
      resolve p.directories spelling (spec levels) = spelling ++ (stem dirs levels ++ rest) := by
    intro levels spelling
    rw [hdirectories, resolve_eq, climb_replicate levels hrest, List.append_assoc]
  refine ⟨stem dirs levels ++ rest, hresolve levels, fun hlevels => ?_, fun hlevels => ?_⟩
  · exact follow_stem_eq hdirs root hlevels rest
  · have hstem : ∀ n, dirs.length ≤ n → stem dirs n = [] := fun n hn => if_pos hn
    rw [hstem levels (Nat.le_of_lt hlevels)]
    refine ⟨rfl, fun spelling => ?_⟩
    rw [hresolve, hresolve, hstem levels (Nat.le_of_lt hlevels), hstem dirs.length (Nat.le_refl _)]

/-- In a file two directories below `/home/src`, a specifier that climbs one level and ends with
another `..` names `/home/src`, and so does its alias form. -/
theorem resolve_follow_dots :
    let place := fun names : List String => names.map fun n => Utf8.encode n.toList
    let p := Path.ofText "a/b/f.ts".toList
    (∀ d ∈ [['a'], ['b']], IsName d) ∧ after? parentStep "..".toList = none ∧
      ∃ t, (∀ spelling, resolve p.directories spelling "../..".toList = spelling ++ t) ∧
        Location.follow (place ["home", "src"]) t = place ["home", "src"] := by
  intro place p
  have hdirs : ∀ d ∈ [['a'], ['b']], IsName d := by decide
  obtain ⟨t, hresolve, hplace, -⟩ := resolve_follow (place ["home", "src"]) [['a'], ['b']]
    (Utf8.encode "f.ts".toList) 1 "..".toList hdirs (by decide) (by decide)
  refine ⟨hdirs, by decide, t, hresolve, (hplace (by decide)).trans ?_⟩
  decide

end Specifier

end ImportAlias
