import ImportAlias.Proofs.AddedOption

/-!
# Requests for help

A command line that asks for help or the version while options are read never chooses a run,
whatever stands before and after the request: either something before it is not accepted, or the
reading ends with it.

## The model

Options are read until an argument of two dashes. That no other argument ends them is proved of
each step of the reading and then, by induction, of a whole list of arguments.
-/

namespace ImportAlias.Command

namespace Reading

/-- The argument after which there are no options. -/
def terminator : Bytes := [dash, dash]

/-- Whether an argument asks for help or the version, where options are expected. -/
def IsRequest (arg : Bytes) : Prop :=
  arg = Utf8.encode "--help".toList ∨ arg = Utf8.encode "--version".toList ∨
    Utf8.encode "-h".toList <+: arg ∨ Utf8.encode "-V".toList <+: arg

/-! ### What ends the options -/

variable {r r' : Reading}

theorem ended_of_accept {v : Valued} {bs : Bytes} (h : r.accept v bs = .ok r') :
    r'.ended = r.ended := by
  unfold accept at h
  split at h
  · cases h
    rfl
  · cases h

theorem ended_of_settle (h : r.settle = .ok r') : r'.ended = r.ended := by
  unfold settle at h
  split at h
  · cases h
    rfl
  · cases h
  · exact ended_of_accept h

theorem ended_of_takeSwitch {s : Switch} (h : r.takeSwitch s = .ok r') : r'.ended = r.ended := by
  obtain ⟨m, hsettle, h⟩ := exists_of_bind_eq_ok h
  rw [← ended_of_settle hsettle]
  repeat' split at h
  all_goals cases h
  all_goals rfl

theorem ended_of_takeValued {v : Valued} {attached : Option Bytes}
    (h : r.takeValued v attached = .ok r') : r'.ended = r.ended := by
  obtain ⟨m, hsettle, h⟩ := exists_of_bind_eq_ok h
  rw [← ended_of_settle hsettle]
  split at h
  · exact ended_of_accept h
  · cases h
    rfl

theorem ended_of_takeLong {bs : Bytes} (h : r.takeLong bs = .ok r') : r'.ended = r.ended := by
  unfold takeLong at h
  dsimp only at h
  split at h
  · cases h
  · exact ended_of_takeValued h
  · split at h
    · exact ended_of_takeSwitch h
    · cases h

theorem ended_of_takeShort {bs : Bytes} (h : r.takeShort bs = .ok r') : r'.ended = r.ended := by
  unfold takeShort at h
  split at h
  · cases h
  · split at h
    · cases h
    · exact ended_of_takeValued h
    · exact ended_of_takeSwitch h

theorem ended_of_takeRoot {bs : Bytes} (h : r.takeRoot bs = .ok r') : r'.ended = r.ended := by
  unfold takeRoot at h
  split at h
  · cases h
  · obtain ⟨m, hsettle, h⟩ := exists_of_bind_eq_ok h
    rw [← ended_of_settle hsettle]
    cases h
    rfl

theorem eq_terminator_of_shape {arg : Bytes} (h : Shape.of arg = .terminator) :
    arg = terminator := by
  unfold Shape.of at h
  repeat' split at h
  all_goals cases h
  simp_all [terminator]

/-- Only two dashes end the options. -/
theorem ended_of_take {arg : Bytes} (h : r.take arg = .ok r') (harg : arg ≠ terminator) :
    r'.ended = r.ended := by
  unfold take at h
  split at h
  · exact ended_of_takeRoot h
  · split at h
    · next hshape => exact absurd (eq_terminator_of_shape hshape) harg
    · exact ended_of_takeLong h
    · exact ended_of_takeShort h
    · split at h
      · cases h
        rfl
      · exact ended_of_takeRoot h

/-- Options go on over arguments that are not two dashes. -/
theorem ended_of_foldlM_take {args : List Bytes} (h : args.foldlM take r = .ok r')
    (hargs : terminator ∉ args) : r'.ended = r.ended := by
  induction args generalizing r with
  | nil =>
    cases h
    rfl
  | cons arg args ih =>
    rw [List.foldlM_cons] at h
    obtain ⟨m, htake, h⟩ := exists_of_bind_eq_ok h
    rw [List.mem_cons, not_or] at hargs
    rw [ih h hargs.2, ended_of_take htake (Ne.symm hargs.1)]

/-! ### What ends the reading -/

theorem takeSwitch_help (r : Reading) (long : Bool) :
    ∃ stop, r.takeSwitch (.help long) = .error stop := by
  unfold takeSwitch
  cases r.settle <;> exact ⟨_, rfl⟩

theorem takeSwitch_version (r : Reading) : ∃ stop, r.takeSwitch .version = .error stop := by
  unfold takeSwitch
  cases r.settle <;> exact ⟨_, rfl⟩

/-- One byte is enough to know a short option. -/
theorem take_short (ch : Char) {b : UInt8} {s : Switch} (hb : Utf8.decode? [b] = some [ch])
    (hs : Flag.ofShort? ch = some (.switch s)) (hdash : b ≠ dash) (hended : r.ended = false)
    (bs : Bytes) : r.take (dash :: b :: bs) = r.takeSwitch s := by
  have hfirst : firstChar? (b :: bs) = some ch := by
    simp [firstChar?, hb]
  simp only [take, hended, Shape.of, hdash, takeShort, hfirst, hs, Bool.false_eq_true, if_true,
    if_false]

/-- An argument that asks for help or the version ends the reading, if it comes to it. -/
theorem take_of_isRequest {arg : Bytes} (hended : r.ended = false) (h : IsRequest arg) :
    ∃ stop, r.take arg = .error stop := by
  obtain rfl | rfl | ⟨rest, rfl⟩ | ⟨rest, rfl⟩ := h
  · rw [take, hended]
    exact r.takeSwitch_help true
  · rw [take, hended]
    exact r.takeSwitch_version
  · have htake : r.take (Utf8.encode "-h".toList ++ rest) = r.takeSwitch (.help false) :=
      take_short 'h' (by decide) rfl (by decide) hended rest
    rw [htake]
    exact r.takeSwitch_help false
  · have htake : r.take (Utf8.encode "-V".toList ++ rest) = r.takeSwitch .version :=
      take_short 'V' (by decide) rfl (by decide) hended rest
    rw [htake]
    exact r.takeSwitch_version

end Reading

/-- A command line with such an argument among its options chooses nothing. -/
theorem Choices.ofArguments_of_isRequest {before after : List Bytes} {arg : Bytes}
    (hbefore : Reading.terminator ∉ before) (harg : Reading.IsRequest arg) :
    ∃ stop, ofArguments (before ++ arg :: after) = .error stop := by
  unfold ofArguments
  rw [List.foldlM_append]
  cases hread : before.foldlM Reading.take .start with
  | error stop => exact ⟨stop, rfl⟩
  | ok r =>
    -- the reading has come to the request with its options still open
    obtain ⟨stop, hstop⟩ :=
      Reading.take_of_isRequest (Reading.ended_of_foldlM_take hread hbefore) harg
    refine ⟨stop, ?_⟩
    show ((arg :: after).foldlM Reading.take r >>= _) = _
    rw [List.foldlM_cons, hstop]
    rfl

end ImportAlias.Command
