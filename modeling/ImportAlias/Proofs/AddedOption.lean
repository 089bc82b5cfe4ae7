import ImportAlias.Command.Arguments

/-!
# An option in front

What a command line chooses when one more option is put in front of it. If the command line
leaves this option alone then it is accepted as before and makes all its other choices.

## The model

An option in front changes the choices that the reading starts from. `Carried` says of a step
of the reading that such a change can be made before the step as well as after it, if the
step's result still has the option free. It is proved of each step and then, by induction, of
a whole command line.
-/

namespace ImportAlias.Command

theorem exists_of_bind_eq_ok {ε α β : Type} {x : Except ε α} {f : α → Except ε β} {b : β}
    (h : x >>= f = .ok b) : ∃ a, x = .ok a ∧ f a = .ok b := by
  cases x with
  | error e => cases h
  | ok a => exact ⟨a, rfl, h⟩

namespace Reading

/-- The reading with other choices. -/
def change (f : Choices → Choices) (r : Reading) : Reading := { r with choices := f r.choices }

/-- What is done for an option without a value when nothing is pending. -/
def switched (s : Switch) (r : Reading) : Except Stop Reading :=
  match s with
  | .help long => .error (.help long)
  | .version => .error .version
  | .json =>
    if r.choices.json then .error (.usage (.repeated s.label))
    else .ok { r with choices := { r.choices with json := true } }
  | .ignoreFiles =>
    if r.choices.ignoreFiles then .error (.usage (.repeated s.label))
    else .ok { r with choices := { r.choices with ignoreFiles := true } }

/-- A step before which choices can be changed as well as after it. -/
def Carried (f : Choices → Choices) (Free : Choices → Prop) (step : Reading → Except Stop Reading) :
    Prop :=
  ∀ r r', step r = .ok r' → Free r'.choices →
    Free r.choices ∧ step (r.change f) = .ok (r'.change f)

end Reading

/-- A change of choices that no value and no switch depends on, and that none of them undoes
while it leaves the choices free. -/
structure Addable (f : Choices → Choices) (Free : Choices → Prop) : Prop where
  /-- Values are accepted as before. -/
  accept : ∀ {c c' : Choices} {v : Valued} {bs : Bytes}, c.accept v bs = .ok c' → Free c' →
    Free c ∧ (f c).accept v bs = .ok (f c')
  /-- Switches are accepted as before. -/
  switched : ∀ s, Reading.Carried f Free (Reading.switched s)

namespace Reading.Carried

variable {f : Choices → Choices} {Free : Choices → Prop} {step next : Reading → Except Stop Reading}

theorem bind (h : Carried f Free step) (hnext : Carried f Free next) :
    Carried f Free fun r => step r >>= next := by
  intro r r' heq hfree
  obtain ⟨m, hm, heq⟩ := exists_of_bind_eq_ok heq
  obtain ⟨hfree, hthen⟩ := hnext m r' heq hfree
  obtain ⟨hfree, hfirst⟩ := h r m hm hfree
  refine ⟨hfree, ?_⟩
  show step (r.change f) >>= next = _
  rw [hfirst]
  exact hthen

theorem ite {b : Reading → Bool} (hb : ∀ r, b (r.change f) = b r) (hstep : Carried f Free step)
    (hnext : Carried f Free next) : Carried f Free fun r => if b r then step r else next r := by
  intro r r' heq hfree
  dsimp only at heq ⊢
  rw [hb]
  by_cases h : b r = true
  · rw [if_pos h] at heq ⊢
    exact hstep r r' heq hfree
  · rw [if_neg h] at heq ⊢
    exact hnext r r' heq hfree

theorem error (e : Stop) : Carried f Free fun _ => .error e := by
  intro r r' heq
  cases heq

theorem accept (h : Addable f Free) (v : Valued) (bs : Bytes) :
    Carried f Free fun r => r.accept v bs := by
  intro r r' heq hfree
  simp only [Reading.accept] at heq ⊢
  split at heq
  · next c hc =>
    cases heq
    obtain ⟨hfree, hchanged⟩ := h.accept hc hfree
    refine ⟨hfree, ?_⟩
    dsimp only [change]
    rw [hchanged]
  · cases heq

theorem settle (h : Addable f Free) : Carried f Free Reading.settle := by
  intro r r' heq hfree
  unfold Reading.settle at heq ⊢
  dsimp only [change]
  split at heq
  · cases heq
    exact ⟨hfree, rfl⟩
  · cases heq
  · next v bs _ => exact accept h v bs r r' heq hfree

theorem takeSwitch (h : Addable f Free) (s : Switch) :
    Carried f Free fun r => r.takeSwitch s :=
  (settle h).bind (h.switched s)

theorem takeValued (h : Addable f Free) (v : Valued) (attached : Option Bytes) :
    Carried f Free fun r => r.takeValued v attached := by
  cases attached with
  | some bs => exact (settle h).bind (accept h v bs)
  | none =>
    show Carried f Free fun r => r.settle >>= fun r => .ok { r with pending := some (v, none) }
    refine (settle h).bind fun r r' heq hfree => ?_
    cases heq
    exact ⟨hfree, rfl⟩

theorem takeLong (h : Addable f Free) (bs : Bytes) : Carried f Free fun r => r.takeLong bs := by
  simp only [Reading.takeLong]
  cases (Utf8.decode? (bs.takeWhile (· ≠ equals))).bind Flag.ofLong? with
  | none => exact error _
  | some flag =>
    cases flag with
    | valued v => exact takeValued h v _
    | switch s =>
      dsimp only
      cases bs.dropWhile (· ≠ equals) with
      | nil => exact takeSwitch h s
      | cons b rest => exact error _

theorem takeShort (h : Addable f Free) (bs : Bytes) : Carried f Free fun r => r.takeShort bs := by
  simp only [Reading.takeShort]
  cases firstChar? bs with
  | none => exact error _
  | some c =>
    dsimp only
    cases Flag.ofShort? c with
    | none => exact error _
    | some flag =>
      cases flag with
      | valued v => exact takeValued h v _
      | switch s => exact takeSwitch h s

theorem takeRoot (h : Addable f Free) (bs : Bytes) : Carried f Free fun r => r.takeRoot bs := by
  have hstep : Carried f Free fun r => r.settle >>= fun r =>
      .ok { r with pending := some (.root, some bs), rootGiven := true } := by
    refine (settle h).bind fun r r' heq hfree => ?_
    cases heq
    exact ⟨hfree, rfl⟩
  exact ite (fun _ => rfl) (error _) hstep

/-- Reading one argument carries the change. -/
theorem take (h : Addable f Free) (arg : Bytes) : Carried f Free fun r => r.take arg := by
  refine ite (fun _ => rfl) (takeRoot h arg) ?_
  cases Shape.of arg with
  | terminator =>
    intro r r' heq hfree
    cases heq
    exact ⟨hfree, rfl⟩
  | long rest => exact takeLong h rest
  | short rest => exact takeShort h rest
  | value =>
    intro r r' heq hfree
    dsimp only [change] at heq ⊢
    split at heq
    · cases heq
      exact ⟨hfree, rfl⟩
    · exact takeRoot h arg r r' heq hfree

/-- Reading arguments carries the change. -/
theorem foldlM (h : Addable f Free) (args : List Bytes) :
    Carried f Free (args.foldlM Reading.take) := by
  induction args with
  | nil =>
    intro r r' heq hfree
    cases heq
    exact ⟨hfree, rfl⟩
  | cons arg args ih =>
    simp only [List.foldlM_cons]
    exact (take h arg).bind ih

end Reading.Carried

/-- The choices of a command line with an option in front. -/
theorem Choices.ofArguments_cons {f : Choices → Choices} {Free : Choices → Prop}
    (h : Addable f Free) {option : Bytes}
    (hoption : Reading.start.take option = .ok (Reading.start.change f)) {args : List Bytes}
    {c : Choices} (hargs : ofArguments args = .ok c) (hfree : Free c) :
    ofArguments (option :: args) = .ok (f c) := by
  obtain ⟨r, hr, hargs⟩ := exists_of_bind_eq_ok hargs
  obtain ⟨r', hr', hargs⟩ := exists_of_bind_eq_ok hargs
  cases hargs
  obtain ⟨hfree, hsettle⟩ := Reading.Carried.settle h r r' hr' hfree
  have hfold : args.foldlM Reading.take (Reading.start.change f) = .ok (r.change f) :=
    (Reading.Carried.foldlM h args _ r hr hfree).2
  rw [ofArguments, List.foldlM_cons, hoption]
  show args.foldlM Reading.take (Reading.start.change f) >>= _ = _
  rw [hfold]
  show (r.change f).settle >>= _ = _
  rw [hsettle]
  rfl

/-! ### Single options -/

/-- What a value can do to the choices. -/
theorem Choices.accept_eq_ok_iff {c c' : Choices} {v : Valued} {bs : Bytes} :
    c.accept v bs = .ok c' ↔
      match v with
      | .root => bs ≠ [] ∧ c' = { c with root := some bs }
      | .spelling => c.spelling = none ∧
          ∃ t, valueText bs = .ok t ∧ c' = { c with spelling := some t }
      | .extensions =>
          ∃ ts, (fields comma bs).mapM valueText = .ok ts ∧
            c' = { c with extensions := c.extensions ++ ts }
      | .pattern => ∃ t, valueText bs = .ok t ∧ c' = { c with patterns := c.patterns ++ [t] }
      | .color => c.color = none ∧ bs ≠ [] ∧
          ∃ mode, (Utf8.decode? bs).bind ColorMode.ofText? = some mode ∧
            c' = { c with color := some mode } := by
  cases v with
  | root => by_cases h : bs = [] <;> simp [accept, h, eq_comm]
  | spelling =>
    cases h : c.spelling <;> cases hv : valueText bs <;>
      simp [accept, h, hv, Except.map, eq_comm]
  | extensions =>
    cases hv : (fields comma bs).mapM valueText <;> simp [accept, hv, Except.map, eq_comm]
  | pattern => cases hv : valueText bs <;> simp [accept, hv, Except.map, eq_comm]
  | color =>
    cases h : c.color <;> by_cases hbs : bs = [] <;>
      cases hv : (Utf8.decode? bs).bind ColorMode.ofText? <;> simp [accept, h, hbs, hv, eq_comm]

/-- The option that asks for a document. -/
def jsonOption : Bytes := Utf8.encode "--json".toList

theorem addable_json : Addable (fun c => { c with json := true }) (fun c => c.json = false) where
  accept := by
    intro c c' v bs heq hfree
    rw [Choices.accept_eq_ok_iff] at heq ⊢
    cases v with
    | root => obtain ⟨hbs, rfl⟩ := heq; exact ⟨hfree, hbs, rfl⟩
    | spelling => obtain ⟨hnone, t, ht, rfl⟩ := heq; exact ⟨hfree, hnone, t, ht, rfl⟩
    | extensions => obtain ⟨ts, hts, rfl⟩ := heq; exact ⟨hfree, ts, hts, rfl⟩
    | pattern => obtain ⟨t, ht, rfl⟩ := heq; exact ⟨hfree, t, ht, rfl⟩
    | color =>
      obtain ⟨hnone, hbs, mode, hmode, rfl⟩ := heq
      exact ⟨hfree, hnone, hbs, mode, hmode, rfl⟩
  switched := by
    intro s r r' heq hfree
    cases s with
    | json =>
      simp only [Reading.switched] at heq
      split at heq <;> cases heq
      cases hfree
    | ignoreFiles =>
      simp only [Reading.switched] at heq ⊢
      split at heq <;> cases heq
      next hnone => exact ⟨hfree, if_neg hnone⟩
    | help long => cases heq
    | version => cases heq

/-- A command line that does not ask for a document can be made to, and chooses the same. -/
theorem Choices.ofArguments_cons_json {args : List Bytes} {c : Choices}
    (hargs : ofArguments args = .ok c) (hjson : c.json = false) :
    ofArguments (jsonOption :: args) = .ok { c with json := true } :=
  ofArguments_cons addable_json rfl hargs hjson

/-- The word for a mode. -/
def ColorMode.word : ColorMode → Text
  | .auto => "auto".toList
  | .always => "always".toList
  | .never => "never".toList

/-- The option that says when output is colored. -/
def colorOption (mode : ColorMode) : Bytes := Utf8.encode ("--color=".toList ++ mode.word)

theorem addable_color (mode : ColorMode) :
    Addable (fun c => { c with color := some mode }) (fun c => c.color = none) where
  accept := by
    intro c c' v bs heq hfree
    rw [Choices.accept_eq_ok_iff] at heq ⊢
    cases v with
    | root => obtain ⟨hbs, rfl⟩ := heq; exact ⟨hfree, hbs, rfl⟩
    | spelling => obtain ⟨hnone, t, ht, rfl⟩ := heq; exact ⟨hfree, hnone, t, ht, rfl⟩
    | extensions => obtain ⟨ts, hts, rfl⟩ := heq; exact ⟨hfree, ts, hts, rfl⟩
    | pattern => obtain ⟨t, ht, rfl⟩ := heq; exact ⟨hfree, t, ht, rfl⟩
    | color => obtain ⟨-, -, mode', -, rfl⟩ := heq; cases hfree
  switched := by
    intro s r r' heq hfree
    cases s with
    | json =>
      simp only [Reading.switched] at heq ⊢
      split at heq <;> cases heq
      next hnone => exact ⟨hfree, if_neg hnone⟩
    | ignoreFiles =>
      simp only [Reading.switched] at heq ⊢
      split at heq <;> cases heq
      next hnone => exact ⟨hfree, if_neg hnone⟩
    | help long => cases heq
    | version => cases heq

/-- A command line that does not say when output is colored can be made to, and chooses the
same. -/
theorem Choices.ofArguments_cons_color {args : List Bytes} {c : Choices}
    (hargs : ofArguments args = .ok c) (hcolor : c.color = none) (mode : ColorMode) :
    ofArguments (colorOption mode :: args) = .ok { c with color := some mode } :=
  ofArguments_cons (addable_color mode) (by cases mode <;> rfl) hargs hcolor

end ImportAlias.Command
