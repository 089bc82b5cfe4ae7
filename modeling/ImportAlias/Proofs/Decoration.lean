import ImportAlias.Console.Printable
import ImportAlias.Proofs.Lines

/-!
# Color is decoration

What a run says in color is what it says without, with control sequences around some words. A
terminal that takes the sequences out is left with the plain text. After each message it is back
where it was at the start, with no attribute active, and so it is wherever a path or the cause of
a failure is printed.

## The model

A `Terminal` reads one character after the other. What it shows is a list of characters, each
with the attributes that are active there. It follows control sequences of every kind through
their stages, and those that end with `m` set attributes. The attributes are the parameters since
the last reset, whatever they mean: only a reset ends one, so that none is forgotten because the
model does not know it.
-/

namespace ImportAlias.Console

/-! ### Terminals -/

/-- A terminal that reads a text. -/
structure Terminal where
  /-- Where it stands with respect to control sequences. -/
  stage : Stage
  /-- What it has read of the parameters of a control sequence. -/
  parameters : Text
  /-- The attributes that are active. -/
  active : List Text
deriving DecidableEq, Repr

/-- A character as it is shown, with its attributes. -/
abbrev Cell := Char × List Text

/-- Characters that are shown with the same attributes. -/
def cells (active : List Text) (t : Text) : List Cell := t.map (·, active)

@[simp] theorem map_fst_cells (active : List Text) (t : Text) :
    (cells active t).map Prod.fst = t := by
  simp [cells, Function.comp_def]

namespace Terminal

/-- A terminal outside of every sequence. -/
def resting (active : List Text) : Terminal := ⟨.ground, [], active⟩

/-- A terminal outside of every sequence with no attribute active. -/
def fresh : Terminal := resting []

/-- The attributes after one more parameter: a zero or nothing ends all, any other is added. -/
def select (active : List Text) (parameter : Text) : List Text :=
  if parameter = [] ∨ parameter = ['0'] then [] else active ++ [parameter]

/-- The terminal after a character. -/
def next (m : Terminal) (c : Char) : Terminal :=
  match m.stage with
  | .control =>
    if c = 'm' then resting ((fields ';' m.parameters).foldl select m.active)
    else ⟨m.stage.next c, m.parameters ++ [c], m.active⟩
  | s => ⟨s.next c, [], m.active⟩

/-- How a character is shown, unless it belongs to a sequence. -/
def cell? (m : Terminal) (c : Char) : Option Cell :=
  if m.stage = .ground ∧ c ≠ '\x1b' then some (c, m.active) else none

/-- What is shown of a text, and the terminal after it. -/
def read (m : Terminal) : Text → List Cell × Terminal
  | [] => ([], m)
  | c :: t => ((m.cell? c).toList ++ ((m.next c).read t).1, ((m.next c).read t).2)

/-- A terminal goes on after one text with the next. -/
theorem read_append {m m₁ m₂ : Terminal} {s t : Text} {xs ys : List Cell}
    (hs : m.read s = (xs, m₁)) (ht : m₁.read t = (ys, m₂)) : m.read (s ++ t) = (xs ++ ys, m₂) := by
  induction s generalizing m xs with
  | nil =>
    cases hs
    exact ht
  | cons c s ih =>
    obtain ⟨rfl, hrest⟩ := Prod.mk.inj hs
    rw [List.cons_append, read, ih (Prod.ext rfl hrest), List.append_assoc]

/-- Text without an escape character is shown as it is. -/
theorem read_of_not_mem {t : Text} (h : '\x1b' ∉ t) (active : List Text) :
    (resting active).read t = (cells active t, resting active) := by
  induction t with
  | nil => rfl
  | cons c t ih =>
    rw [List.mem_cons, not_or] at h
    have hc : c ≠ '\x1b' := Ne.symm h.1
    have hcell : (resting active).cell? c = some (c, active) := if_pos ⟨rfl, hc⟩
    have hnext : (resting active).next c = resting active := by
      simp [next, resting, Stage.next, hc]
    rw [read, hcell, hnext, ih h.2]
    rfl

/-- The parameters of a control sequence do not end it. -/
theorem next_of_parameter {c : Char} (h : between 0x30 0x3F c) (known : Text)
    (active : List Text) :
    next ⟨.control, known, active⟩ c = ⟨.control, known ++ [c], active⟩ := by
  simp only [between, Bool.and_eq_true, decide_eq_true_eq] at h
  have hne : ∀ d : Char, d.toNat < 0x30 ∨ 0x3F < d.toNat → c ≠ d := by
    rintro d hd rfl
    omega
  have hstays : Stage.control.next c = .control := by
    have hfinal : between 0x40 0x7E c = false := by
      simp only [between, Bool.and_eq_false_iff, decide_eq_false_iff_not]
      exact .inl (by omega)
    simp [Stage.next, hne '\x1b' (by decide), hne '\x18' (by decide), hne '\x1a' (by decide), hfinal]
  simp only [next, hstays, if_neg (hne 'm' (by decide))]

/-- A control sequence is not shown and sets its attributes. -/
theorem read_control {parameter : Text} (h : parameter.all (between 0x30 0x3F))
    (active : List Text) :
    (resting active).read (control parameter) =
      ([], resting ((fields ';' parameter).foldl select active)) := by
  -- each character goes to the parameters that are known, so these are general in the induction
  have hrest : ∀ known, (⟨.control, known, active⟩ : Terminal).read (parameter ++ ['m']) =
      ([], resting ((fields ';' (known ++ parameter)).foldl select active)) := by
    induction parameter with
    | nil =>
      intro known
      rw [List.append_nil]
      rfl
    | cons c parameter ih =>
      intro known
      rw [List.all_cons, Bool.and_eq_true] at h
      rw [List.cons_append, read, next_of_parameter h.1, ih h.2, List.append_assoc]
      rfl
  exact hrest []

theorem read_reset (active : List Text) : (resting active).read reset = ([], fresh) :=
  read_control rfl active

/-- A single parameter that is not a reset. -/
structure IsAttribute (parameter : Text) : Prop where
  single : fields ';' parameter = [parameter]
  notReset : ¬ (parameter = [] ∨ parameter = ['0'])
  valid : parameter.all (between 0x30 0x3F)

/-- Control sequences that are no resets add their attributes. -/
theorem read_attributes {parameters : List Text} (h : ∀ p ∈ parameters, IsAttribute p)
    (active : List Text) :
    (resting active).read (parameters.flatMap control) =
      ([], resting (active ++ parameters)) := by
  induction parameters generalizing active with
  | nil => rw [List.append_nil]; rfl
  | cons p parameters ih =>
    obtain ⟨hp, hrest⟩ := List.forall_mem_cons.1 h
    have hfirst := read_control hp.valid active
    rw [hp.single, List.foldl_cons, List.foldl_nil, select, if_neg hp.notReset] at hfirst
    have hboth := read_append hfirst (ih hrest (active ++ [p]))
    rwa [List.append_assoc] at hboth

end Terminal

/-! ### Pieces -/

namespace Style

/-- The attributes of a style. -/
def attributes (s : Style) : List Text :=
  (if s.bold then [['1']] else []) ++ (if s.dimmed then [['2']] else []) ++
    match s.color with
    | some c => [c.parameter]
    | none => []

theorem isAttribute_of_mem {s : Style} {p : Text} (h : p ∈ s.attributes) :
    Terminal.IsAttribute p := by
  rw [attributes, List.mem_append, List.mem_append] at h
  rcases h with (h | h) | h
  · obtain ⟨-, rfl⟩ : s.bold = true ∧ p = ['1'] := by simpa using h
    exact ⟨rfl, by decide, rfl⟩
  · obtain ⟨-, rfl⟩ : s.dimmed = true ∧ p = ['2'] := by simpa using h
    exact ⟨rfl, by decide, rfl⟩
  · match s.color, h with
    | some .red, h | some .green, h =>
      rw [List.mem_singleton.1 h]
      exact ⟨rfl, by decide, rfl⟩

/-- A style begins with a reset and a control sequence for each attribute. -/
theorem begin_eq (s : Style) : s.begin = reset ++ s.attributes.flatMap control := by
  obtain ⟨bold, dimmed, color⟩ := s
  cases bold <;> cases dimmed <;> cases color <;> simp [begin, attributes]

/-- A style begins with its attributes and no others, whatever was active. -/
theorem read_begin (s : Style) (active : List Text) :
    (Terminal.resting active).read s.begin = ([], .resting s.attributes) := by
  rw [begin_eq]
  exact Terminal.read_append (Terminal.read_reset active)
    (Terminal.read_attributes (fun p => isAttribute_of_mem) [])

end Style

namespace Piece

/-- The text of a piece. -/
def text : Piece → Text
  | .plain t => t
  | .styled _ t => t

/-- The attributes of a piece. -/
def attributes : Piece → List Text
  | .plain _ => []
  | .styled s _ => s.attributes

theorem render_false (p : Piece) : p.render false = p.text := by
  cases p <;> rfl

/-- **A piece is shown with its attributes**, and nothing of them is left after it. -/
theorem read_render {p : Piece} (h : '\x1b' ∉ p.text) :
    Terminal.fresh.read (p.render true) = (cells p.attributes p.text, .fresh) := by
  cases p with
  | plain t => exact Terminal.read_of_not_mem h []
  | styled s t =>
    have hword : Terminal.fresh.read (s.begin ++ t) = (cells s.attributes t, .resting s.attributes) :=
      Terminal.read_append (s.read_begin []) (Terminal.read_of_not_mem h s.attributes)
    have hreset := Terminal.read_append hword (Terminal.read_reset s.attributes)
    rwa [List.append_nil] at hreset

end Piece

/-- What is shown of pieces. -/
def shown (ps : List Piece) : List Cell := ps.flatMap fun p => cells p.attributes p.text

theorem map_fst_shown (ps : List Piece) : (shown ps).map Prod.fst = render false ps := by
  simp only [shown, List.map_flatMap, map_fst_cells, ← Piece.render_false]
  rfl

/-- Pieces are shown one after the other. -/
theorem read_render {ps : List Piece} (h : ∀ p ∈ ps, '\x1b' ∉ p.text) :
    Terminal.fresh.read (render true ps) = (shown ps, .fresh) := by
  induction ps with
  | nil => rfl
  | cons p ps ih =>
    obtain ⟨hp, hps⟩ := List.forall_mem_cons.1 h
    exact Terminal.read_append (Piece.read_render hp) (ih hps)

/-! ### Messages -/

namespace Event

/-- The texts in a message that come from outside: a path, and the cause of a failure. -/
def foreign : Event → List Text
  | .outcome o =>
    match o.status with
    | .failed cause => [o.displayPath, cause]
    | _ => [o.displayPath]
  | .found _ | .summary _ => []

/-- No text from outside has an escape character. -/
def Unescaped (e : Event) : Prop := ∀ t ∈ e.foreign, '\x1b' ∉ t

instance (e : Event) : Decidable e.Unescaped :=
  inferInstanceAs (Decidable (∀ t ∈ e.foreign, '\x1b' ∉ t))

theorem unescaped_outcome_iff {o : Outcome} :
    (outcome o).Unescaped ↔
      '\x1b' ∉ o.displayPath ∧ ∀ cause, o.status = .failed cause → '\x1b' ∉ cause := by
  rw [Unescaped, foreign]
  cases o.status <;> simp

/-- Then no piece of the message has one. -/
theorem Unescaped.not_mem_text {e : Event} (h : e.Unescaped) : ∀ p ∈ e.pieces, '\x1b' ∉ p.text := by
  have hdecimal : ∀ n, '\x1b' ∉ decimal n := not_mem_decimal_of_not_isDigit (by decide)
  cases e with
  | found n => simp [pieces, Piece.text, hdecimal]
  | outcome o =>
    obtain ⟨hpath, hcause⟩ := unescaped_outcome_iff.1 h
    rw [pieces, outcomePieces]
    cases ho : o.status with
    | fixed => simp [Piece.text, hpath]
    | unchanged => simp [Piece.text, hpath]
    | failed cause => simp [Piece.text, hpath, hcause cause ho]
  | summary r =>
    rw [pieces, summaryPieces]
    by_cases hfailed : 0 < r.failed <;> simp [hfailed, Piece.text, hdecimal]

end Event

/-- What some messages print. -/
def printed (color : Bool) (es : List Event) : Text := es.flatMap (Event.render color)

theorem printed_append (color : Bool) (es es' : List Event) :
    printed color (es ++ es') = printed color es ++ printed color es' :=
  List.flatMap_append

theorem printed_eq (color : Bool) (es : List Event) :
    printed color es = render color (es.flatMap Event.pieces) := by
  simp only [printed, render, List.flatMap_assoc]
  rfl

/-- Messages are shown one after the other, and each leaves the terminal as it found it. -/
theorem read_printed {es : List Event} (h : ∀ e ∈ es, e.Unescaped) :
    Terminal.fresh.read (printed true es) = (shown (es.flatMap Event.pieces), .fresh) := by
  rw [printed_eq]
  refine read_render fun p hp => ?_
  obtain ⟨e, he, hpiece⟩ := List.mem_flatMap.1 hp
  exact (h e he).not_mem_text p hpiece

/-! ### Paths and causes -/

/-- A text that stands in another one at a place that a terminal comes to with no attribute
active, and that is shown without one from its start to its end. -/
structure ShownPlain (whole lead t rest : Text) : Prop where
  stands : whole = lead ++ t ++ rest
  reached : (Terminal.fresh.read lead).2 = .fresh
  shown : Terminal.fresh.read t = (cells [] t, .fresh)

theorem Terminal.read_append_fresh {s t : Text} (hs : (fresh.read s).2 = fresh)
    (ht : (fresh.read t).2 = fresh) : (fresh.read (s ++ t)).2 = fresh := by
  have hfirst : fresh.read s = ((fresh.read s).1, fresh) := Prod.ext rfl hs
  have hsecond : fresh.read t = ((fresh.read t).1, fresh) := Prod.ext rfl ht
  rw [read_append hfirst hsecond]

/-- The label of a record ends all of its attributes. -/
theorem read_label (s : Status) :
    (Terminal.fresh.read ((label s).render true ++ [' '])).2 = .fresh := by
  have hlabel : '\x1b' ∉ (label s).text := by cases s <;> simp [label, Piece.text]
  refine Terminal.read_append_fresh ?_ rfl
  rw [Piece.read_render hlabel]

/-- Where a path stands in what is printed. -/
theorem printed_outcome (color : Bool) (before after : List Event) (o : Outcome) :
    printed color (before ++ .outcome o :: after) =
      printed color before ++ ((label o.status).render color ++ [' ']) ++ o.displayPath ++
        (remark o.status ++ '\n' :: printed color after) := by
  have hcons : printed color (.outcome o :: after) =
      statusRecord color o.status o.displayPath ++ printed color after := by
    rw [← render_outcome]
    rfl
  rw [printed_append, hcons, statusRecord]
  simp

/-- **Color is decoration.** Let the paths and causes of some messages have no escape character.
* A terminal shows the text of each piece of each message with the attributes of the piece.
* So without the control sequences, the colored output is the plain output.
* After any number of the messages, the terminal is outside of every sequence and no attribute is
  active.
* The path in a status record, and the cause of a failure, stand after all that was printed
  before them and after the label of their own record, and they are shown without an attribute. -/
theorem color_decorates (es : List Event) (h : ∀ e ∈ es, e.Unescaped) :
    (Terminal.fresh.read (printed true es)).1 = shown (es.flatMap Event.pieces) ∧
    (Terminal.fresh.read (printed true es)).1.map Prod.fst = printed false es ∧
    (∀ done, done <+: es → (Terminal.fresh.read (printed true done)).2 = .fresh) ∧
    ∀ before o after, es = before ++ .outcome o :: after →
      let lead := printed true before ++ ((label o.status).render true ++ [' '])
      let rest := '\n' :: printed true after
      ShownPlain (printed true es) lead o.displayPath (remark o.status ++ rest) ∧
      ∀ cause, o.status = .failed cause →
        ShownPlain (printed true es) (lead ++ o.displayPath ++ [':', ' ']) cause rest := by
  refine ⟨?_, ?_, fun done hdone => ?_, ?_⟩
  · rw [read_printed h]
  · rw [read_printed h, map_fst_shown, printed_eq]
  · rw [read_printed fun e he => h e (hdone.subset he)]
  · rintro before o after rfl lead rest
    obtain ⟨hpath, hcause⟩ := Event.unescaped_outcome_iff.1
      (h _ (List.mem_append_right before List.mem_cons_self))
    have hbefore := read_printed fun e he => h e (List.mem_append_left _ he)
    have hlead : (Terminal.fresh.read lead).2 = .fresh := by
      refine Terminal.read_append_fresh ?_ (read_label o.status)
      rw [hbefore]
    have hshown := Terminal.read_of_not_mem hpath []
    refine ⟨⟨printed_outcome true before after o, hlead, hshown⟩, fun cause ho => ?_⟩
    refine ⟨?_, ?_, Terminal.read_of_not_mem (hcause cause ho) []⟩
    · rw [printed_outcome, ho]
      simp [lead, rest, remark, ho]
    · refine Terminal.read_append_fresh (Terminal.read_append_fresh hlead ?_) rfl
      exact congrArg Prod.snd hshown

/-- A changed file, a failed one with a break in its name, and a summary that counts the failure.
The terminal shows the label `Fixed:` bold and green, and the path after it without an
attribute. -/
theorem color_decorates_failure :
    let fixed : Outcome := ⟨.ofText "/src/a.ts".toList, "src/a.ts".toList, .fixed, 1⟩
    let failed : Outcome :=
      ⟨.ofText "/src/b\n.ts".toList, "src/b\n.ts".toList, .failed "denied".toList, 0⟩
    let report := ((Report.new (.ofText "/src".toList)).record fixed).record failed
    let es := [Event.found 2, .outcome fixed, .outcome failed, .summary report]
    (∀ e ∈ es, e.Unescaped) ∧
    (Terminal.fresh.read (printed true es)).1.map Prod.fst = printed false es ∧
    (Terminal.fresh.read (printed true es)).2 = .fresh ∧
    (Terminal.fresh.read ((Event.outcome fixed).render true)).1 =
      cells [['1'], ['3', '2']] "Fixed:".toList ++ cells [] " src/a.ts\n".toList ∧
    ∃ lead rest, ShownPlain (printed true es) lead "denied".toList rest := by
  intro fixed failed report es
  have hes : ∀ e ∈ es, e.Unescaped := by decide
  obtain ⟨-, hplain, hdone, hrecords⟩ := color_decorates es hes
  obtain ⟨-, hcause⟩ := hrecords [.found 2, .outcome fixed] failed [.summary report] rfl
  exact ⟨hes, hplain, hdone es (List.prefix_refl es), by decide, _, _, hcause _ rfl⟩

end ImportAlias.Console
