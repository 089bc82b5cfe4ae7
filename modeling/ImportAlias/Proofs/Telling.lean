import ImportAlias.Command.Run
import ImportAlias.Proofs.Sequence

/-!
# What a run tells

On the console a run offers standard output one portion after the other until one is
refused. Only a refusal of the announcement keeps it from editing. With a standard output
that takes everything, all that a run writes is told by its report: the lines on the console
are one for each outcome between an announcement and a summary, and the document is the
report's. The tree that a run leaves behind is then the one that its pass over the candidates
leaves, however it tells about it.
-/

namespace ImportAlias

namespace Console.Sink

/-- After a refusal nothing is taken. -/
theorem foldl_offer_of_failure {s : Sink} (h : s.failure.isSome) (portions : List Text) :
    portions.foldl offer s = s := by
  induction portions with
  | nil => rfl
  | cons portion portions ih => rw [List.foldl_cons, offer, if_pos h, ih]

theorem foldl_offer_unlimited (portions : List Text) (taken : Text) :
    portions.foldl offer ⟨.unlimited, taken, none⟩ =
      ⟨.unlimited, taken ++ portions.flatten, none⟩ := by
  induction portions generalizing taken with
  | nil => simp
  | cons portion portions ih =>
    have hoffer : offer ⟨.unlimited, taken, none⟩ portion =
        ⟨.unlimited, taken ++ portion, none⟩ := rfl
    rw [List.foldl_cons, hoffer, ih]
    simp

/-- A sink that takes everything takes all that is written. -/
theorem send_unlimited (taken : Text) (pieces : List Text) :
    send ⟨.unlimited, taken, none⟩ pieces = ⟨.unlimited, taken ++ pieces.flatten, none⟩ := by
  rw [send, foldl_offer_unlimited, flatten_portions]
  rfl

end Console.Sink

namespace Command

open Console (Event Sink portions)

/-- The text of a report on the console. -/
def consoleText (color : Bool) (r : Report) : Text :=
  (Event.found r.files.length).render color ++
    r.files.flatMap (fun o => (Event.outcome o).render color) ++
    (Event.summary r).render color

/-- What a run leaves behind that tells all of its report. -/
def account (json color : Bool) (r : Report) (t : FileTree) : Result :=
  if json then
    match r.toJson? with
    | none => ⟨1, [], outputFailed Report.noDocument, t⟩
    | some document => ⟨reportStatus r, document.pretty ++ ['\n'], [], t⟩
  else ⟨reportStatus r, consoleText color r, [], t⟩

@[simp] theorem tree_account (json color : Bool) (r : Report) (t : FileTree) :
    (account json color r t).tree = t := by
  unfold account
  split
  · split <;> rfl
  · rfl

/-! ### On the console -/

/-- The portions that a report is offered in. -/
def consolePortions (color : Bool) (r : Report) : List Text :=
  portions [] ((Event.found r.files.length).writes color) ++
    r.files.flatMap (fun o => portions [] ((Event.outcome o).writes color)) ++
    portions [] ((Event.summary r).writes color)

theorem flatten_consolePortions (color : Bool) (r : Report) :
    (consolePortions color r).flatten = consoleText color r := by
  have hfiles : (r.files.flatMap fun o => portions [] ((Event.outcome o).writes color)).flatten =
      r.files.flatMap fun o => (Event.outcome o).render color := by
    rw [List.flatten_eq_flatMap, List.flatMap_assoc]
    simp only [← List.flatten_eq_flatMap, Console.flatten_portions, List.nil_append,
      Console.Event.flatten_writes]
  rw [consolePortions, List.flatten_append, List.flatten_append, hfiles, consoleText]
  simp [Console.flatten_portions, Console.Event.flatten_writes]

/-- **A run on the console**, whatever standard output takes: it offers the portions of the
report of its pass, and the tree is that of its pass unless the announcement was refused. -/
theorem runConsole_eq (w : World) (s : Settings) (color : Bool) :
    runConsole w (s.toAlias w.cwd) (s.scan w.cwd w.tree) color =
      let done := s.pass w.cwd w.tree
      let told := (consolePortions color done.report).foldl Sink.offer (.new w.stdout)
      match told.failure with
      | none => ⟨reportStatus done.report, told.taken, [], done.tree⟩
      | some e =>
        ⟨1, told.taken, outputFailed e.message,
          if ((Sink.new w.stdout).send
            ((Event.found done.report.files.length).writes color)).failure.isSome
          then w.tree else done.tree⟩ := by
  rw [runConsole, ← Settings.length_files_pass]
  simp only [Settings.editAll_scan]
  generalize (s.pass w.cwd w.tree).report = r
  generalize hannounced : (Sink.new w.stdout).send ((Event.found r.files.length).writes color) =
    announced
  -- What follows the announcement is offered to the sink that the announcement leaves.
  have htold : (consolePortions color r).foldl Sink.offer (.new w.stdout) =
      (r.files.foldl (fun s o => s.send ((Event.outcome o).writes color)) announced).send
        ((Event.summary r).writes color) := by
    rw [consolePortions, List.foldl_append, List.foldl_append, List.foldl_flatMap, ← hannounced]
    rfl
  cases hfailure : announced.failure with
  | none =>
    dsimp only
    rw [← htold]
    cases ((consolePortions color r).foldl Sink.offer (.new w.stdout)).failure <;> rfl
  | some e =>
    have hstop : (consolePortions color r).foldl Sink.offer (.new w.stdout) = announced := by
      rw [consolePortions, List.append_assoc, List.foldl_append, ← Sink.send, hannounced]
      exact Sink.foldl_offer_of_failure (by rw [hfailure]; rfl) _
    dsimp only
    rw [hstop, hfailure]
    rfl

/-- On the console a run tells the report of its pass. -/
theorem runConsole_unlimited {w : World} (hout : w.stdout = .unlimited) (s : Settings)
    (color : Bool) :
    runConsole w (s.toAlias w.cwd) (s.scan w.cwd w.tree) color =
      account false color (s.pass w.cwd w.tree).report (s.pass w.cwd w.tree).tree := by
  have htold := Sink.foldl_offer_unlimited
    (consolePortions color (s.pass w.cwd w.tree).report) []
  rw [List.nil_append, flatten_consolePortions] at htold
  rw [runConsole_eq, hout, Sink.new]
  simp only [htold]
  rfl

/-! ### As a document -/

/-- As a document a run tells the report of its pass. -/
theorem runJson_unlimited {w : World} (hout : w.stdout = .unlimited) (s : Settings) (color : Bool) :
    runJson w (s.toAlias w.cwd) (s.scan w.cwd w.tree) =
      account true color (s.pass w.cwd w.tree).report (s.pass w.cwd w.tree).tree := by
  unfold runJson account
  rw [← Settings.pass]
  cases hdocument : (s.pass w.cwd w.tree).report.toJson? with
  | none => simp only [hdocument, if_true]
  | some document =>
    simp only [hdocument, hout, Sink.new, Sink.send_unlimited, if_true]
    simp

/-! ### Whole runs -/

/-- The complaint of a run that is stopped before it looks for candidates. -/
def stopped? (w : World) (c : Choices) : Option Text :=
  if w.tree.isDirectory w.cwd (c.settings w.cwd).root = false then some (noDirectory c.givenRoot)
  else if (c.settings w.cwd).extensions = [] then some noExtensions
  else none

theorem stopped?_eq_none_iff {w : World} {c : Choices} :
    stopped? w c = none ↔
      w.tree.isDirectory w.cwd (c.settings w.cwd).root = true ∧
        (c.settings w.cwd).extensions ≠ [] := by
  unfold stopped?
  split <;> simp_all

/-- A run that is stopped complains and does nothing else. -/
theorem run_of_stopped {w : World} {args : List Bytes} {c : Choices} {complaint : Text}
    (hargs : Choices.ofArguments args = .ok c) (h : stopped? w c = some complaint) :
    run w args = ⟨1, [], complaint, w.tree⟩ := by
  rw [run, hargs]
  unfold stopped? at h
  unfold runChoices
  split at h
  · next hroot =>
    cases h
    exact if_pos hroot
  · next hroot =>
    split at h
    · next hext =>
      cases h
      exact (if_neg hroot).trans (if_pos hext)
    · cases h

/-- A run that is not stopped tells about its candidates on the console or as a document. -/
theorem run_of_not_stopped {w : World} {args : List Bytes} {c : Choices}
    (hargs : Choices.ofArguments args = .ok c) (h : stopped? w c = none) :
    run w args =
      let s := c.settings w.cwd
      if c.json then runJson w (s.toAlias w.cwd) (s.scan w.cwd w.tree)
      else runConsole w (s.toAlias w.cwd) (s.scan w.cwd w.tree) (c.useColor w) := by
  obtain ⟨hroot, hext⟩ := stopped?_eq_none_iff.1 h
  rw [run, hargs]
  simp only [runChoices, hroot, Bool.true_eq_false, if_false, hext]

/-- **What a run does that is not stopped early**: it tells the report of its pass and
leaves the tree of its pass. -/
theorem run_unlimited {w : World} {args : List Bytes} {c : Choices} (hout : w.stdout = .unlimited)
    (hargs : Choices.ofArguments args = .ok c)
    (hroot : w.tree.isDirectory w.cwd (c.settings w.cwd).root = true)
    (hext : (c.settings w.cwd).extensions ≠ []) :
    run w args =
      account c.json (c.useColor w) ((c.settings w.cwd).pass w.cwd w.tree).report
        ((c.settings w.cwd).pass w.cwd w.tree).tree := by
  rw [run_of_not_stopped hargs (stopped?_eq_none_iff.2 ⟨hroot, hext⟩)]
  cases hjson : c.json with
  | true => exact runJson_unlimited hout _ _
  | false => exact runConsole_unlimited hout _ _

end Command

end ImportAlias
