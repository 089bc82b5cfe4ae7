import ImportAlias.Proofs.LimitedOutput
import ImportAlias.Proofs.Requests
import ImportAlias.Proofs.Retelling

/-!
# The exit status

A run succeeds if nothing went wrong anywhere: its root is a directory, it has an extension to
look for, everything it had to say was taken, and every candidate could be edited. Without a
root or an extension it is over before it looks at a file, and a command line that is not
accepted, or asks for help or the version, never comes that far. A run fails with status 1,
except that it panics if its document is refused.

## The model

`Capacity.Holds` says of a whole text what the sink finds out portion by portion,
`Capacity.HoldsDocument` says it of the document of a report, and `AllEdited` says of the
candidates what the report counts.
-/

namespace ImportAlias

/-! ### Extensions that can be used -/

/-- Whether anything is left of an extension without the white space around it and its dot. -/
def UsableExtension (t : Text) : Prop := t.trim ≠ [] ∧ t.trim ≠ ['.']

instance (t : Text) : Decidable (UsableExtension t) := inferInstanceAs (Decidable (_ ∧ _))

theorem isSome_extension?_iff {t : Text} : (extension? t).isSome ↔ UsableExtension t := by
  unfold extension? UsableExtension
  generalize t.trim = bare
  cases hdot : after? ['.'] bare with
  | none =>
    have hne : bare ≠ ['.'] := by
      rintro rfl
      cases hdot
    simp only [hdot, Option.getD_none]
    by_cases hempty : bare = [] <;> simp [hempty, hne]
  | some rest =>
    have hbare : bare = '.' :: rest := after?_eq_some_iff.1 hdot
    simp only [hdot, Option.getD_some]
    by_cases hempty : rest = [] <;> simp [hbare, hempty]

/-- A run has extensions to look for if it is given none or one that can be used. -/
theorem Command.Choices.extensions_settings_ne_nil_iff {c : Choices} {cwd : Location} :
    (c.settings cwd).extensions ≠ [] ↔
      c.extensions = [] ∨ ∃ t ∈ c.extensions, UsableExtension t := by
  unfold settings
  by_cases hnone : c.extensions = []
  · simp [hnone, Settings.ofRoot, Settings.defaultExtensions]
  · simp only [hnone, if_false, Settings.withExtensions, false_or, ← isSome_extension?_iff,
      Option.isSome_iff_ne_none, ne_eq, List.filterMap_eq_nil_iff, Classical.not_forall,
      exists_prop]

/-! ### Output that is taken -/

namespace Console

/-- Whether a text can be taken as a whole. -/
def Capacity.Holds : Capacity → Text → Prop
  | .unlimited, _ => True
  | .room bytes, t => (Utf8.encode t).length ≤ bytes
  | .full, t => t = []

instance (capacity : Capacity) (t : Text) : Decidable (capacity.Holds t) :=
  match capacity with
  | .unlimited => .isTrue trivial
  | .room bytes => inferInstanceAs (Decidable ((Utf8.encode t).length ≤ bytes))
  | .full => inferInstanceAs (Decidable (t = []))

/-- Whether the document of a report can be taken as a whole, if there is one. -/
def Capacity.HoldsDocument (capacity : Capacity) (r : Report) : Prop :=
  ∀ document, r.toJson? = some document → capacity.Holds (document.pretty ++ ['\n'])

theorem Capacity.holdsDocument_iff {capacity : Capacity} {r : Report} {document : Json}
    (h : r.toJson? = some document) :
    capacity.HoldsDocument r ↔ capacity.Holds (document.pretty ++ ['\n']) := by
  simp [HoldsDocument, h]

theorem Capacity.holdsDocument_of_none {r : Report} (h : r.toJson? = none) (capacity : Capacity) :
    capacity.HoldsDocument r := by
  simp [HoldsDocument, h]

instance (capacity : Capacity) (r : Report) : Decidable (capacity.HoldsDocument r) :=
  match h : r.toJson? with
  | none => .isTrue (Capacity.holdsDocument_of_none h capacity)
  | some _ => decidable_of_iff _ (Capacity.holdsDocument_iff h).symm

theorem fitting_eq_self_iff {bytes : Nat} {portions : List Text} :
    fitting bytes portions = portions ↔ (Utf8.encode portions.flatten).length ≤ bytes := by
  induction portions generalizing bytes with
  | nil => simp [fitting]
  | cons portion portions ih =>
    rw [fitting, List.flatten_cons, Utf8.encode_append, List.length_append]
    by_cases hfits : (Utf8.encode portion).length ≤ bytes
    · rw [if_pos hfits, List.cons_inj_right, ih]
      omega
    · rw [if_neg hfits]
      constructor
      · intro h
        cases h
      · intro h
        omega

theorem length_encode_fitting_le (bytes : Nat) (portions : List Text) :
    (Utf8.encode (fitting bytes portions).flatten).length ≤ bytes := by
  induction portions generalizing bytes with
  | nil => simp [fitting]
  | cons portion portions ih =>
    rw [fitting]
    split
    · next hfits =>
      have hrest := ih (bytes - (Utf8.encode portion).length)
      rw [List.flatten_cons, Utf8.encode_append, List.length_append]
      omega
    · simp

namespace Sink

/-- A full device refuses the first portion. -/
theorem foldl_offer_full {portions : List Text} (h : portions ≠ []) :
    portions.foldl offer (new .full) = ⟨.full, [], some .noSpace⟩ := by
  cases portions with
  | nil => exact absurd rfl h
  | cons portion portions => exact foldl_offer_of_failure rfl portions

variable {portions : List Text} {text : Text}

/-- **A sink refuses nothing exactly if it can hold everything.** -/
theorem failure_eq_none_iff (capacity : Capacity) (htext : portions.flatten = text)
    (hne : text ≠ []) :
    (portions.foldl offer (new capacity)).failure = none ↔ capacity.Holds text := by
  subst htext
  cases capacity with
  | unlimited => simp [new, foldl_offer_unlimited, Capacity.Holds]
  | room bytes =>
    rw [new, (foldl_offer_room bytes [] portions).2, Capacity.Holds, ← fitting_eq_self_iff]
    split <;> simp_all
  | full =>
    have hsome : portions ≠ [] := fun hnil => hne (by rw [hnil]; rfl)
    simp [foldl_offer_full hsome, Capacity.Holds, hne]

/-- What a sink has taken is everything exactly if it can hold everything. -/
theorem taken_eq_iff (capacity : Capacity) (htext : portions.flatten = text) (hne : text ≠ []) :
    (portions.foldl offer (new capacity)).taken = text ↔ capacity.Holds text := by
  subst htext
  cases capacity with
  | unlimited => simp [new, foldl_offer_unlimited, Capacity.Holds]
  | room bytes =>
    rw [new, (foldl_offer_room bytes [] portions).1, List.nil_append, Capacity.Holds]
    constructor
    · intro htaken
      rw [← htaken]
      exact length_encode_fitting_le bytes portions
    · intro hfits
      rw [fitting_eq_self_iff.2 hfits]
  | full =>
    have hsome : portions ≠ [] := fun hnil => hne (by rw [hnil]; rfl)
    rw [foldl_offer_full hsome]
    exact eq_comm

end Sink

end Console

/-! ### Candidates that can be edited -/

namespace Alias

/-- Whether every file can be edited when its turn comes. -/
def AllEdited (a : Alias) (cwd : Location) (t : FileTree) (ps : List Path) : Prop :=
  ∀ before p after, ps = before ++ p :: after →
    ∃ e, (a.editFile cwd (a.editAll cwd (fun (_ : Unit) _ => ()) () t before).tree p).1 = .ok e

variable {a : Alias} {cwd : Location} {t : FileTree} {p : Path} {ps : List Path}

theorem isFailed_process :
    (a.process cwd t p).1.isFailed = false ↔ ∃ e, (a.editFile cwd t p).1 = .ok e := by
  unfold process
  cases hresult : (a.editFile cwd t p).1 with
  | error f => simp [hresult, Outcome.ofResult, Outcome.isFailed]
  | ok e =>
    cases hchanged : e.changed <;> simp [hresult, hchanged, Outcome.ofResult, Outcome.isFailed]

theorem allEdited_cons :
    a.AllEdited cwd t (p :: ps) ↔
      (∃ e, (a.editFile cwd t p).1 = .ok e) ∧ a.AllEdited cwd (a.process cwd t p).2 ps := by
  simp only [AllEdited, tree_editAll]
  constructor
  · intro h
    refine ⟨h [] p ps rfl, fun before q after hps => ?_⟩
    rw [hps] at h
    exact h (p :: before) q after rfl
  · rintro ⟨hfirst, hrest⟩ before q after hps
    cases before with
    | nil =>
      cases hps
      exact hfirst
    | cons p' before =>
      cases hps
      exact hrest before q after rfl

/-- No outcome of a run is a failure exactly if every file can be edited. -/
theorem countP_isFailed_editEach :
    (a.editEach cwd t ps).1.countP Outcome.isFailed = 0 ↔ a.AllEdited cwd t ps := by
  induction ps generalizing t with
  | nil => simp [editEach, AllEdited]
  | cons p ps ih =>
    rw [allEdited_cons, ← isFailed_process, ← ih, editEach, List.countP_cons]
    cases (a.process cwd t p).1.isFailed <;> simp

end Alias

namespace Command

open Console (Sink)

/-! ### The status of a run -/

theorem reportStatus_pass_eq_zero_iff {s : Settings} {cwd : Location} {t : FileTree} :
    reportStatus (s.pass cwd t).report = 0 ↔
      (s.toAlias cwd).AllEdited cwd t (s.scan cwd t) := by
  rw [← Alias.countP_isFailed_editEach, Settings.pass, Alias.editAll_eq, Report.foldl_record,
    reportStatus, Report.hasFailures]
  simp [Report.new]

theorem reportStatus_le_one (r : Report) : reportStatus r ≤ 1 := by
  unfold reportStatus
  split <;> omega

theorem consoleText_ne_nil (color : Bool) (r : Report) : consoleText color r ≠ [] := by
  obtain ⟨text, hfound, -⟩ := Console.isLine_foundLine r.files.length
  rw [consoleText, Console.render_found, hfound]
  simp

/-- On the console a run succeeds if all its text is taken and no candidate fails. -/
theorem status_runConsole_eq_zero_iff {w : World} {s : Settings} {color : Bool} :
    (runConsole w (s.toAlias w.cwd) (s.scan w.cwd w.tree) color).status = 0 ↔
      w.stdout.Holds (consoleText color (s.pass w.cwd w.tree).report) ∧
        (s.toAlias w.cwd).AllEdited w.cwd w.tree (s.scan w.cwd w.tree) := by
  rw [← reportStatus_pass_eq_zero_iff, runConsole_eq]
  generalize s.pass w.cwd w.tree = done
  rw [← Sink.failure_eq_none_iff w.stdout (flatten_consolePortions color done.report)
    (consoleText_ne_nil color done.report)]
  dsimp only
  split
  · next hnone => simp [hnone]
  · next e hsome => simp [hsome]

/-- What a run says on the console is all of its text exactly if that can be taken. -/
theorem stdout_runConsole_eq_iff {w : World} {s : Settings} {color : Bool} :
    (runConsole w (s.toAlias w.cwd) (s.scan w.cwd w.tree) color).stdout =
        consoleText color (s.pass w.cwd w.tree).report ↔
      w.stdout.Holds (consoleText color (s.pass w.cwd w.tree).report) := by
  rw [runConsole_eq]
  generalize s.pass w.cwd w.tree = done
  rw [← Sink.taken_eq_iff w.stdout (flatten_consolePortions color done.report)
    (consoleText_ne_nil color done.report)]
  dsimp only
  split <;> rfl

theorem status_runConsole_le_one {w : World} {s : Settings} {color : Bool} :
    (runConsole w (s.toAlias w.cwd) (s.scan w.cwd w.tree) color).status ≤ 1 := by
  rw [runConsole_eq]
  dsimp only
  split
  · exact reportStatus_le_one _
  · exact Nat.le_refl 1

/-- The pieces of a document are taken exactly if the whole of it can be. -/
theorem failure_send_document_eq_none_iff (capacity : Console.Capacity) (document : Json) :
    ((Sink.new capacity).send [document.pretty, ['\n']]).failure = none ↔
      capacity.Holds (document.pretty ++ ['\n']) := by
  have htext : (Console.portions [] [document.pretty, ['\n']]).flatten =
      document.pretty ++ ['\n'] := by
    simp [Console.flatten_portions]
  exact Sink.failure_eq_none_iff capacity htext (by simp)

/-- A refusal of the document is a panic, but only after the files are edited. -/
theorem runJson_of_refused {w : World} {s : Settings}
    (hrefused : ¬ w.stdout.HoldsDocument (s.pass w.cwd w.tree).report) :
    ∃ (taken : Text) (e : SystemError), runJson w (s.toAlias w.cwd) (s.scan w.cwd w.tree) =
      ⟨panicStatus, taken, outputPanic e.message, (s.pass w.cwd w.tree).tree⟩ := by
  rw [runJson, ← Settings.pass]
  generalize s.pass w.cwd w.tree = done at hrefused ⊢
  cases hdocument : done.report.toJson? with
  | none => exact absurd (Console.Capacity.holdsDocument_of_none hdocument w.stdout) hrefused
  | some document =>
    rw [Console.Capacity.holdsDocument_iff hdocument, ← failure_send_document_eq_none_iff]
      at hrefused
    obtain ⟨e, he⟩ := Option.ne_none_iff_exists'.1 hrefused
    simp only [he]
    exact ⟨_, e, rfl⟩

/-- **A run with a document**, whatever standard output takes: the status is that of the report,
unless there is no document or it is refused. -/
theorem status_runJson (w : World) (s : Settings) :
    (runJson w (s.toAlias w.cwd) (s.scan w.cwd w.tree)).status =
      let report := (s.pass w.cwd w.tree).report
      if w.stdout.HoldsDocument report then if report.IsText then reportStatus report else 1
      else panicStatus := by
  dsimp only
  by_cases hholds : w.stdout.HoldsDocument (s.pass w.cwd w.tree).report
  · rw [if_pos hholds, runJson, ← Settings.pass]
    generalize s.pass w.cwd w.tree = done at hholds ⊢
    -- A report has a document exactly if it is one of texts.
    cases hdocument : done.report.toJson? with
    | none =>
      have htext : ¬ done.report.IsText := by
        rw [← Report.isSome_toJson?_iff, hdocument]
        simp
      rw [if_neg htext]
    | some document =>
      have htext : done.report.IsText := by
        rw [← Report.isSome_toJson?_iff, hdocument]
        rfl
      rw [Console.Capacity.holdsDocument_iff hdocument, ← failure_send_document_eq_none_iff]
        at hholds
      simp only [hholds, if_pos htext]
  · obtain ⟨taken, e, hrun⟩ := runJson_of_refused hholds
    rw [if_neg hholds, hrun]

/-- With a document a run succeeds if there is one, it is taken, and no candidate fails. -/
theorem status_runJson_eq_zero_iff {w : World} {s : Settings} :
    (runJson w (s.toAlias w.cwd) (s.scan w.cwd w.tree)).status = 0 ↔
      (w.stdout.HoldsDocument (s.pass w.cwd w.tree).report ∧
        (s.pass w.cwd w.tree).report.IsText) ∧
        (s.toAlias w.cwd).AllEdited w.cwd w.tree (s.scan w.cwd w.tree) := by
  rw [← reportStatus_pass_eq_zero_iff, status_runJson, and_assoc]
  dsimp only
  split
  · next hholds => split <;> simp_all
  · next hrefused => simp [hrefused, panicStatus]

theorem status_runJson_le_one {w : World} {s : Settings}
    (hholds : w.stdout.HoldsDocument (s.pass w.cwd w.tree).report) :
    (runJson w (s.toAlias w.cwd) (s.scan w.cwd w.tree)).status ≤ 1 := by
  rw [status_runJson]
  dsimp only
  rw [if_pos hholds]
  split
  · exact reportStatus_le_one _
  · exact Nat.le_refl 1

variable {w : World} {args : List Bytes} {c : Choices}

/-- The status of a run, whatever standard output takes. -/
theorem status_run_eq_zero_iff (hargs : Choices.ofArguments args = .ok c) {s : Settings}
    (hs : c.settings w.cwd = s) {report : Report}
    (hreport : (s.pass w.cwd w.tree).report = report) :
    (run w args).status = 0 ↔
      stopped? w c = none ∧
      (if c.json then w.stdout.HoldsDocument report ∧ report.IsText
      else w.stdout.Holds (consoleText (c.useColor w) report)) ∧
      (s.toAlias w.cwd).AllEdited w.cwd w.tree (s.scan w.cwd w.tree) := by
  subst hs hreport
  cases hstopped : stopped? w c with
  | some complaint => simp [run_of_stopped hargs hstopped]
  | none =>
    rw [run_of_not_stopped hargs hstopped]
    by_cases hjson : c.json = true
    · simp only [hjson, if_true, true_and]
      exact status_runJson_eq_zero_iff
    · simp only [hjson, Bool.false_eq_true, if_false, true_and]
      exact status_runConsole_eq_zero_iff

/-- A run that is not refused a document ends with one of two statuses. -/
theorem status_run_le_one (hargs : Choices.ofArguments args = .ok c)
    (hout : c.json = true →
      w.stdout.HoldsDocument ((c.settings w.cwd).pass w.cwd w.tree).report) :
    (run w args).status ≤ 1 := by
  cases hstopped : stopped? w c with
  | some complaint =>
    have hone : (run w args).status = 1 := congrArg Result.status (run_of_stopped hargs hstopped)
    exact Nat.le_of_eq hone
  | none =>
    rw [run_of_not_stopped hargs hstopped]
    dsimp only
    split
    · next hjson => exact status_runJson_le_one (hout hjson)
    · exact status_runConsole_le_one

/-- **A run whose document is refused** panics, but only after its files are edited: the tree is
the one that it leaves behind with a standard output that takes everything. -/
theorem run_of_refused (hargs : Choices.ofArguments args = .ok c) (hjson : c.json = true)
    (hstopped : stopped? w c = none)
    (hrefused : ¬ w.stdout.HoldsDocument ((c.settings w.cwd).pass w.cwd w.tree).report) :
    (run w args).status = panicStatus ∧
      (∃ e : SystemError, (run w args).stderr = outputPanic e.message) ∧
      (run w args).tree = (run { w with stdout := .unlimited } args).tree := by
  obtain ⟨hroot, hext⟩ := stopped?_eq_none_iff.1 hstopped
  have hfree := run_unlimited (w := { w with stdout := .unlimited }) rfl hargs hroot hext
  obtain ⟨taken, e, hrun⟩ := runJson_of_refused hrefused
  rw [run_of_not_stopped hargs hstopped, hfree, tree_account]
  dsimp only
  rw [if_pos hjson, hrun]
  exact ⟨rfl, ⟨e, rfl⟩, rfl⟩

/-- With room for all but the last byte of the document. -/
example :
    let tight := run { brokenNameWorld with stdout := .room 244 } [jsonOption]
    tight.status = 101 ∧ tight.stderr =
      "failed printing to stdout: Resource temporarily unavailable (os error 11)\n".toList := by
  decide +kernel

theorem noDirectory_eq (root : Path) :
    noDirectory root = "aliasfix: cannot access '".toList ++ root.display ++
      "': No such directory\n".toList := by
  have hstart : "aliasfix: cannot access '".toList =
      "aliasfix: ".toList ++ "cannot access '".toList := by decide
  have hend : "': No such directory\n".toList = "': No such directory".toList ++ ['\n'] := by
    decide
  calc noDirectory root
      = "aliasfix: ".toList ++ ("cannot access '".toList ++ root.display ++
          "': No such directory".toList) ++ ['\n'] := rfl
    _ = ("aliasfix: ".toList ++ "cannot access '".toList) ++ root.display ++
          ("': No such directory".toList ++ ['\n']) := by simp only [List.append_assoc]
    _ = _ := by rw [← hstart, ← hend]

theorem noExtensions_eq : noExtensions = "aliasfix: no usable extensions given\n".toList := by
  decide

/-- A command line that chooses no run leaves the tree alone. -/
theorem tree_run_of_error {stop : Stop} (hargs : Choices.ofArguments args = .error stop) :
    (run w args).tree = w.tree := by
  rw [run, hargs]
  cases stop <;> rfl

/-- **When a run succeeds.** The status is 0 if the root is a directory, there is an extension
to look for, everything the run has to say is taken (or, as a document, can be told) and every
candidate can be edited; otherwise it is 1. Of a run that asks for a document this is said when
standard output takes the document, since a refusal of it is a panic. Without a root or an
extension the run only complains, about the root first. A command line that is not accepted as a
run changes nothing, and one that asks for help or the version among its options is never accepted
as a run. -/
theorem run_status (w : World) (args : List Bytes) :
    (∀ c, Choices.ofArguments args = .ok c →
      let s := c.settings w.cwd
      let report := (s.pass w.cwd w.tree).report
      let text := consoleText (c.useColor w) report
      let hasRoot := w.tree.isDirectory w.cwd s.root = true
      let hasExtension := c.extensions = [] ∨ ∃ t ∈ c.extensions, UsableExtension t
      ((c.json = true → w.stdout.HoldsDocument report) →
        ((run w args).status = 0 ↔ hasRoot ∧ hasExtension ∧
          (if c.json then report.IsText else w.stdout.Holds text) ∧
          (s.toAlias w.cwd).AllEdited w.cwd w.tree (s.scan w.cwd w.tree)) ∧
        ((run w args).status ≠ 0 → (run w args).status = 1)) ∧
      (c.json = false → hasRoot → hasExtension →
        (w.stdout.Holds text ↔ (run w args).stdout = text)) ∧
      (¬ hasRoot → run w args = ⟨1, [], "aliasfix: cannot access '".toList ++
        c.givenRoot.display ++ "': No such directory\n".toList, w.tree⟩) ∧
      (hasRoot → ¬ hasExtension →
        run w args = ⟨1, [], "aliasfix: no usable extensions given\n".toList, w.tree⟩)) ∧
    (∀ stop, Choices.ofArguments args = .error stop → (run w args).tree = w.tree) ∧
    (∀ before arg after, args = before ++ arg :: after → Reading.terminator ∉ before →
      Reading.IsRequest arg →
        (∃ stop, Choices.ofArguments args = .error stop) ∧ (run w args).tree = w.tree) := by
  refine ⟨fun c hargs => ?_, fun stop => tree_run_of_error, ?_⟩
  · intro s report text hasRoot hasExtension
    have hgoes : stopped? w c = none ↔ hasRoot ∧ hasExtension := by
      rw [stopped?_eq_none_iff, Choices.extensions_settings_ne_nil_iff]
    refine ⟨fun hout => ⟨?_, fun hstatus => ?_⟩, fun hjson hroot hext => ?_, fun hroot => ?_,
      fun hroot hext => ?_⟩
    · rw [status_run_eq_zero_iff hargs rfl rfl, hgoes, and_assoc]
      by_cases hjson : c.json = true
      · have hdocument : w.stdout.HoldsDocument report ∧ report.IsText ↔ report.IsText :=
          and_iff_right (hout hjson)
        rw [if_pos hjson, if_pos hjson, hdocument]
      · rw [if_neg hjson, if_neg hjson]
    · have hle := status_run_le_one hargs hout
      omega
    · rw [run_of_not_stopped hargs (hgoes.2 ⟨hroot, hext⟩)]
      simp only [hjson, Bool.false_eq_true, if_false]
      exact stdout_runConsole_eq_iff.symm
    · have hstopped : stopped? w c = some (noDirectory c.givenRoot) := by
        rw [stopped?, if_pos (Bool.eq_false_iff.2 hroot)]
      rw [run_of_stopped hargs hstopped, noDirectory_eq]
    · have hnone : (c.settings w.cwd).extensions = [] :=
        Classical.not_not.1 fun h => hext (Choices.extensions_settings_ne_nil_iff.1 h)
      have hstopped : stopped? w c = some noExtensions := by
        rw [stopped?, if_neg (Bool.eq_false_iff.not_left.2 hroot), if_pos hnone]
      rw [run_of_stopped hargs hstopped, noExtensions_eq]
  · rintro before arg after rfl hbefore harg
    obtain ⟨stop, hstop⟩ := Choices.ofArguments_of_isRequest hbefore harg
    exact ⟨⟨stop, hstop⟩, tree_run_of_error hstop⟩

/-- With room for all of its output, a run in the world with the broken name succeeds if one of
two extensions can be used, and fails at once if the only one cannot. It succeeds with a document
if there is just enough room for it. A request for help is enough to leave the file alone. -/
theorem run_status_brokenNameWorld :
    let w := { brokenNameWorld with stdout := .room 120 }
    let wide := { brokenNameWorld with stdout := .room 245 }
    let given := fun args : List String => args.map fun arg => Utf8.encode arg.toList
    let two := { Choices.empty with extensions := [" .ts ".toList, ".".toList] }
    let useless := { Choices.empty with extensions := [" . ".toList] }
    let told := { Choices.empty with json := true }
    Choices.ofArguments (given ["--ext", " .ts ,."]) = .ok two ∧
    (run w (given ["--ext", " .ts ,."])).status = 0 ∧
    w.stdout.Holds (consoleText false ((two.settings []).pass [] w.tree).report) ∧
    ((two.settings []).toAlias []).AllEdited [] w.tree ((two.settings []).scan [] w.tree) ∧
    Choices.ofArguments (given ["-e", " . "]) = .ok useless ∧
    run w (given ["-e", " . "]) =
      ⟨1, [], "aliasfix: no usable extensions given\n".toList, w.tree⟩ ∧
    Choices.ofArguments (given ["--json"]) = .ok told ∧
    wide.stdout.HoldsDocument ((told.settings []).pass [] wide.tree).report ∧
    (run wide (given ["--json"])).status = 0 ∧
    ((told.settings []).pass [] wide.tree).report.IsText ∧
    (run w (given ["--ext", "-hx", "--json"])).tree = w.tree := by
  intro w wide given two useless told
  have htwo : Choices.ofArguments (given ["--ext", " .ts ,."]) = .ok two := by rfl
  have huseless : Choices.ofArguments (given ["-e", " . "]) = .ok useless := by rfl
  have htold : Choices.ofArguments (given ["--json"]) = .ok told := by rfl
  have hstatus : (run w (given ["--ext", " .ts ,."])).status = 0 := by decide +kernel
  obtain ⟨hconsole, -⟩ := (run_status w (given ["--ext", " .ts ,."])).1 two htwo
  obtain ⟨-, -, htaken, hedited⟩ := (hconsole nofun).1.1 hstatus
  obtain ⟨-, -, -, hstopped⟩ := (run_status w (given ["-e", " . "])).1 useless huseless
  have hnone : ¬ (useless.extensions = [] ∨ ∃ t ∈ useless.extensions, UsableExtension t) := by
    decide +kernel
  have hholds : wide.stdout.HoldsDocument ((told.settings []).pass [] wide.tree).report := by
    decide +kernel
  have hwide : (run wide (given ["--json"])).status = 0 := by decide +kernel
  obtain ⟨hdocument, -⟩ := (run_status wide (given ["--json"])).1 told htold
  obtain ⟨-, -, htext, -⟩ := (hdocument fun _ => hholds).1.1 hwide
  rw [if_pos rfl] at htext
  have hrequest := (run_status w (given ["--ext", "-hx", "--json"])).2.2 (given ["--ext"])
    (Utf8.encode "-hx".toList) (given ["--json"]) rfl (by decide) (.inr (.inr (.inl ⟨[0x78], rfl⟩)))
  exact ⟨htwo, hstatus, htaken, hedited, huseless, hstopped (by decide +kernel) hnone, htold, hholds,
    hwide, htext, hrequest.2⟩

end Command

end ImportAlias
