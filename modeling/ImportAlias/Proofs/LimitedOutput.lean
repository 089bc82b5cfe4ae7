import ImportAlias.Proofs.Lines
import ImportAlias.Proofs.Telling

/-!
# Runs whose output is cut short

A run on the console whose standard output takes only so many bytes, beside the same run
whose standard output takes everything. The first portion that does not fit is the end of
the output, even if a later one would fit. If this is the announcement then nothing is
edited; otherwise all files are edited as if everything had been said.

## The model

`spoken` lists the portions of a report and `fitting` the ones that are taken. Portions are
lines, except for paths with several line breaks: no fault that editing runs into has one in
its description.
-/

namespace ImportAlias

/-! ### Descriptions of faults -/

theorem SystemError.not_mem_message (e : SystemError) : '\n' ∉ e.message := by
  have hdescription : '\n' ∉ e.description.toList := by cases e <;> decide
  simp only [message, List.mem_append, not_or]
  exact ⟨⟨⟨hdescription, by decide⟩, Console.not_mem_decimal _⟩, by decide⟩

theorem Fault.not_mem_message {f : Fault} (h : ∀ cause, f ≠ .other cause) : '\n' ∉ f.message := by
  cases f with
  | system e => exact e.not_mem_message
  | notText => decide
  | nulInPath => decide
  | other cause => exact absurd rfl (h cause)

namespace FileTree

variable {t : FileTree} {cwd : Location} {p : Path} {f : Fault}

theorem ne_other_of_locate (h : t.locate cwd p = .error f) (cause : Text) : f ≠ .other cause := by
  unfold locate at h
  repeat' split at h
  all_goals cases h
  all_goals simp

theorem ne_other_of_contentAt {loc : Location} (h : t.contentAt loc = .error f) (cause : Text) :
    f ≠ .other cause := by
  unfold contentAt at h
  repeat' split at h
  all_goals cases h
  all_goals simp

theorem ne_other_of_readText (h : t.readText cwd p = .error f) (cause : Text) :
    f ≠ .other cause := by
  unfold readText readBytes at h
  cases hloc : t.locate cwd p with
  | error e =>
    rw [hloc] at h
    cases h
    exact ne_other_of_locate hloc cause
  | ok loc =>
    cases hcontent : t.contentAt loc with
    | error e =>
      simp only [hloc, hcontent] at h
      cases h
      exact ne_other_of_contentAt hcontent cause
    | ok bs =>
      simp only [hloc, hcontent] at h
      split at h
      · cases h
      · cases h
        simp

end FileTree

/-- The outcome of editing a file has no line break beside the path. -/
theorem Alias.not_mem_remark_process (a : Alias) (cwd : Location) (t : FileTree) (p : Path) :
    '\n' ∉ Console.remark (a.process cwd t p).1.status := by
  cases hread : t.readText cwd p with
  | error f =>
    have hmessage := Fault.not_mem_message (FileTree.ne_other_of_readText hread)
    rw [process_of_error hread]
    simp [Console.remark, hmessage]
  | ok text =>
    obtain ⟨loc, mode, bs, hloc, hfile, hmode, htext⟩ := FileTree.readText_eq_ok_iff.1 hread
    rw [process_of_file hloc hfile hmode htext]
    repeat' split
    all_goals simp [Console.remark, SystemError.not_mem_message]

theorem Settings.not_mem_remark_pass (s : Settings) (cwd : Location) (t : FileTree) :
    ∀ o ∈ (s.pass cwd t).report.files, '\n' ∉ Console.remark o.status := by
  rw [files_pass]
  exact Alias.forall_mem_editEach ((s.toAlias cwd).not_mem_remark_process cwd) t (s.scan cwd t)

namespace Console

/-! ### What fits -/

/-- The portions that fit into so many bytes, up to the first one that does not fit into
what is left. -/
def fitting (bytes : Nat) : List Text → List Text
  | [] => []
  | portion :: portions =>
    if (Utf8.encode portion).length ≤ bytes then
      portion :: fitting (bytes - (Utf8.encode portion).length) portions
    else []

theorem fitting_cons_eq_nil_iff {bytes : Nat} {portion : Text} {portions : List Text} :
    fitting bytes (portion :: portions) = [] ↔ fitting bytes [portion] ≠ [portion] := by
  unfold fitting
  split <;> simp [fitting]

/-- A sink with room takes what fits, and refuses the first portion that does not. -/
theorem Sink.foldl_offer_room (bytes : Nat) (taken : Text) (portions : List Text) :
    (portions.foldl offer ⟨.room bytes, taken, none⟩).taken =
        taken ++ (fitting bytes portions).flatten ∧
      (portions.foldl offer ⟨.room bytes, taken, none⟩).failure =
        if fitting bytes portions = portions then none else some .unavailable := by
  induction portions generalizing bytes taken with
  | nil => simp [fitting]
  | cons portion portions ih =>
    rw [List.foldl_cons, fitting]
    by_cases hfits : (Utf8.encode portion).length ≤ bytes
    · have hoffer : offer ⟨.room bytes, taken, none⟩ portion =
          ⟨.room (bytes - (Utf8.encode portion).length), taken ++ portion, none⟩ := by
        simp [offer, hfits]
      rw [hoffer, (ih _ _).1, (ih _ _).2]
      simp [hfits]
    · have hoffer : offer ⟨.room bytes, taken, none⟩ portion =
          ⟨.room bytes, taken, some .unavailable⟩ := by
        simp [offer, hfits]
      rw [hoffer, foldl_offer_of_failure rfl]
      simp [hfits]

end Console

namespace Command

open Console (Event Sink IsLine foundLine recordPortions summaryLine fitting lines)

/-! ### What is said -/

/-- The portions of a report on the console: the announcement, the status records, a blank
line and the summary. -/
def spoken (color : Bool) (r : Report) : List Text :=
  foundLine r.files.length ::
    (r.files.flatMap (fun o => recordPortions color o.status o.displayPath) ++
      [['\n'], summaryLine color r.fixed r.examined r.failed])

theorem consolePortions_eq {r : Report} (h : ∀ o ∈ r.files, '\n' ∉ Console.remark o.status)
    (color : Bool) : consolePortions color r = spoken color r := by
  have hfiles : r.files.flatMap (fun o => Console.portions [] ((Event.outcome o).writes color)) =
      r.files.flatMap fun o => recordPortions color o.status o.displayPath := by
    rw [List.flatMap, List.flatMap, List.map_congr_left fun o ho =>
      Console.portions_outcome (h o ho) color]
  rw [consolePortions, Console.portions_found, hfiles, Console.portions_summary, spoken]
  simp

/-- Every portion of a report ends with a line break, and has no other one unless a path has
two. -/
theorem exists_of_mem_spoken {color : Bool} {r : Report} {portion : Text}
    (h : portion ∈ spoken color r) :
    ∃ xs, portion = xs ++ ['\n'] ∧
      ((∀ o ∈ r.files, '\n' ∉ Console.remark o.status) →
        (∀ o ∈ r.files, o.displayPath.count '\n' ≤ 1) → '\n' ∉ xs) := by
  have hline : ∀ {t : Text}, IsLine t → ∃ xs, t = xs ++ ['\n'] ∧
      ((∀ o ∈ r.files, '\n' ∉ Console.remark o.status) →
        (∀ o ∈ r.files, o.displayPath.count '\n' ≤ 1) → '\n' ∉ xs) :=
    fun h => h.imp fun _ hxs => hxs.imp_right fun hnot _ _ => hnot
  simp only [spoken, List.mem_cons, List.mem_append, List.mem_flatMap, List.not_mem_nil,
    or_false] at h
  obtain rfl | ⟨o, ho, hportion⟩ | rfl | rfl := h
  · exact hline (Console.isLine_foundLine _)
  · obtain ⟨xs, hxs, hnot⟩ := Console.exists_of_mem_recordPortions hportion
    exact ⟨xs, hxs, fun hremark hshown => hnot (hremark o ho) (hshown o ho)⟩
  · exact ⟨[], rfl, fun _ _ => List.not_mem_nil⟩
  · exact hline (Console.isLine_summaryLine color r)

theorem flatten_spoken {r : Report} (h : ∀ o ∈ r.files, '\n' ∉ Console.remark o.status)
    (color : Bool) : (spoken color r).flatten = consoleText color r := by
  rw [← consolePortions_eq h, flatten_consolePortions]

/-- **A run on the console whose standard output has so much room**: what it leaves behind
depends on whether all portions fit, or not all, or not even the announcement. -/
theorem runConsole_room {w : World} {bytes : Nat} (hout : w.stdout = .room bytes) (s : Settings)
    (color : Bool) :
    runConsole w (s.toAlias w.cwd) (s.scan w.cwd w.tree) color =
      let done := s.pass w.cwd w.tree
      let said := spoken color done.report
      if fitting bytes said = said then account false color done.report done.tree
      else
        ⟨1, (fitting bytes said).flatten, outputFailed SystemError.unavailable.message,
          if fitting bytes said = [] then w.tree else done.tree⟩ := by
  have hremark := s.not_mem_remark_pass w.cwd w.tree
  rw [runConsole_eq, hout]
  dsimp only
  rw [consolePortions_eq hremark, Sink.send, Console.portions_found, Sink.new]
  generalize (s.pass w.cwd w.tree).report = r at hremark ⊢
  obtain ⟨htaken, hfailure⟩ := Sink.foldl_offer_room bytes [] (spoken color r)
  rw [htaken, hfailure, (Sink.foldl_offer_room bytes [] [foundLine r.files.length]).2]
  by_cases hall : fitting bytes (spoken color r) = spoken color r
  · rw [if_pos hall, if_pos hall, hall, List.nil_append, flatten_spoken hremark]
    rfl
  · rw [if_neg hall, if_neg hall]
    by_cases hfound : fitting bytes (spoken color r) = []
    · rw [hfound, if_neg (Console.fitting_cons_eq_nil_iff.1 hfound)]
      rfl
    · rw [if_neg hfound,
        if_pos (Decidable.not_not.1 fun h => hfound (Console.fitting_cons_eq_nil_iff.2 h))]
      rfl

/-! ### Whole runs -/

/-- The portions that a run says on the console. One that is stopped says nothing. -/
def Choices.spoken (c : Choices) (w : World) : List Text :=
  if stopped? w c = none then
    Command.spoken (c.useColor w) ((c.settings w.cwd).pass w.cwd w.tree).report
  else []

theorem outputFailed_unavailable :
    outputFailed SystemError.unavailable.message =
      "aliasfix: error writing output: Resource temporarily unavailable (os error 11)\n".toList := by
  decide

variable {w : World} {args : List Bytes} {c : Choices}

theorem Choices.spoken_of_stopped {complaint : Text} (h : stopped? w c = some complaint) :
    c.spoken w = [] := by
  rw [spoken, h]
  rfl

/-- A run that is not stopped says the announcement first. -/
theorem Choices.spoken_of_not_stopped (h : stopped? w c = none) :
    ∃ rest, c.spoken w =
      foundLine ((c.settings w.cwd).scan w.cwd w.tree).length :: rest := by
  rw [spoken, if_pos h, Command.spoken, Settings.length_files_pass]
  exact ⟨_, rfl⟩

theorem Choices.exists_of_mem_spoken {portion : Text} (h : portion ∈ c.spoken w) :
    ∃ xs, portion = xs ++ ['\n'] ∧
      ((∀ o ∈ ((c.settings w.cwd).pass w.cwd w.tree).report.files,
        o.displayPath.count '\n' ≤ 1) → '\n' ∉ xs) := by
  rw [spoken] at h
  split at h
  · obtain ⟨xs, hxs, hnot⟩ := Command.exists_of_mem_spoken h
    exact ⟨xs, hxs, hnot (Settings.not_mem_remark_pass _ w.cwd w.tree)⟩
  · cases h

theorem run_unlimited_of_console (hargs : Choices.ofArguments args = .ok c) (hjson : c.json = false)
    (h : stopped? w c = none) :
    run { w with stdout := .unlimited } args =
      account false (c.useColor w) ((c.settings w.cwd).pass w.cwd w.tree).report
        ((c.settings w.cwd).pass w.cwd w.tree).tree := by
  obtain ⟨hroot, hext⟩ := stopped?_eq_none_iff.1 h
  have hrun := run_unlimited (w := { w with stdout := .unlimited }) rfl hargs hroot hext
  rwa [hjson] at hrun

/-- An unlimited run on the console says all that it has to say. -/
theorem stdout_run_unlimited (hargs : Choices.ofArguments args = .ok c) (hjson : c.json = false) :
    (run { w with stdout := .unlimited } args).stdout = (c.spoken w).flatten := by
  cases hstopped : stopped? w c with
  | none =>
    rw [run_unlimited_of_console hargs hjson hstopped, Choices.spoken, if_pos hstopped,
      flatten_spoken (Settings.not_mem_remark_pass _ w.cwd w.tree)]
    rfl
  | some complaint =>
    have hrun := run_of_stopped (w := { w with stdout := .unlimited }) hargs hstopped
    rw [hrun, Choices.spoken_of_stopped hstopped]
    rfl

/-- A run on the console with so much room, told by what it says and by the unlimited run. -/
theorem run_room_eq (hargs : Choices.ofArguments args = .ok c) (hjson : c.json = false)
    (bytes : Nat) :
    run { w with stdout := .room bytes } args =
      let free := run { w with stdout := .unlimited } args
      let said := c.spoken w
      if fitting bytes said = said then free
      else
        ⟨1, (fitting bytes said).flatten, outputFailed SystemError.unavailable.message,
          if fitting bytes said = [] then w.tree else free.tree⟩ := by
  cases hstopped : stopped? w c with
  | none =>
    have hrun := run_of_not_stopped (w := { w with stdout := .room bytes }) hargs hstopped
    have hroom := runConsole_room (w := { w with stdout := .room bytes }) rfl (c.settings w.cwd)
      (c.useColor w)
    rw [hrun, run_unlimited_of_console hargs hjson hstopped, Choices.spoken, if_pos hstopped]
    simp only [hjson, Bool.false_eq_true, if_false, tree_account]
    exact hroom
  | some complaint =>
    have htight := run_of_stopped (w := { w with stdout := .room bytes }) hargs hstopped
    have hfree := run_of_stopped (w := { w with stdout := .unlimited }) hargs hstopped
    rw [Choices.spoken_of_stopped hstopped, htight, hfree]
    rfl

/-- Files are edited as ever if the announcement fits, and otherwise not at all. -/
theorem tree_run_room (hargs : Choices.ofArguments args = .ok c) (hjson : c.json = false)
    (bytes : Nat) :
    (run { w with stdout := .room bytes } args).tree =
      if (Utf8.encode (foundLine ((c.settings w.cwd).scan w.cwd w.tree).length)).length ≤ bytes
      then (run { w with stdout := .unlimited } args).tree else w.tree := by
  cases hstopped : stopped? w c with
  | none =>
    obtain ⟨rest, hsaid⟩ := Choices.spoken_of_not_stopped hstopped
    rw [run_room_eq hargs hjson, hsaid]
    by_cases hfits : (Utf8.encode
        (foundLine ((c.settings w.cwd).scan w.cwd w.tree).length)).length ≤ bytes
    · simp only [fitting, if_pos hfits]
      split <;> simp
    · simp [fitting, if_neg hfits]
  | some complaint =>
    have htight := run_of_stopped (w := { w with stdout := .room bytes }) hargs hstopped
    have hfree := run_of_stopped (w := { w with stdout := .unlimited }) hargs hstopped
    rw [htight, hfree, ite_self]

/-- **A run on the console whose output is cut short**, beside the same run with a standard
output that takes everything. What is said are whole lines, one at a time if no path has two
line breaks, and as much of it is taken as fits, up to the first portion that does not. If the
announcement fits, the tree is that of the unlimited run, and otherwise it is the tree that the
run found. If all fits, nothing is different; otherwise the run fails with one complaint. -/
theorem run_room (w : World) (args : List Bytes) (c : Choices) (bytes : Nat)
    (hargs : Choices.ofArguments args = .ok c) (hjson : c.json = false) :
    let free := run { w with stdout := .unlimited } args
    let tight := run { w with stdout := .room bytes } args
    let s := c.settings w.cwd
    let announcement := foundLine (s.scan w.cwd w.tree).length
    let said := c.spoken w
    free.stdout = said.flatten ∧
    (∀ portion ∈ said, ∃ text, portion = text ++ ['\n']) ∧
    ((∀ o ∈ (s.pass w.cwd w.tree).report.files, o.displayPath.count '\n' ≤ 1) →
      said = lines free.stdout) ∧
    tight.stdout = (fitting bytes said).flatten ∧
    (stopped? w c = none → said.head? = some announcement) ∧
    ((Utf8.encode announcement).length ≤ bytes → tight.tree = free.tree) ∧
    (bytes < (Utf8.encode announcement).length → tight.tree = w.tree) ∧
    (fitting bytes said = said → tight = free) ∧
    (fitting bytes said ≠ said → tight.status = 1 ∧ tight.stderr =
      "aliasfix: error writing output: Resource temporarily unavailable (os error 11)\n".toList) := by
  intro free tight s announcement said
  have hfree : free.stdout = said.flatten := stdout_run_unlimited hargs hjson
  have htight : tight = if fitting bytes said = said then free else _ :=
    run_room_eq hargs hjson bytes
  have htree : tight.tree =
      if (Utf8.encode announcement).length ≤ bytes then free.tree else w.tree :=
    tree_run_room hargs hjson bytes
  refine ⟨hfree, fun portion hmem => ?_, fun hshown => ?_, ?_, fun hstopped => ?_, fun hfits => ?_,
    fun hfits => ?_, fun hall => ?_, fun hall => ?_⟩
  · exact (Choices.exists_of_mem_spoken hmem).imp fun _ hxs => hxs.1
  · have hline : ∀ portion ∈ said, IsLine portion := fun portion hmem =>
      (Choices.exists_of_mem_spoken hmem).imp fun _ hxs => ⟨hxs.1, hxs.2 hshown⟩
    rw [hfree, Console.lines_flatten hline]
  · rw [htight]
    split
    · next hall => rw [hfree, hall]
    · rfl
  · obtain ⟨rest, hsaid⟩ := Choices.spoken_of_not_stopped hstopped
    exact congrArg List.head? hsaid
  · rw [htree, if_pos hfits]
  · rw [htree, if_neg (Nat.not_le_of_lt hfits)]
  · rw [htight, if_pos hall]
  · rw [htight, if_neg hall]
    exact ⟨rfl, outputFailed_unavailable⟩

/-- A world with one file that needs a change, whose name has two line breaks. -/
def brokenNameWorld : World :=
  { tree := FileTree.empty.put (["src", "a\nb\nc.ts"].map fun n => Utf8.encode n.toList)
      (.file (Utf8.encode "import x from '../x';\n".toList)) none
    cwd := []
    noColor := false
    forceColor := false
    stdout := .unlimited }

/-- With room for the announcement and all but the last line of the status record, both are said,
the file is changed and the run fails. -/
theorem run_room_brokenNameWorld :
    let tight := run { brokenNameWorld with stdout := .room 59 } []
    Choices.ofArguments [] = .ok .empty ∧ Choices.empty.json = false ∧
      tight.stdout =
        "Found 1 files with relative imports to fix:\nFixed: src/a\nb\n".toList ∧
      tight.tree = (run brokenNameWorld []).tree ∧ tight.status = 1 := by
  have hargs : Choices.ofArguments [] = .ok .empty := rfl
  obtain ⟨-, -, -, -, -, htree, -, -, hfail⟩ := run_room brokenNameWorld [] .empty 59 hargs rfl
  have hcut : fitting 59 (Choices.empty.spoken brokenNameWorld) ≠
      Choices.empty.spoken brokenNameWorld := by decide +kernel
  exact ⟨hargs, rfl, by decide +kernel, htree (by decide +kernel), (hfail hcut).1⟩

/-- With a little less room the whole record is lost, although its first line would fit. -/
theorem stdout_brokenNameWorld_ne_fitting_lines :
    let tight := run { brokenNameWorld with stdout := .room 57 } []
    let free := run brokenNameWorld []
    Choices.ofArguments [] = .ok .empty ∧ Choices.empty.json = false ∧
      tight.stdout = "Found 1 files with relative imports to fix:\n".toList ∧
      (fitting 57 (lines free.stdout)).flatten =
        "Found 1 files with relative imports to fix:\nFixed: src/a\n".toList ∧
      tight.stdout ≠ (fitting 57 (lines free.stdout)).flatten := by
  intro tight free
  have htight : tight.stdout = "Found 1 files with relative imports to fix:\n".toList := by
    decide +kernel
  have hlines : (fitting 57 (lines free.stdout)).flatten =
      "Found 1 files with relative imports to fix:\nFixed: src/a\n".toList := by
    decide +kernel
  refine ⟨rfl, rfl, htight, hlines, ?_⟩
  rw [htight, hlines]
  decide

end Command

end ImportAlias
