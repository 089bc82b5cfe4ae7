import ImportAlias.Proofs.AddedOption
import ImportAlias.Proofs.JsonGrammar
import ImportAlias.Proofs.Lines
import ImportAlias.Proofs.Telling

/-!
# The console and the document

A run that tells its report as a document, beside the same run on the console. Both leave the
same tree. The document exists exactly if the root and all paths of the report are texts, and
then everything that the console says can be told from the document alone.

## The model

`retold?` reads a document: the number of files looked at becomes the announcement, each file
its status record, and the counts the summary. It looks at the members of the document only
and knows nothing of reports.
-/

namespace ImportAlias

/-! ### Reading documents -/

namespace Json

/-- The member of an object with a name. -/
def member? (name : String) : Json → Option Json
  | .object members => (members.find? fun m => m.1 = name.toList).map (·.2)
  | _ => none

/-- The text of a string. -/
def text? : Json → Option Text
  | .string t => some t
  | _ => none

/-- The value of a number. -/
def number? : Json → Option Nat
  | .number n => some n
  | _ => none

/-- The items of an array. -/
def items? : Json → Option (List Json)
  | .array items => some items
  | _ => none

end Json

namespace Console

/-- The status that a file of a document has. -/
def statusOf? (j : Json) : Option Status := do
  let tag ← (j.member? "status").bind Json.text?
  if tag = "rewritten".toList then some .fixed
  else if tag = "unchanged".toList then some .unchanged
  else if tag = "failed".toList then ((j.member? "error").bind Json.text?).map .failed
  else none

/-- The status record of a file of a document. -/
def recordOf? (color : Bool) (j : Json) : Option Text := do
  let status ← statusOf? j
  let shown ← (j.member? "display_path").bind Json.text?
  return statusRecord color status shown

/-- What the console says of a report that is given as a document. -/
def retold? (color : Bool) (j : Json) : Option Text := do
  let examined ← (j.member? "examined").bind Json.number?
  let fixed ← (j.member? "rewritten").bind Json.number?
  let failed ← (j.member? "failed").bind Json.number?
  let files ← (j.member? "files").bind Json.items?
  let records ← files.mapM (recordOf? color)
  return foundLine examined ++ records.flatten ++ '\n' :: summaryLine color fixed examined failed

theorem recordOf?_of_toJson? {o : Outcome} {j : Json} (h : o.toJson? = some j) (color : Bool) :
    recordOf? color j = some (statusRecord color o.status o.displayPath) := by
  obtain ⟨path, -, rfl⟩ := Option.map_eq_some_iff.1 h
  cases o.status <;> rfl

end Console

/-! ### Which reports have a document -/

theorem isSome_mapM_iff {α β : Type} {f : α → Option β} {xs : List α} :
    (xs.mapM f).isSome ↔ ∀ x ∈ xs, (f x).isSome := by
  induction xs with
  | nil => simp
  | cons x xs ih =>
    cases hx : f x with
    | none => simp [List.mapM_cons, hx]
    | some y => cases hxs : xs.mapM f <;> simp_all [List.mapM_cons]

/-- What is read from each of the results is read from all of them. -/
theorem mapM_eq_some_map {α β γ : Type} {f : α → Option β} {g : β → Option γ} {k : α → γ}
    {xs : List α} {ys : List β} (h : xs.mapM f = some ys)
    (hread : ∀ x y, f x = some y → g y = some (k x)) : ys.mapM g = some (xs.map k) := by
  induction xs generalizing ys with
  | nil =>
    cases h
    rfl
  | cons x xs ih =>
    rw [List.mapM_cons] at h
    obtain ⟨y, hy, h⟩ := Option.bind_eq_some_iff.1 h
    obtain ⟨ys', hys, h⟩ := Option.bind_eq_some_iff.1 h
    cases h
    rw [List.mapM_cons, hread x y hy, ih hys]
    rfl

/-- A report of texts: its root and the paths of its files are UTF-8. -/
def Report.IsText (r : Report) : Prop :=
  (Utf8.decode? r.root.bytes).isSome ∧ ∀ o ∈ r.files, (Utf8.decode? o.path.bytes).isSome

instance (r : Report) : Decidable r.IsText := inferInstanceAs (Decidable (_ ∧ _))

theorem Report.isSome_toJson?_iff {r : Report} : r.toJson?.isSome ↔ r.IsText := by
  have hfiles : (r.files.mapM Outcome.toJson?).isSome ↔
      ∀ o ∈ r.files, (Utf8.decode? o.path.bytes).isSome := by
    rw [isSome_mapM_iff]
    simp only [Outcome.toJson?, Path.toJson?, Option.isSome_map]
  rw [IsText, ← hfiles, toJson?, Path.toJson?]
  cases Utf8.decode? r.root.bytes <;> cases r.files.mapM Outcome.toJson? <;> simp

/-! ### Telling from a document -/

theorem mapM_recordOf? {os : List Outcome} {js : List Json}
    (h : os.mapM Outcome.toJson? = some js) (color : Bool) :
    js.mapM (Console.recordOf? color) =
      some (os.map fun o => Console.statusRecord color o.status o.displayPath) :=
  mapM_eq_some_map h fun _ _ hj => Console.recordOf?_of_toJson? hj color

/-- All that the console says of a report is in its document. -/
theorem Console.retold?_of_toJson? {r : Report} {j : Json} (h : r.toJson? = some j)
    (hcount : r.examined = r.files.length) (color : Bool) :
    retold? color j = some (Command.consoleText color r) := by
  unfold Report.toJson? at h
  split at h
  · next root files _ hfiles =>
    cases h
    have hread : retold? color (.object [("root".toList, root),
          ("examined".toList, .number r.examined), ("rewritten".toList, .number r.fixed),
          ("unchanged".toList, .number r.unchanged), ("failed".toList, .number r.failed),
          ("files".toList, .array files)]) =
        (files.mapM (recordOf? color)).bind fun records =>
          some (foundLine r.examined ++ records.flatten ++
            '\n' :: summaryLine color r.fixed r.examined r.failed) := rfl
    rw [hread, mapM_recordOf? hfiles, Option.bind_some, Command.consoleText, render_found,
      render_summary, hcount, List.flatMap]
    simp only [render_outcome]
  · cases h

namespace Command

open Console (retold?)

theorem account_of_isText {r : Report} (h : r.IsText) (color : Bool) (t : FileTree) :
    ∃ j, r.toJson? = some j ∧
      account true color r t = ⟨reportStatus r, j.pretty ++ ['\n'], [], t⟩ := by
  obtain ⟨j, hj⟩ := Option.isSome_iff_exists.1 (Report.isSome_toJson?_iff.2 h)
  refine ⟨j, hj, ?_⟩
  rw [account, hj]
  rfl

theorem account_of_not_isText {r : Report} (h : ¬ r.IsText) (color : Bool) (t : FileTree) :
    account true color r t = ⟨1, [], outputFailed Report.noDocument, t⟩ := by
  have hnone : r.toJson? = none :=
    Option.not_isSome_iff_eq_none.1 fun hsome => h (Report.isSome_toJson?_iff.1 hsome)
  rw [account, hnone]
  rfl

/-- **The console and the document agree.** The second command line chooses the same as the
first one but asks for a document, and says anything about colors. Both runs leave the same
tree. If they are stopped, they do the same. Otherwise, if the report is one of texts, they
have the same status, the second one prints a text of the document, and what the console says can
be told from the document; and if it is not, there is no document and the second run fails. -/
theorem run_json_retells (w : World) (args jsonArgs : List Bytes) (c : Choices)
    (color : Option ColorMode) (hout : w.stdout = .unlimited)
    (hargs : Choices.ofArguments args = .ok c) (hjson : c.json = false)
    (hjsonArgs : Choices.ofArguments jsonArgs = .ok { c with json := true, color := color }) :
    let console := run w args
    let document := run w jsonArgs
    let report := ((c.settings w.cwd).pass w.cwd w.tree).report
    document.tree = console.tree ∧
    (stopped? w c ≠ none → document = console) ∧
    (stopped? w c = none → report.IsText →
      document.status = console.status ∧ document.stderr = console.stderr ∧
      ∃ j, report.toJson? = some j ∧ document.stdout = j.pretty ++ ['\n'] ∧
        Json.Document j document.stdout ∧ retold? (c.useColor w) j = some console.stdout) ∧
    (stopped? w c = none → ¬ report.IsText →
      document.status = 1 ∧ document.stdout = [] ∧
      document.stderr = outputFailed Report.noDocument) ∧
    Choices.ofArguments (jsonOption :: args) = .ok { c with json := true } ∧
    (c.color = none → ∀ mode,
      Choices.ofArguments (colorOption mode :: args) = .ok { c with color := some mode }) := by
  intro console document report
  have hcons := Choices.ofArguments_cons_json hargs hjson
  have hcolor := Choices.ofArguments_cons_color hargs
  by_cases hstopped : stopped? w c = none
  · obtain ⟨hroot, hext⟩ := stopped?_eq_none_iff.1 hstopped
    have hconsole := run_unlimited hout hargs hroot hext
    have hdocument : document = account true _ report _ := run_unlimited hout hjsonArgs hroot hext
    rw [hjson, show run w args = console from rfl] at hconsole
    refine ⟨?_, fun h => absurd hstopped h, fun _ htext => ?_, fun _ htext => ?_, hcons, hcolor⟩
    · rw [hconsole, hdocument, tree_account, tree_account]
      rfl
    · obtain ⟨j, hj, haccount⟩ := account_of_isText htext _ _
      rw [hdocument, hconsole, haccount]
      exact ⟨rfl, rfl, j, hj, rfl, Json.document_pretty j ['\n'] rfl,
        Console.retold?_of_toJson? hj (Settings.examined_pass _ w.cwd w.tree) _⟩
    · rw [hdocument, account_of_not_isText htext]
      exact ⟨rfl, rfl, rfl⟩
  · obtain ⟨complaint, hcomplaint⟩ := Option.ne_none_iff_exists'.1 hstopped
    have hconsole : console = _ := run_of_stopped hargs hcomplaint
    have hdocument : document = _ := run_of_stopped hjsonArgs hcomplaint
    rw [hconsole, hdocument]
    exact ⟨rfl, fun _ => rfl, fun h => absurd h hstopped, fun h => absurd h hstopped, hcons, hcolor⟩

/-- A world with a file that looks as if it had an import, one that has, and one that has but
may not be written. -/
def threefoldWorld : World :=
  let text := Utf8.encode "import a from '../a'".toList
  let place := fun n : String => ["src", n].map fun n => Utf8.encode n.toList
  { tree := ((FileTree.empty.put (place "x.ts") (.file (Utf8.encode "from '../a'".toList)) none).put
      (place "y.ts") (.file text) none).put (place "z.ts") (.file text) (some ⟨true, false, false⟩)
    cwd := []
    noColor := false
    forceColor := false
    stdout := .unlimited }

/-- In this world the three kinds of outcomes can all be told from the document. -/
theorem run_json_retells_threefoldWorld :
    let console := run threefoldWorld []
    let document := run threefoldWorld [colorOption .always, jsonOption]
    Choices.ofArguments [] = .ok .empty ∧
      Choices.ofArguments [colorOption .always, jsonOption] =
        .ok { Choices.empty with json := true, color := some .always } ∧
      console.stdout = ("Found 3 files with relative imports to fix:\n" ++
        "No changes: src/x.ts\nFixed: src/y.ts\n" ++
        "Error processing src/z.ts: Permission denied (os error 13)\n" ++
        "\nSummary: Fixed 1 files out of 3 total (1 failed)\n").toList ∧
      document.tree = console.tree ∧ document.status = console.status ∧
      ∃ j, document.stdout = Json.pretty j ++ ['\n'] ∧ Json.Document j document.stdout ∧
        retold? false j = some console.stdout := by
  have hargs : Choices.ofArguments [] = .ok .empty := rfl
  have hjsonArgs : Choices.ofArguments [colorOption .always, jsonOption] =
      .ok { Choices.empty with json := true, color := some .always } := by rfl
  obtain ⟨htree, -, hretold, -⟩ := run_json_retells threefoldWorld [] _ .empty (some .always) rfl hargs
    rfl hjsonArgs
  obtain ⟨hstatus, -, j, -, hdocument⟩ := hretold (by decide +kernel) (by decide +kernel)
  exact ⟨hargs, hjsonArgs, by decide +kernel, htree, hstatus, j, hdocument⟩

end Command

end ImportAlias
