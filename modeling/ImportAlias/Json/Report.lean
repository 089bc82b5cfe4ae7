import ImportAlias.Json.Basic
import ImportAlias.Report

/-!
# Reports as JSON

A report becomes an object with its root, its counts and its outcomes. JSON
holds texts only, so a report with a path that is not UTF-8 has no document.
-/

namespace ImportAlias

/-- The word for a status in a document. -/
def Status.tag : Status → Text
  | .fixed => "rewritten".toList
  | .unchanged => "unchanged".toList
  | .failed _ => "failed".toList

/-- The members that tell a status. -/
def Status.members (s : Status) : List (Text × Json) :=
  ("status".toList, .string s.tag) ::
    match s with
    | .failed cause => [("error".toList, .string cause)]
    | _ => []

/-- The path as a JSON string, if it is a text. -/
def Path.toJson? (p : Path) : Option Json := (Utf8.decode? p.bytes).map .string

/-- The outcome as a document. A count of no replacements is left out. -/
def Outcome.toJson? (o : Outcome) : Option Json :=
  o.path.toJson?.map fun path =>
    .object ([("path".toList, path), ("display_path".toList, .string o.displayPath)] ++
      o.status.members ++
      if o.replacements = 0 then [] else [("replacements".toList, .number o.replacements)])

/-- The report as a document. -/
def Report.toJson? (r : Report) : Option Json :=
  match r.root.toJson?, r.files.mapM Outcome.toJson? with
  | some root, some files =>
    some (.object [("root".toList, root), ("examined".toList, .number r.examined),
      ("rewritten".toList, .number r.fixed), ("unchanged".toList, .number r.unchanged),
      ("failed".toList, .number r.failed), ("files".toList, .array files)])
  | _, _ => none

/-- What is said of a report that has no document. -/
def Report.noDocument : Text := "path contains invalid UTF-8 characters".toList

end ImportAlias
