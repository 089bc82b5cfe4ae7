import ImportAlias.Console.Style
import ImportAlias.Report

/-!
# What a run says

A run first says how many files it found, then how each of them fared, and at
the end how many it changed. `Event` is one such message and `Event.pieces` its
words.
-/

namespace ImportAlias.Console

/-- A message of a run. -/
inductive Event where
  /-- So many candidates were found. -/
  | found (count : Nat)
  /-- A file was dealt with. -/
  | outcome (o : Outcome)
  /-- The run is over. -/
  | summary (r : Report)

/-- How a changed file stands out. -/
def fixedStyle : Style := ⟨true, false, some .green⟩

/-- How an unchanged file stands out. -/
def unchangedStyle : Style := ⟨false, true, none⟩

/-- How a failed file stands out. -/
def failedStyle : Style := ⟨true, false, some .red⟩

/-- How the summary's heading stands out. -/
def headingStyle : Style := ⟨true, false, none⟩

/-- How the number of failures stands out. -/
def failureCountStyle : Style := ⟨false, false, some .red⟩

/-- The status line of a file. -/
def outcomePieces (o : Outcome) : List Piece :=
  match o.status with
  | .fixed =>
    [.styled fixedStyle "Fixed:".toList, .plain [' '], .plain o.displayPath, .plain ['\n']]
  | .unchanged =>
    [.styled unchangedStyle "No changes:".toList, .plain [' '], .plain o.displayPath, .plain ['\n']]
  | .failed cause =>
    [.styled failedStyle "Error processing".toList, .plain [' '], .plain o.displayPath,
     .plain [':', ' '], .plain cause, .plain ['\n']]

/-- The blank line and the summary line at the end of a run. -/
def summaryPieces (r : Report) : List Piece :=
  [.plain ['\n'], .styled headingStyle "Summary:".toList,
   .plain (" Fixed ".toList ++ decimal r.fixed ++ " files out of ".toList ++ decimal r.examined ++
     " total".toList)] ++
  (if 0 < r.failed then
    [.plain [' ', '('], .styled failureCountStyle (decimal r.failed ++ " failed".toList),
     .plain [')']]
  else []) ++
  [.plain ['\n']]

/-- The words of a message. -/
def Event.pieces : Event → List Piece
  | .found n =>
    [.plain ("Found ".toList ++ decimal n ++ " files with relative imports to fix:\n".toList)]
  | .outcome o => outcomePieces o
  | .summary r => summaryPieces r

/-- A message as it is sent out, piece by piece. -/
def Event.writes (color : Bool) (e : Event) : List Text := e.pieces.map (Piece.render color)

/-- A message as it is sent out. -/
def Event.render (color : Bool) (e : Event) : Text := Console.render color e.pieces

/-- The pieces of a message make up the message. -/
theorem Event.flatten_writes (color : Bool) (e : Event) :
    (e.writes color).flatten = e.render color := by
  simp [Event.writes, Event.render, Console.render, List.flatMap]

end ImportAlias.Console
