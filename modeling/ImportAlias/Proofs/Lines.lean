import ImportAlias.Console.Message
import ImportAlias.Console.Sink

/-!
# Lines and portions

Output goes out in portions that end with a line break. A message of a run goes out line by
line, with one exception: the path in a status record is a single piece, and if it has line
breaks then all of the record up to the last of them is one portion.

## The model

`foundLine`, `statusRecord` and `summaryLine` are the texts of the messages, and
`recordPortions` the portions of a status record. `lines` cuts a text after each line break.
-/

namespace ImportAlias.Console

/-! ### Lines of a text -/

/-- The lines of a text, each with its break. What is left without one comes last. -/
def lines : Text → List Text
  | [] => []
  | c :: t =>
    if c = '\n' then [c] :: lines t
    else
      match lines t with
      | [] => [[c]]
      | l :: ls => (c :: l) :: ls

/-- One line with its break. -/
def IsLine (t : Text) : Prop := ∃ xs, t = xs ++ ['\n'] ∧ '\n' ∉ xs

/-- A line with its break comes first. -/
theorem lines_append_break {xs : Text} (h : '\n' ∉ xs) (ys : Text) :
    lines (xs ++ '\n' :: ys) = (xs ++ ['\n']) :: lines ys := by
  induction xs with
  | nil => rfl
  | cons c xs ih =>
    have hc : c ≠ '\n' := fun e => h (by rw [e]; exact List.mem_cons_self)
    rw [List.cons_append, lines, if_neg hc, ih fun hmem => h (List.mem_cons_of_mem _ hmem)]
    rfl

/-- A text made of lines is cut into these lines. -/
theorem lines_flatten {ls : List Text} (h : ∀ l ∈ ls, IsLine l) : lines ls.flatten = ls := by
  induction ls with
  | nil => rfl
  | cons l ls ih =>
    obtain ⟨⟨xs, rfl, hxs⟩, hls⟩ := List.forall_mem_cons.1 h
    rw [List.flatten_cons, List.append_assoc, List.singleton_append, lines_append_break hxs, ih hls]

/-! ### Portions -/

theorem cutLines?_of_not_mem {t : Text} (h : '\n' ∉ t) : cutLines? t = none := by
  induction t with
  | nil => rfl
  | cons c t ih =>
    rw [List.mem_cons, not_or] at h
    rw [cutLines?, ih h.2]
    exact if_neg (Ne.symm h.1)

theorem not_mem_of_cutLines? {t : Text} (h : cutLines? t = none) : '\n' ∉ t := by
  induction t with
  | nil => simp
  | cons c t ih =>
    rw [cutLines?] at h
    split at h
    · cases h
    · next ht =>
      split at h
      · cases h
      · next hc => simp [Ne.symm hc, ih ht]

/-- A cut is made after the last line break. -/
theorem exists_of_cutLines? {t whole rest : Text} (h : cutLines? t = some (whole, rest)) :
    ∃ xs, whole = xs ++ ['\n'] ∧ t = xs ++ '\n' :: rest ∧ '\n' ∉ rest := by
  induction t generalizing whole with
  | nil => cases h
  | cons c t ih =>
    rw [cutLines?] at h
    split at h
    · next ls r heq =>
      simp only [Option.some.injEq, Prod.mk.injEq] at h
      obtain ⟨rfl, rfl⟩ := h
      obtain ⟨xs, rfl, ht, hr⟩ := ih heq
      exact ⟨c :: xs, rfl, by rw [ht]; rfl, hr⟩
    · next ht =>
      split at h
      · next hc =>
        simp only [Option.some.injEq, Prod.mk.injEq] at h
        obtain ⟨rfl, rfl⟩ := h
        exact ⟨[], by rw [hc]; rfl, by rw [hc]; rfl, not_mem_of_cutLines? ht⟩
      · cases h

theorem cutLines?_append_break (xs : Text) {rest : Text} (h : '\n' ∉ rest) :
    cutLines? (xs ++ '\n' :: rest) = some (xs ++ ['\n'], rest) := by
  induction xs with
  | nil => rw [List.nil_append, cutLines?, cutLines?_of_not_mem h]; rfl
  | cons c xs ih => rw [List.cons_append, cutLines?, ih]; rfl

/-- Pieces without a line break wait for the next one. -/
theorem portions_append {waiting : Text} {quiet : List Text} (h : ∀ piece ∈ quiet, '\n' ∉ piece)
    (pieces : List Text) :
    portions waiting (quiet ++ pieces) = portions (waiting ++ quiet.flatten) pieces := by
  induction quiet generalizing waiting with
  | nil => rw [List.nil_append, List.flatten_nil, List.append_nil]
  | cons piece quiet ih =>
    obtain ⟨hpiece, hquiet⟩ := List.forall_mem_cons.1 h
    rw [List.cons_append, portions, cutLines?_of_not_mem hpiece]
    dsimp only
    rw [ih hquiet, List.flatten_cons, List.append_assoc]

/-- A line break at the end lets out all that waits. -/
theorem portions_break (waiting : Text) : portions waiting [['\n']] = [waiting ++ ['\n']] := rfl

/-! ### Pieces -/

theorem not_mem_decimal_of_not_isDigit {c : Char} (h : ¬ c.isDigit) (n : Nat) : c ∉ decimal n :=
  fun hc => h (Nat.isDigit_of_mem_toDigits (by decide) (by decide) hc)

theorem not_mem_decimal (n : Nat) : '\n' ∉ decimal n :=
  not_mem_decimal_of_not_isDigit (by decide) n

theorem Style.not_mem_begin (s : Style) : '\n' ∉ s.begin := by
  obtain ⟨bold, dimmed, color⟩ := s
  cases bold <;> cases dimmed <;> match color with
    | none => decide
    | some .red => decide
    | some .green => decide

/-- Colors add no line break. -/
theorem Piece.not_mem_render {s : Style} {t : Text} (h : '\n' ∉ t) (color : Bool) :
    '\n' ∉ (Piece.styled s t).render color := by
  have hreset : '\n' ∉ reset := by decide
  cases color with
  | false => exact h
  | true => simp [Piece.render, h, hreset, s.not_mem_begin]

/-! ### The announcement -/

/-- The line that says how many files were found. -/
def foundLine (count : Nat) : Text :=
  "Found ".toList ++ decimal count ++ " files with relative imports to fix:\n".toList

theorem isLine_foundLine (count : Nat) : IsLine (foundLine count) := by
  refine ⟨"Found ".toList ++ decimal count ++ " files with relative imports to fix:".toList, ?_, ?_⟩
  · rw [List.append_assoc _ _ ['\n']]
    rfl
  · simp only [List.mem_append, not_or]
    exact ⟨⟨by decide, not_mem_decimal _⟩, by decide⟩

theorem render_found (color : Bool) (count : Nat) :
    (Event.found count).render color = foundLine count :=
  List.append_nil (foundLine count)

theorem portions_found (color : Bool) (count : Nat) :
    portions [] ((Event.found count).writes color) = [foundLine count] := by
  obtain ⟨xs, hline, -⟩ := isLine_foundLine count
  have hwrites : (Event.found count).writes color = [foundLine count] := rfl
  rw [hwrites, hline, portions, cutLines?_append_break xs (by simp)]
  rfl

/-! ### Status records -/

/-- The label of a status. -/
def label : Status → Piece
  | .fixed => .styled fixedStyle "Fixed:".toList
  | .unchanged => .styled unchangedStyle "No changes:".toList
  | .failed _ => .styled failedStyle "Error processing".toList

/-- What a record says about a status after the path. -/
def remark : Status → Text
  | .failed cause => ':' :: ' ' :: cause
  | _ => []

/-- The status record of a file that is shown as `shown`. -/
def statusRecord (color : Bool) (s : Status) (shown : Text) : Text :=
  (label s).render color ++ [' '] ++ shown ++ (remark s ++ ['\n'])

/-- The portions of a status record: it is cut after the last line break of the path, if the
path has one. -/
def recordPortions (color : Bool) (s : Status) (shown : Text) : List Text :=
  match cutLines? shown with
  | none => [statusRecord color s shown]
  | some (whole, rest) => [(label s).render color ++ [' '] ++ whole, rest ++ (remark s ++ ['\n'])]

theorem not_mem_label (color : Bool) (s : Status) : '\n' ∉ (label s).render color := by
  cases s <;> exact Piece.not_mem_render (by decide) color

theorem writes_outcome (color : Bool) (o : Outcome) :
    ∃ pieces, (Event.outcome o).writes color =
        [(label o.status).render color, [' ']] ++ o.displayPath :: (pieces ++ [['\n']]) ∧
      pieces.flatten = remark o.status := by
  cases ho : o.status with
  | fixed => exact ⟨[], by rw [Event.writes, Event.pieces, outcomePieces, ho]; rfl, rfl⟩
  | unchanged => exact ⟨[], by rw [Event.writes, Event.pieces, outcomePieces, ho]; rfl, rfl⟩
  | failed cause =>
    refine ⟨[[':', ' '], cause], ?_, by simp [remark]⟩
    rw [Event.writes, Event.pieces, outcomePieces, ho]
    rfl

theorem render_outcome (color : Bool) (o : Outcome) :
    (Event.outcome o).render color = statusRecord color o.status o.displayPath := by
  obtain ⟨pieces, hwrites, hremark⟩ := writes_outcome color o
  rw [← Event.flatten_writes, hwrites, statusRecord, ← hremark]
  simp

/-- A status record goes out in one or two portions. -/
theorem portions_outcome {o : Outcome} (h : '\n' ∉ remark o.status) (color : Bool) :
    portions [] ((Event.outcome o).writes color) =
      recordPortions color o.status o.displayPath := by
  obtain ⟨pieces, hwrites, hremark⟩ := writes_outcome color o
  have hlead : ∀ piece ∈ [(label o.status).render color, [' ']], '\n' ∉ piece := by
    simp [not_mem_label]
  have hpieces : ∀ piece ∈ pieces, '\n' ∉ piece := fun piece hpiece hmem =>
    h (hremark ▸ List.mem_flatten.2 ⟨piece, hpiece, hmem⟩)
  rw [hwrites, portions_append hlead, portions, recordPortions]
  cases cutLines? o.displayPath with
  | none =>
    dsimp only
    rw [portions_append hpieces, portions_break, hremark, statusRecord]
    simp
  | some cut =>
    dsimp only
    rw [portions_append hpieces, portions_break, hremark]
    simp

/-- Every portion of a status record ends with a line break, and has no other one unless the
path has two. -/
theorem exists_of_mem_recordPortions {color : Bool} {s : Status} {shown portion : Text}
    (h : portion ∈ recordPortions color s shown) :
    ∃ xs, portion = xs ++ ['\n'] ∧ ('\n' ∉ remark s → shown.count '\n' ≤ 1 → '\n' ∉ xs) := by
  have hlabel := not_mem_label color s
  rw [recordPortions] at h
  split at h
  · next hcut =>
    obtain rfl := List.mem_singleton.1 h
    refine ⟨(label s).render color ++ [' '] ++ shown ++ remark s, by simp [statusRecord],
      fun hremark _ => ?_⟩
    simp [hlabel, hremark, not_mem_of_cutLines? hcut]
  · next whole rest hcut =>
    obtain ⟨xs, rfl, rfl, hrest⟩ := exists_of_cutLines? hcut
    simp only [List.mem_cons, List.not_mem_nil, or_false] at h
    obtain rfl | rfl := h
    · refine ⟨(label s).render color ++ [' '] ++ xs, by simp, fun _ hshown => ?_⟩
      have hxs : '\n' ∉ xs := by
        rw [List.count_append, List.count_cons_self] at hshown
        exact List.count_eq_zero.1 (by omega)
      simp [hlabel, hxs]
    · refine ⟨rest ++ remark s, by simp, fun hremark _ => ?_⟩
      simp [hrest, hremark]

/-! ### The summary -/

/-- The summary of a run. -/
def summaryLine (color : Bool) (fixed examined failed : Nat) : Text :=
  (Piece.styled headingStyle "Summary:".toList).render color ++
    (" Fixed ".toList ++ decimal fixed ++ " files out of ".toList ++ decimal examined ++
      " total".toList) ++
    (if 0 < failed then
      " (".toList ++ (Piece.styled failureCountStyle (decimal failed ++ " failed".toList)).render color ++
        [')']
    else []) ++
    ['\n']

theorem writes_summary (color : Bool) (r : Report) :
    ∃ pieces, (Event.summary r).writes color = ['\n'] :: (pieces ++ [['\n']]) ∧
      (∀ piece ∈ pieces, '\n' ∉ piece) ∧
      pieces.flatten ++ ['\n'] = summaryLine color r.fixed r.examined r.failed := by
  have hheading : '\n' ∉ (Piece.styled headingStyle "Summary:".toList).render color :=
    Piece.not_mem_render (by decide) color
  have hcounts : '\n' ∉ " Fixed ".toList ++ decimal r.fixed ++ " files out of ".toList ++
      decimal r.examined ++ " total".toList := by
    simp only [List.mem_append, not_or]
    exact ⟨⟨⟨⟨by decide, not_mem_decimal _⟩, by decide⟩, not_mem_decimal _⟩, by decide⟩
  have hfailed : '\n' ∉ (Piece.styled failureCountStyle
      (decimal r.failed ++ " failed".toList)).render color := by
    refine Piece.not_mem_render ?_ color
    simp only [List.mem_append, not_or]
    exact ⟨not_mem_decimal _, by decide⟩
  by_cases h : 0 < r.failed
  · refine ⟨[(Piece.styled headingStyle "Summary:".toList).render color,
      " Fixed ".toList ++ decimal r.fixed ++ " files out of ".toList ++ decimal r.examined ++
        " total".toList, [' ', '('],
      (Piece.styled failureCountStyle (decimal r.failed ++ " failed".toList)).render color, [')']],
      ?_, ?_, ?_⟩
    · rw [Event.writes, Event.pieces, summaryPieces, if_pos h]
      rfl
    · simp only [List.forall_mem_cons]
      exact ⟨hheading, hcounts, by decide, hfailed, by decide, by simp⟩
    · rw [summaryLine, if_pos h]
      simp
  · refine ⟨[(Piece.styled headingStyle "Summary:".toList).render color,
      " Fixed ".toList ++ decimal r.fixed ++ " files out of ".toList ++ decimal r.examined ++
        " total".toList], ?_, ?_, ?_⟩
    · rw [Event.writes, Event.pieces, summaryPieces, if_neg h]
      rfl
    · simp only [List.forall_mem_cons]
      exact ⟨hheading, hcounts, by simp⟩
    · rw [summaryLine, if_neg h]
      simp

theorem render_summary (color : Bool) (r : Report) :
    (Event.summary r).render color =
      '\n' :: summaryLine color r.fixed r.examined r.failed := by
  obtain ⟨pieces, hwrites, -, hline⟩ := writes_summary color r
  rw [← Event.flatten_writes, hwrites, ← hline]
  simp

/-- The blank line and the summary are two portions. -/
theorem portions_summary (color : Bool) (r : Report) :
    portions [] ((Event.summary r).writes color) =
      [['\n'], summaryLine color r.fixed r.examined r.failed] := by
  obtain ⟨pieces, hwrites, hpieces, hline⟩ := writes_summary color r
  have hbreak : portions [] (['\n'] :: (pieces ++ [['\n']])) =
      ['\n'] :: portions [] (pieces ++ [['\n']]) := rfl
  rw [hwrites, hbreak, portions_append hpieces, portions_break, List.nil_append, hline]

theorem isLine_summaryLine (color : Bool) (r : Report) :
    IsLine (summaryLine color r.fixed r.examined r.failed) := by
  obtain ⟨pieces, -, hpieces, hline⟩ := writes_summary color r
  refine ⟨pieces.flatten, hline.symm, fun hmem => ?_⟩
  obtain ⟨piece, hpiece, hbreak⟩ := List.mem_flatten.1 hmem
  exact hpieces piece hpiece hbreak

end ImportAlias.Console
