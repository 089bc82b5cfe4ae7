import ImportAlias.Proofs.Editing
import Mathlib.Data.List.Basic

/-!
# Module headers

A module header is a list of import and re-export statements with white space and
semicolons between them. An edit of a header replaces the relative specifiers of the
statements that import, and nothing else.

The statements are separated for the human reader only: a match may start in one
statement and end in a later one. What makes the result come out right is that a reader
with an import live is still live at the next `from` of an import statement, and is not
live at the `from` of a re-export, because a semicolon stands before it.
-/

namespace ImportAlias

namespace Import

/-! ### Plain text for the reader -/

/-- A clause that starts before the first quote of a text is `from`, white space and that
quote, and then `../`. -/
theorem of_read?_append_quote {x y : Text} {q : Char} (hx : QuoteFree x)
    (hq : isQuote q) (h : Clause.read? (x ++ q :: y) ≠ none) :
    ∃ gap v, x = fromWord ++ gap ∧ Opens gap q ∧ y = Specifier.parentStep ++ v := by
  obtain ⟨gap, q', v, he, ho, -⟩ := Clause.isSome_read?_iff.1 (Option.isSome_iff_ne_none.2 h)
  obtain ⟨rfl, rfl, rfl⟩ := append_quote_inj hx ho.quoteFree hq ho.quote he
  exact ⟨gap, v, rfl, ho, rfl⟩

/-- Text in which no clause starts is kept. The import that is live before it is live
after it unless it has a semicolon. -/
theorem reads_append {w rest : Text}
    (hw : ∀ v, v <:+ w → v ≠ [] → Clause.read? (v ++ rest) = none) (live : Bool) :
    ∃ live', (live = true → ';' ∉ w → live' = true) ∧
      ∀ ms, Reads live' rest ms → Reads live (w ++ rest) (plain w ++ ms) := by
  induction w generalizing live with
  | nil => exact ⟨live, fun h _ => h, fun ms h => h⟩
  | cons c w ih =>
    obtain ⟨live', hlive, hr⟩ := ih (fun v hv => hw v (hv.trans (List.suffix_cons c w)))
      (liveAfter live c (w ++ rest))
    refine ⟨live', fun hl hsemi => hlive ?_ fun hm => hsemi (List.mem_cons_of_mem _ hm), ?_⟩
    · have hc : c ≠ ';' := fun e => hsemi (by simp [e])
      simp [liveAfter, hc, hl]
    · intro ms h
      exact .keep (fun _ => hw (c :: w) List.suffix_rfl (List.cons_ne_nil _ _)) (hr ms h)

/-- Text up to its first quote is kept, with the quote, if `../` does not follow. -/
theorem reads_quoted {x y : Text} {q : Char} (hx : QuoteFree x) (hq : isQuote q)
    (hy : after? Specifier.parentStep y = none) (live : Bool) :
    ∃ live', ∀ ms, Reads live' y ms → Reads live (x ++ q :: y) (plain x ++ .kept q :: ms) := by
  have hnone : ∀ v, v <:+ x → Clause.read? (v ++ q :: y) = none := by
    intro v hv
    by_contra h
    obtain ⟨-, t, -, -, rfl⟩ := of_read?_append_quote (hx.of_suffix hv) hq h
    rw [after?_append] at hy
    cases hy
  obtain ⟨live', -, hr⟩ := reads_append (fun v hv _ => hnone v hv) live
  exact ⟨liveAfter live' q y, fun ms h => hr _ (.keep (fun _ => hnone [] (List.nil_suffix)) h)⟩

/-- Text in which no `import` starts leaves no import live. -/
theorem reads_append_of_no_import {w rest : Text} {ms : List Mark}
    (hw : ∀ v, v <:+ w → v ≠ [] → after? importWord (v ++ rest) = none) (h : Reads false rest ms) :
    Reads false (w ++ rest) (plain w ++ ms) := by
  induction w with
  | nil => exact h
  | cons c w ih =>
    have hafter : liveAfter false c (w ++ rest) = false := by
      have := hw (c :: w) List.suffix_rfl (List.cons_ne_nil _ _)
      rw [List.cons_append] at this
      simp [liveAfter, this]
    have hrest : Reads (liveAfter false c (w ++ rest)) (w ++ rest) (plain w ++ ms) := by
      rw [hafter]
      exact ih fun v hv => hw v (hv.trans (List.suffix_cons c w))
    exact .keep (by simp) hrest

theorem after?_importWord_of_ne {c : Char} {t : Text} (h : c ≠ 'i') :
    after? importWord (c :: t) = none := by
  simp [importWord, after?, Ne.symm h]

/-- No `import` starts at any of some characters. -/
theorem reads_append_of_not_mem {w rest : Text} {ms : List Mark} (hw : 'i' ∉ w)
    (h : Reads false rest ms) : Reads false (w ++ rest) (plain w ++ ms) := by
  refine reads_append_of_no_import (fun v hv hne => ?_) h
  cases v with
  | nil => exact absurd rfl hne
  | cons c v => exact after?_importWord_of_ne fun e => hw (e ▸ hv.subset (by simp))

/-! ### Statements -/

/-- What a statement does with a module. -/
inductive Keyword where
  /-- It imports from the module. -/
  | imports
  /-- It exports what the module has. -/
  | exports
deriving DecidableEq, Repr

/-- The word `export`. -/
def exportWord : Text := ['e', 'x', 'p', 'o', 'r', 't']

/-- How a keyword is spelled. -/
def Keyword.word : Keyword → Text
  | .imports => importWord
  | .exports => exportWord

/-- A statement of a module header. -/
structure Statement where
  /-- What it does. -/
  keyword : Keyword
  /-- What stands between the keyword and `from`. -/
  names : Text
  /-- The white space after `from`. -/
  gap : Text
  /-- The quote before the specifier. -/
  openQuote : Char
  /-- The specifier. -/
  spec : Text
  /-- The quote after the specifier. -/
  closeQuote : Char
  /-- The names are in one statement. -/
  no_semicolon : ';' ∉ names
  /-- The names have no quote. -/
  names_quoteFree : QuoteFree names
  /-- The names have no `import` among them. -/
  no_import : ¬ importWord <:+: names
  /-- There is white space and a quote after `from`. -/
  opens : Opens gap openQuote
  /-- The specifier has no quote. -/
  spec_quoteFree : QuoteFree spec
  /-- The specifier ends with a quote. -/
  closes : isQuote closeQuote

namespace Statement

/-- The statement up to the specifier. -/
def opening (st : Statement) : Text :=
  st.keyword.word ++ st.names ++ (fromWord ++ st.gap ++ [st.openQuote])

/-- The statement with another specifier. -/
def withSpec (st : Statement) (s : Text) : Text := st.opening ++ s ++ [st.closeQuote]

/-- Whether the specifier of a statement is to be replaced: it is relative, and the
statement imports. -/
def isReplaced (st : Statement) : Bool :=
  st.keyword = .imports && (after? Specifier.parentStep st.spec).isSome

/-- The specifier of a statement after an edit. -/
def newSpec (f : Text → Text) (st : Statement) : Text :=
  if st.isReplaced then f st.spec else st.spec

/-- The marks of a statement. -/
def marks (st : Statement) : List Mark :=
  if st.isReplaced then plain st.opening ++ [.spec st.spec, .kept st.closeQuote]
  else plain (st.withSpec st.spec)

theorem fill_marks (f : Text → Text) (st : Statement) :
    fill f st.marks = st.withSpec (st.newSpec f) := by
  by_cases h : st.isReplaced <;> simp [marks, newSpec, withSpec, h, fill]

theorem specsOf_marks (st : Statement) :
    specsOf st.marks = if st.isReplaced then [st.spec] else [] := by
  by_cases h : st.isReplaced <;> simp [marks, h, specsOf]

/-! ### Reading one statement -/

/-- No clause starts among the names of a statement. -/
theorem read?_names (st : Statement) {v : Text} (hv : v <:+ st.names) (hne : v ≠ []) (y : Text) :
    Clause.read? (v ++ (fromWord ++ st.gap ++ st.openQuote :: y)) = none := by
  by_contra h
  rw [← List.append_assoc] at h
  have hx : QuoteFree (v ++ (fromWord ++ st.gap)) :=
    (st.names_quoteFree.of_suffix hv).append st.opens.quoteFree
  obtain ⟨gap, -, he, ho, -⟩ := of_read?_append_quote hx st.opens.quote h
  -- the `f` of the statement's own `from` would be in what follows the first `f`
  cases v with
  | nil => exact hne rfl
  | cons c v =>
    have htail : v ++ (fromWord ++ st.gap) = ['r', 'o', 'm'] ++ gap := (List.cons.inj he).2
    have hmem : 'f' ∈ ['r', 'o', 'm'] ++ gap := by rw [← htail]; simp [fromWord]
    simp [(ho.not_mem (x := 'f') (by decide) (by decide)).1] at hmem

/-- No `import` starts among the names of a statement. -/
theorem after?_importWord_names (st : Statement) {v : Text} (hv : v <:+ st.names) (y : Text) :
    after? importWord (v ++ (fromWord ++ y)) = none := by
  have hword : 'f' ∉ importWord := by decide
  rw [← Option.not_isSome_iff_eq_none, fromWord, List.cons_append, isSome_after?_append_cons hword]
  intro h
  obtain ⟨bs, hi⟩ := Option.isSome_iff_exists.1 h
  rw [after?_eq_some_iff] at hi
  exact st.no_import ((List.prefix_append _ bs).isInfix.trans (hi ▸ hv.isInfix))

theorem after?_spec (st : Statement) (h : (after? Specifier.parentStep st.spec).isSome = false)
    (rest : Text) : after? Specifier.parentStep (st.spec ++ st.closeQuote :: rest) = none := by
  have hword : st.closeQuote ∉ Specifier.parentStep :=
    fun hm => QuoteFree.false_of_mem (by decide) hm st.closes
  rw [← Option.not_isSome_iff_eq_none, isSome_after?_append_cons hword, h]
  exact Bool.false_ne_true

/-- An import statement with a relative specifier is read as one clause, and no import is
live after it. -/
theorem reads_relative (st : Statement) (hk : st.keyword = .imports) {w : Text}
    (hw : st.spec = Specifier.parentStep ++ w) (live : Bool) {rest : Text} {ms : List Mark}
    (h : Reads false rest ms) :
    Reads live (st.withSpec st.spec ++ rest)
      (plain st.opening ++ .spec st.spec :: .kept st.closeQuote :: ms) := by
  let c : Clause := ⟨st.gap, st.openQuote, st.spec, st.closeQuote⟩
  have hread : Clause.read? (c.text ++ rest) = some (c, rest) :=
    Clause.read?_eq_some_iff.2 ⟨rfl, st.opens, ⟨w, hw⟩, st.spec_quoteFree, st.closes⟩
  have hnames : ∀ v, v <:+ st.names → v ≠ [] → Clause.read? (v ++ (c.text ++ rest)) = none := by
    intro v hv hne
    have := st.read?_names hv hne (st.spec ++ st.closeQuote :: rest)
    simpa [c, Clause.text, Clause.head] using this
  obtain ⟨live', hlive, hr⟩ := reads_append hnames true
  obtain rfl : live' = true := hlive rfl st.no_semicolon
  have : Reads live (importWord ++ _) _ := (hr _ (.clause hread h)).importWord
  simpa [withSpec, opening, hk, Keyword.word, c, Clause.text, Clause.head, Clause.marks] using this

/-- Any other import statement is kept. -/
theorem reads_import (st : Statement) (hk : st.keyword = .imports)
    (hs : (after? Specifier.parentStep st.spec).isSome = false) {rest : Text}
    (hrest : after? Specifier.parentStep rest = none) (live : Bool) :
    ∃ live', ∀ ms, Reads live' rest ms →
      Reads live (st.withSpec st.spec ++ rest) (plain (st.withSpec st.spec) ++ ms) := by
  have hx : QuoteFree (st.names ++ (fromWord ++ st.gap)) :=
    st.names_quoteFree.append st.opens.quoteFree
  obtain ⟨live₁, h₁⟩ := reads_quoted hx st.opens.quote (st.after?_spec hs rest) true
  obtain ⟨live₂, h₂⟩ := reads_quoted st.spec_quoteFree st.closes hrest live₁
  refine ⟨live₂, fun ms h => ?_⟩
  have : Reads live (importWord ++ _) _ := (h₁ _ (h₂ ms h)).importWord
  simpa [withSpec, opening, hk, Keyword.word] using this

/-- A statement that exports is kept when no import is live before it. -/
theorem reads_export (st : Statement) (hk : st.keyword = .exports) {rest : Text}
    (hrest : after? Specifier.parentStep rest = none) :
    ∃ live', ∀ ms, Reads live' rest ms →
      Reads false (st.withSpec st.spec ++ rest) (plain (st.withSpec st.spec) ++ ms) := by
  obtain ⟨live', h'⟩ := reads_quoted st.spec_quoteFree st.closes hrest false
  refine ⟨live', fun ms h => ?_⟩
  have hi : 'i' ∉ fromWord ++ st.gap ++ [st.openQuote] := by
    obtain ⟨hgap, hquote⟩ := st.opens.not_mem (x := 'i') (by decide) (by decide)
    simp [fromWord, hgap, hquote]
  have h₁ := reads_append_of_not_mem hi (h' ms h)
  rw [List.append_assoc, List.append_assoc] at h₁
  have h₂ := reads_append_of_no_import (fun v hv _ => st.after?_importWord_names hv _) h₁
  have h₃ := reads_append_of_not_mem (w := exportWord) (by decide) h₂
  simpa [withSpec, opening, hk, Keyword.word] using h₃

/-- Reading one statement, after which the text does not go on with `../`. -/
theorem reads (st : Statement) {rest : Text} (hrest : after? Specifier.parentStep rest = none)
    {live : Bool} (hlive : st.keyword = .exports → live = false) :
    ∃ live', ∀ ms, Reads live' rest ms → Reads live (st.withSpec st.spec ++ rest) (st.marks ++ ms) := by
  cases hk : st.keyword with
  | exports =>
    rw [hlive hk]
    simpa [marks, isReplaced, hk] using st.reads_export hk hrest
  | imports =>
    cases hs : (after? Specifier.parentStep st.spec).isSome with
    | false => simpa [marks, isReplaced, hk, hs] using st.reads_import hk hs hrest live
    | true =>
      obtain ⟨v, hv⟩ := Option.isSome_iff_exists.1 hs
      refine ⟨false, fun ms h => ?_⟩
      simpa [marks, isReplaced, hk, hs] using
        st.reads_relative hk (after?_eq_some_iff.1 hv) live h

end Statement

/-! ### Headers -/

/-- Whether a text is made of white space and semicolons only. -/
def IsSeparator (t : Text) : Prop := ∀ c ∈ t, isBlank c ∨ c = ';'

instance (t : Text) : Decidable (IsSeparator t) :=
  decidable_of_iff (t.all fun c => isBlank c || c = ';') (by simp [IsSeparator])

/-- A module header: statements, each with what separates it from the one before, and what
comes after the last one. -/
structure Header where
  /-- The statements. -/
  statements : List (Text × Statement)
  /-- What comes after the last statement. -/
  ending : Text
  /-- Statements are separated by white space and semicolons. -/
  separators : ∀ p ∈ statements, IsSeparator p.1
  /-- So is what follows. -/
  ending_separator : IsSeparator ending
  /-- There is something between two statements. -/
  separated : ∀ p ∈ statements.tail, p.1 ≠ []
  /-- A statement that exports is the first one or has a semicolon before it. -/
  exports : ∀ p ∈ statements.tail, p.2.keyword = .exports → ';' ∈ p.1

/-- Statements with what separates them, each with the specifier that `g` gives it. -/
def renderStatements (g : Statement → Text) (l : List (Text × Statement)) : Text :=
  l.flatMap fun p => p.1 ++ p.2.withSpec (g p.2)

/-- The header in which each statement has the specifier that `g` gives it. -/
def Header.render (g : Statement → Text) (h : Header) : Text :=
  renderStatements g h.statements ++ h.ending

/-- The text of a header. -/
def Header.text (h : Header) : Text := h.render Statement.spec

/-- The marks of statements with what separates them. -/
def marksOf (l : List (Text × Statement)) : List Mark := l.flatMap fun p => plain p.1 ++ p.2.marks

theorem fill_marksOf (f : Text → Text) (l : List (Text × Statement)) :
    fill f (marksOf l) = renderStatements (Statement.newSpec f) l := by
  induction l with
  | nil => rfl
  | cons p l ih =>
    simp only [marksOf, renderStatements, List.flatMap_cons, fill_append, fill_plain,
      Statement.fill_marks] at ih ⊢
    rw [ih]

theorem specsOf_marksOf (l : List (Text × Statement)) :
    specsOf (marksOf l) = ((l.map (·.2)).filter Statement.isReplaced).map Statement.spec := by
  induction l with
  | nil => rfl
  | cons p l ih =>
    simp only [marksOf, List.flatMap_cons, specsOf_append, specsOf_plain, Statement.specsOf_marks,
      List.nil_append, List.map_cons] at ih ⊢
    rw [ih, List.filter_cons]
    cases p.2.isReplaced <;> rfl

/-- A separator is kept, and a semicolon in it ends a live import. -/
theorem reads_separator {sep rest : Text} {ms : List Mark} {live live' : Bool}
    (hs : IsSeparator sep) (hlive : live' = (live && decide (';' ∉ sep)))
    (h : Reads live' rest ms) : Reads live (sep ++ rest) (plain sep ++ ms) := by
  induction sep generalizing live with
  | nil =>
    simp at hlive
    rw [← hlive]
    exact h
  | cons c sep ih =>
    have hc := hs c (by simp)
    have hf : c ≠ 'f' := by rintro rfl; revert hc; decide
    have hi : c ≠ 'i' := by rintro rfl; revert hc; decide
    refine .keep (fun _ => Clause.read?_eq_none_of_ne hf) ?_
    refine ih (fun d hd => hs d (List.mem_cons_of_mem _ hd)) ?_
    rw [hlive, liveAfter, after?_importWord_of_ne hi]
    by_cases hsemi : c = ';' <;> simp [hsemi, eq_comm]

theorem IsSeparator.after?_parentStep {sep : Text} (hs : IsSeparator sep) (hne : sep ≠ [])
    (rest : Text) : after? Specifier.parentStep (sep ++ rest) = none := by
  cases sep with
  | nil => exact absurd rfl hne
  | cons c sep =>
    have hc : '.' ≠ c := by rintro rfl; exact absurd (hs '.' (by simp)) (by decide)
    simp [Specifier.parentStep, after?, hc]

/-- Reading statements one after the other. What is live before a statement matters only
if it exports. -/
theorem reads_statements {l : List (Text × Statement)} {ending : Text} {live : Bool}
    (hsep : ∀ p ∈ l, IsSeparator p.1) (hend : IsSeparator ending) (hne : ∀ p ∈ l.tail, p.1 ≠ [])
    (hexp : ∀ p ∈ l.tail, p.2.keyword = .exports → ';' ∈ p.1)
    (hfirst : ∀ p ∈ l.head?, p.2.keyword = .exports → live = true → ';' ∈ p.1) :
    Reads live (renderStatements Statement.spec l ++ ending) (marksOf l ++ plain ending) := by
  induction l generalizing live with
  | nil => simpa [renderStatements, marksOf] using reads_separator hend rfl .done
  | cons p l ih =>
    have hrest : after? Specifier.parentStep (renderStatements Statement.spec l ++ ending) = none := by
      cases l with
      | nil =>
        cases ending with
        | nil => rfl
        | cons c t => simpa [renderStatements] using hend.after?_parentStep (List.cons_ne_nil c t) []
      | cons p' l =>
        have := (hsep p' (by simp)).after?_parentStep (hne p' (by simp))
        simpa [renderStatements] using this _
    have hlive : p.2.keyword = .exports → (live && decide (';' ∉ p.1)) = false := by
      intro hk
      cases live with
      | false => rfl
      | true => simp [hfirst p (by simp) hk rfl]
    obtain ⟨live', hr⟩ := p.2.reads hrest hlive
    have hl : Reads live' (renderStatements Statement.spec l ++ ending) (marksOf l ++ plain ending) := by
      refine ih (fun s hs => hsep s (List.mem_cons_of_mem _ hs))
        (fun s hs => hne s (List.mem_of_mem_tail hs)) (fun s hs => hexp s (List.mem_of_mem_tail hs)) ?_
      intro s hs hk _
      exact hexp s (List.mem_of_mem_head? hs) hk
    have := reads_separator (hsep p (by simp)) rfl (hr _ hl)
    simpa [renderStatements, marksOf] using this

theorem Header.reads (h : Header) : Reads false h.text (marksOf h.statements ++ plain h.ending) :=
  reads_statements h.separators h.ending_separator h.separated h.exports (by simp)

/-! ### Edits of a header -/

section

variable (f : Text → Text) (hf : ∀ s, QuoteFree s → QuoteFree (f s))

/-- The statement with the specifier that it has after an edit. -/
def Statement.replaced (st : Statement) : Statement :=
  { st with
    spec := st.newSpec f
    spec_quoteFree := by
      unfold Statement.newSpec
      split
      · exact hf _ st.spec_quoteFree
      · exact st.spec_quoteFree }

/-- If new specifiers are not relative, there is nothing more to replace in a statement. -/
theorem Statement.isReplaced_replaced (hrel : ∀ s, after? Specifier.parentStep (f s) = none)
    (st : Statement) : (st.replaced f hf).isReplaced = false := by
  show (decide (st.keyword = .imports) && (after? Specifier.parentStep (st.newSpec f)).isSome) = false
  cases h : st.isReplaced with
  | false =>
    have hn : st.newSpec f = st.spec := by simp [newSpec, h]
    rw [hn]
    exact h
  | true =>
    have hn : st.newSpec f = f st.spec := by simp [newSpec, h]
    rw [hn, hrel, Option.isSome_none, Bool.and_false]

/-- The header with the specifiers that it has after an edit. -/
def Header.replaced (h : Header) : Header where
  statements := h.statements.map fun p => (p.1, p.2.replaced f hf)
  ending := h.ending
  separators := by
    intro p hp
    obtain ⟨s, hs, rfl⟩ := List.mem_map.1 hp
    exact h.separators s hs
  ending_separator := h.ending_separator
  separated := by
    intro p hp
    rw [← List.map_tail] at hp
    obtain ⟨s, hs, rfl⟩ := List.mem_map.1 hp
    exact h.separated s hs
  exports := by
    intro p hp
    rw [← List.map_tail] at hp
    obtain ⟨s, hs, rfl⟩ := List.mem_map.1 hp
    exact h.exports s hs

theorem Header.text_replaced (h : Header) :
    (h.replaced f hf).text = h.render (Statement.newSpec f) := by
  simp only [Header.text, Header.render, Header.replaced, renderStatements, List.flatMap_map]
  rfl

end

/-- A header with nothing to replace is its own rendering after an edit. -/
theorem Header.render_of_none {h : Header} (f : Text → Text)
    (hn : ∀ p ∈ h.statements, p.2.isReplaced = false) :
    h.render (Statement.newSpec f) = h.text := by
  have : ∀ p ∈ h.statements, p.1 ++ p.2.withSpec (p.2.newSpec f) = p.1 ++ p.2.withSpec p.2.spec := by
    intro p hp
    simp [Statement.newSpec, hn p hp]
  simp only [Header.text, Header.render, renderStatements, List.flatMap]
  rw [List.map_congr_left this]

end Import

namespace Alias

open Import

theorem text_edit_header (a : Alias) (cwd : Location) (p : Path) (h : Header) :
    (a.edit cwd p h.text).text = h.render (Statement.newSpec (a.resolve cwd p)) := by
  rw [edit_of_reads h.reads]
  simp only [fill_append, fill_plain, fill_marksOf, Header.render]

theorem replacements_edit_header (a : Alias) (cwd : Location) (p : Path) (h : Header) :
    (a.edit cwd p h.text).replacements =
      h.statements.countP fun s => s.2.isReplaced && a.resolve cwd p s.2.spec ≠ s.2.spec := by
  rw [edit_of_reads h.reads]
  simp only [specsOf_append, specsOf_plain, List.append_nil, specsOf_marksOf, List.countP_map,
    List.countP_filter]
  congr 1
  funext s
  simp [Bool.and_comm]

/-- An edit leaves a header alone in which nothing is to be replaced. -/
theorem edit_header_of_none (a : Alias) (cwd : Location) (p : Path) {h : Header}
    (hn : ∀ s ∈ h.statements, s.2.isReplaced = false) : a.edit cwd p h.text = ⟨h.text, 0, false⟩ := by
  have htext : (a.edit cwd p h.text).text = h.text := by
    rw [text_edit_header, Header.render_of_none _ hn]
  have hcount : (a.edit cwd p h.text).replacements = 0 := by
    rw [replacements_edit_header, List.countP_eq_zero]
    intro s hs
    simp [hn s hs]
  have hchanged : (a.edit cwd p h.text).changed = false := by
    rw [changed_edit, htext]
    simp
  calc a.edit cwd p h.text
      = ⟨(a.edit cwd p h.text).text, (a.edit cwd p h.text).replacements,
          (a.edit cwd p h.text).changed⟩ := rfl
    _ = ⟨h.text, 0, false⟩ := by rw [htext, hcount, hchanged]

/-- **What an edit does to a module header**: the relative specifiers of its import
statements get their alias forms, and everything else stays. With a proper alias and
directories without quotes there is nothing left to replace, so the edit need not be
repeated. -/
theorem edit_header (a : Alias) (cwd : Location) (p : Path) (h : Header) :
    let f := a.resolve cwd p
    let e := a.edit cwd p h.text
    e.text = h.render (Statement.newSpec f) ∧
    e.replacements = h.statements.countP (fun s => s.2.isReplaced && f s.2.spec ≠ s.2.spec) ∧
    (Specifier.Proper a.spelling → (∀ d ∈ a.directories cwd p, QuoteFree d) →
      e.replacements = h.statements.countP (·.2.isReplaced) ∧
      (e.changed = true ↔ 0 < e.replacements) ∧
      (∀ s ∈ h.statements, s.2.keyword = .imports →
        after? Specifier.parentStep (s.2.newSpec f) = none) ∧
      a.edit cwd p e.text = ⟨e.text, 0, false⟩) := by
  intro f e
  have htext := text_edit_header a cwd p h
  have hcount := replacements_edit_header a cwd p h
  refine ⟨htext, hcount, fun hp hd => ?_⟩
  have hrel : ∀ s, after? Specifier.parentStep (f s) = none := fun s => by
    simpa using after?_resolve hp cwd p s []
  have hfree : ∀ s, QuoteFree s → QuoteFree (f s) := fun s hs => hp.quoteFree_resolve hd hs
  have hall : e.replacements = h.statements.countP (·.2.isReplaced) := by
    refine hcount.trans (List.countP_congr fun s _ => ?_)
    simp only [Bool.and_eq_true, decide_eq_true_eq, and_iff_left_iff_imp]
    intro hs e'
    obtain ⟨v, hv⟩ := Option.isSome_iff_exists.1 (Bool.and_eq_true_iff.1 hs).2
    rw [← e', hrel] at hv
    cases hv
  have hagain : a.edit cwd p e.text = ⟨e.text, 0, false⟩ := by
    have ht : e.text = (h.replaced f hfree).text := htext.trans (h.text_replaced f hfree).symm
    rw [ht]
    refine edit_header_of_none a cwd p fun s hs => ?_
    obtain ⟨s, -, rfl⟩ := List.mem_map.1 hs
    exact s.2.isReplaced_replaced f hfree hrel
  have hchanged : e.changed = true ↔ 0 < e.replacements := by
    constructor
    · intro hc
      by_contra hz
      -- nothing was replaced, so the header is rendered as it was
      rw [hall, Nat.not_lt, Nat.le_zero, List.countP_eq_zero] at hz
      have he := edit_header_of_none a cwd p fun s hs => Bool.eq_false_iff.2 (hz s hs)
      have hc' : (a.edit cwd p h.text).changed = true := hc
      rw [he] at hc'
      cases hc'
    · intro hz
      by_contra hc
      -- an edit that changes nothing is the one that was shown to replace nothing
      have ht : e.text = h.text := by
        rw [changed_edit, Bool.not_eq_true, decide_eq_false_iff_not, not_not] at hc
        exact hc
      rw [ht] at hagain
      have : e.replacements = 0 := congrArg Edit.replacements hagain
      omega
  refine ⟨hall, hchanged, fun s _ hk => ?_, hagain⟩
  have := s.2.isReplaced_replaced f hfree hrel
  simp [Statement.isReplaced, Statement.replaced, hk] at this
  exact this

/-- Three statements of which one is to be changed. There is no semicolon between the first
two, the second has `import` in its specifier, and the last one is a re-export. -/
def sampleHeader : Header where
  statements :=
    [([], ⟨.imports, " a ".toList, [' '], '\'', "../a".toList, '\'', by decide, by decide, by decide,
        by decide, by decide, by decide⟩),
     (['\n'], ⟨.imports, " b ".toList, [' '], '"', "./import from".toList, '"', by decide, by decide,
        by decide, by decide, by decide, by decide⟩),
     ([';', '\n'], ⟨.exports, " * ".toList, [' '], '\'', "../c".toList, '\'', by decide, by decide,
        by decide, by decide, by decide, by decide⟩)]
  ending := ['\n']
  separators := by decide
  ending_separator := by decide
  separated := by decide
  exports := by decide

theorem edit_sampleHeader :
    let a := (Settings.ofRoot (.ofText "/src".toList)).toAlias []
    let p := Path.ofText "/src/x/y.ts".toList
    let e := a.edit [] p sampleHeader.text
    Specifier.Proper a.spelling ∧ (∀ d ∈ a.directories [] p, QuoteFree d) ∧
      e.text = "import a from '@/a'\nimport b from \"./import from\";\nexport * from '../c'\n".toList ∧
      e.replacements = 1 ∧ a.edit [] p e.text = ⟨e.text, 0, false⟩ := by
  intro a p e
  have ha : Specifier.Proper a.spelling := Specifier.proper_default
  have hd : ∀ d ∈ a.directories [] p, QuoteFree d := by decide
  obtain ⟨htext, -, hproper⟩ := edit_header a [] p sampleHeader
  obtain ⟨hcount, -, -, hagain⟩ := hproper ha hd
  exact ⟨ha, hd, htext.trans (by decide), hcount.trans (by decide), hagain⟩

end Alias

end ImportAlias
