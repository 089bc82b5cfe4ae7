import ImportAlias.Json.Basic

/-!
# Reading JSON

What a JSON text says, as a grammar that knows nothing of how documents are laid out. Blanks may
stand around every sign, and a character of a string may be written in any of the ways that JSON
has for it. The grammar has the numbers, strings, arrays and objects of `Json`, and no other
values.

A text is read in one way at most, whatever stands in its strings, and the layout of a document is
read as the document.

## The model

The relations go along the text: `Reads p t rest` says that the text `t` starts with the part `p`
and goes on with `rest`. The items of an array and the members of an object are read one after the
other, each with the comma before it, up to the bracket that closes them. A number ends where its
digits end.
-/

namespace ImportAlias.Json

/-! ### The grammar -/

/-- The blanks of JSON. -/
def isSpace (c : Char) : Bool := c = ' ' || c = '\t' || c = '\n' || c = '\r'

/-- The text after its blanks. -/
def skip (t : Text) : Text := t.dropWhile isSpace

/-- The character that a letter stands for after a backslash. -/
def shorthand? : Char → Option Char
  | '"' => some '"'
  | '\\' => some '\\'
  | '/' => some '/'
  | 'b' => some (Char.ofNat 0x08)
  | 'f' => some (Char.ofNat 0x0C)
  | 'n' => some '\n'
  | 'r' => some '\r'
  | 't' => some '\t'
  | _ => none

/-- The value of a hexadecimal digit. -/
def hexDigit? (c : Char) : Option Nat :=
  if c.isDigit then some (c.toNat - '0'.toNat)
  else if 'a' ≤ c ∧ c ≤ 'f' then some (c.toNat - 'a'.toNat + 10)
  else if 'A' ≤ c ∧ c ≤ 'F' then some (c.toNat - 'A'.toNat + 10)
  else none

/-- The value of four hexadecimal digits. -/
def unit? (ds : Text) : Option Nat :=
  if ds.length = 4 then ds.foldlM (fun n c => (hexDigit? c).map (16 * n + ·)) 0 else none

/-- A character of a string. -/
inductive ReadsChar : Char → Text → Text → Prop where
  /-- A character may stand for itself, but for quotes, backslashes and controls. -/
  | plain {c : Char} {rest : Text} (hquote : c ≠ '"') (hbackslash : c ≠ '\\')
      (hcontrol : 0x20 ≤ c.toNat) : ReadsChar c (c :: rest) rest
  /-- Some have a letter. -/
  | shorthand {c l : Char} {rest : Text} (h : shorthand? l = some c) :
      ReadsChar c ('\\' :: l :: rest) rest
  /-- Those up to U+FFFF have four digits. -/
  | unit {c : Char} {t : Text} (h : unit? (t.take 4) = some c.toNat) :
      ReadsChar c ('\\' :: 'u' :: t) (t.drop 4)
  /-- Those above have two surrogates of four digits each. -/
  | pair {c : Char} {t u : Text} {high low : Nat} (hhigh : unit? (t.take 4) = some high)
      (hnext : t.drop 4 = '\\' :: 'u' :: u) (hlow : unit? (u.take 4) = some low)
      (hbounds : 0xD800 ≤ high ∧ high < 0xDC00 ∧ 0xDC00 ≤ low ∧ low < 0xE000)
      (hc : c.toNat = 0x10000 + (high - 0xD800) * 0x400 + (low - 0xDC00)) :
      ReadsChar c ('\\' :: 'u' :: t) (u.drop 4)

/-- The text of a string, after the quote that opens it. -/
inductive ReadsText : Text → Text → Text → Prop where
  /-- A quote closes it. -/
  | close {rest : Text} : ReadsText [] ('"' :: rest) rest
  /-- It goes on with a character. -/
  | char {c : Char} {s t u rest : Text} (hc : ReadsChar c t u) (hs : ReadsText s u rest) :
      ReadsText (c :: s) t rest

/-- The digits of a number: there is one, and no zero stands before others. -/
def IsNumeral (ds : Text) : Prop := ds ≠ [] ∧ (ds.head? = some '0' → ds = ['0'])

/-- A part of a document. -/
inductive Part where
  /-- A whole value. -/
  | value (j : Json)
  /-- A member of an object, with its name. -/
  | member (name : Text) (j : Json)
  /-- The items of an array after those that were read, and its bracket. -/
  | items (js : List Json)
  /-- The members of an object after those that were read, and its bracket. -/
  | members (ms : List (Text × Json))

/-- A part of a document at the beginning of a text, and what follows it. -/
inductive Reads : Part → Text → Text → Prop where
  /-- A number is all the digits that stand there. -/
  | number {t : Text} (h : IsNumeral (t.takeWhile Char.isDigit)) :
      Reads (.value (.number (Nat.ofDigitChars 10 (t.takeWhile Char.isDigit) 0))) t
        (t.dropWhile Char.isDigit)
  /-- A string stands between quotes. -/
  | string {s t rest : Text} (h : ReadsText s t rest) :
      Reads (.value (.string s)) ('"' :: t) rest
  /-- An array may have no items. -/
  | emptyArray {t rest : Text} (h : skip t = ']' :: rest) :
      Reads (.value (.array [])) ('[' :: t) rest
  /-- Else it starts with one. -/
  | array {j : Json} {js : List Json} {t u rest : Text} (hj : Reads (.value j) (skip t) u)
      (hjs : Reads (.items js) u rest) : Reads (.value (.array (j :: js))) ('[' :: t) rest
  /-- An object may have no members. -/
  | emptyObject {t rest : Text} (h : skip t = '\x7d' :: rest) :
      Reads (.value (.object [])) ('\x7b' :: t) rest
  /-- Else it starts with one. -/
  | object {name : Text} {j : Json} {ms : List (Text × Json)} {t u rest : Text}
      (hm : Reads (.member name j) (skip t) u) (hms : Reads (.members ms) u rest) :
      Reads (.value (.object ((name, j) :: ms))) ('\x7b' :: t) rest
  /-- A member is a string, a colon and a value. -/
  | member {name : Text} {j : Json} {t u v rest : Text} (hname : ReadsText name t u)
      (hcolon : skip u = ':' :: v) (hj : Reads (.value j) (skip v) rest) :
      Reads (.member name j) ('"' :: t) rest
  /-- The bracket ends an array. -/
  | endArray {t rest : Text} (h : skip t = ']' :: rest) : Reads (.items []) t rest
  /-- A comma comes before another item. -/
  | item {j : Json} {js : List Json} {t u v rest : Text} (hcomma : skip t = ',' :: u)
      (hj : Reads (.value j) (skip u) v) (hjs : Reads (.items js) v rest) :
      Reads (.items (j :: js)) t rest
  /-- The bracket ends an object. -/
  | endObject {t rest : Text} (h : skip t = '\x7d' :: rest) : Reads (.members []) t rest
  /-- A comma comes before another member. -/
  | another {name : Text} {j : Json} {ms : List (Text × Json)} {t u v rest : Text}
      (hcomma : skip t = ',' :: u) (hm : Reads (.member name j) (skip u) v)
      (hms : Reads (.members ms) v rest) : Reads (.members ((name, j) :: ms)) t rest

/-- A text is a document if it is one value and blanks. -/
def Document (j : Json) (t : Text) : Prop :=
  ∃ rest, Reads (.value j) (skip t) rest ∧ skip rest = []

/-! ### A text is read in one way -/

theorem not_surrogate (c : Char) : c.toNat < 0xD800 ∨ 0xE000 ≤ c.toNat := by
  rcases c.valid with h | ⟨h, -⟩
  · exact .inl h
  · exact .inr h

theorem ReadsChar.unique {c c' : Char} {t r r' : Text} (h : ReadsChar c t r)
    (h' : ReadsChar c' t r') : c' = c ∧ r' = r := by
  cases h with
  | plain hquote hbackslash hcontrol =>
    cases h' with
    | plain => exact ⟨rfl, rfl⟩
    | shorthand | unit | pair => exact absurd rfl hbackslash
  | shorthand h =>
    cases h' with
    | plain _ hbackslash => exact absurd rfl hbackslash
    | shorthand h' => exact ⟨Option.some.inj (h'.symm.trans h), rfl⟩
    | unit | pair => cases h
  | unit h =>
    cases h' with
    | plain _ hbackslash => exact absurd rfl hbackslash
    | shorthand h' => cases h'
    | unit h' => exact ⟨Char.toNat_inj.1 (Option.some.inj (h'.symm.trans h)), rfl⟩
    | pair hhigh _ _ hbounds =>
      -- no character is a surrogate
      have := Option.some.inj (h.symm.trans hhigh)
      rcases not_surrogate c with hc | hc <;> omega
  | pair hhigh hnext hlow hbounds hc =>
    cases h' with
    | plain _ hbackslash => exact absurd rfl hbackslash
    | shorthand h' => cases h'
    | unit h' =>
      have := Option.some.inj (h'.symm.trans hhigh)
      rcases not_surrogate c' with hc | hc <;> omega
    | pair hhigh' hnext' hlow' hbounds' hc' =>
      obtain rfl := Option.some.inj (hhigh.symm.trans hhigh')
      cases hnext.symm.trans hnext'
      obtain rfl := Option.some.inj (hlow.symm.trans hlow')
      exact ⟨Char.toNat_inj.1 (hc'.trans hc.symm), rfl⟩

theorem ReadsText.unique {s s' t r r' : Text} (h : ReadsText s t r) (h' : ReadsText s' t r') :
    s' = s ∧ r' = r := by
  induction h generalizing s' with
  | close =>
    cases h' with
    | close => exact ⟨rfl, rfl⟩
    | char hc =>
      cases hc with
      | plain hquote => exact absurd rfl hquote
  | char hc hs ih =>
    cases h' with
    | close =>
      cases hc with
      | plain hquote => exact absurd rfl hquote
    | char hc' hs' =>
      obtain ⟨rfl, rfl⟩ := hc.unique hc'
      obtain ⟨rfl, rfl⟩ := ih hs'
      exact ⟨rfl, rfl⟩

/-- What a value may start with. -/
def Starts (c : Char) : Prop := c.isDigit ∨ c = '"' ∨ c = '[' ∨ c = '\x7b'

instance (c : Char) : Decidable (Starts c) := inferInstanceAs (Decidable (_ ∨ _))

theorem Reads.exists_starts {j : Json} {t rest : Text} (h : Reads (.value j) t rest) :
    ∃ c u, t = c :: u ∧ Starts c := by
  cases h with
  | number h =>
    cases t with
    | nil => exact absurd rfl h.1
    | cons c u =>
      by_cases hc : c.isDigit = true
      · exact ⟨c, u, rfl, .inl hc⟩
      · exact absurd (List.takeWhile_cons_of_neg hc) h.1
  | string => exact ⟨_, _, rfl, .inr (.inl rfl)⟩
  | emptyArray | array => exact ⟨_, _, rfl, .inr (.inr (.inl rfl))⟩
  | emptyObject | object => exact ⟨_, _, rfl, .inr (.inr (.inr rfl))⟩

/-- A value starts with no other sign. -/
theorem Reads.starts {j : Json} {c : Char} {t rest : Text} (h : Reads (.value j) (c :: t) rest) :
    Starts c := by
  obtain ⟨_, _, ht, hc⟩ := h.exists_starts
  cases ht
  exact hc

/-- A text starts with a part of one kind only, and what follows the part is settled too. -/
def Part.Only (t rest : Text) : Part → Prop
  | .value j => ∀ j' rest', Reads (.value j') t rest' → j' = j ∧ rest' = rest
  | .member name j => ∀ name' j' rest', Reads (.member name' j') t rest' →
      name' = name ∧ j' = j ∧ rest' = rest
  | .items js => ∀ js' rest', Reads (.items js') t rest' → js' = js ∧ rest' = rest
  | .members ms => ∀ ms' rest', Reads (.members ms') t rest' → ms' = ms ∧ rest' = rest

/-- **Reading is unambiguous**: the sign that a part starts with decides how it is read. -/
theorem Reads.only {p : Part} {t rest : Text} (h : Reads p t rest) : p.Only t rest := by
  induction h with
  | number h =>
    intro j' rest' h'
    cases h' with
    | number => exact ⟨rfl, rfl⟩
    | string | emptyArray | array | emptyObject | object => exact absurd rfl h.1
  | string h =>
    intro j' rest' h'
    cases h' with
    | number hnumeral => exact absurd rfl hnumeral.1
    | string h' =>
      obtain ⟨rfl, rfl⟩ := h.unique h'
      exact ⟨rfl, rfl⟩
  | emptyArray h =>
    intro j' rest' h'
    cases h' with
    | number hnumeral => exact absurd rfl hnumeral.1
    | emptyArray h' =>
      cases h.symm.trans h'
      exact ⟨rfl, rfl⟩
    | array hj =>
      rw [h] at hj
      exact absurd hj.starts (by decide)
  | array hj hjs ihj ihjs =>
    intro j' rest' h'
    cases h' with
    | number hnumeral => exact absurd rfl hnumeral.1
    | emptyArray h =>
      rw [h] at hj
      exact absurd hj.starts (by decide)
    | array hj' hjs' =>
      obtain ⟨rfl, rfl⟩ := ihj _ _ hj'
      obtain ⟨rfl, rfl⟩ := ihjs _ _ hjs'
      exact ⟨rfl, rfl⟩
  | emptyObject h =>
    intro j' rest' h'
    cases h' with
    | number hnumeral => exact absurd rfl hnumeral.1
    | emptyObject h' =>
      cases h.symm.trans h'
      exact ⟨rfl, rfl⟩
    | object hm =>
      rw [h] at hm
      cases hm
  | object hm hms ihm ihms =>
    intro j' rest' h'
    cases h' with
    | number hnumeral => exact absurd rfl hnumeral.1
    | emptyObject h =>
      rw [h] at hm
      cases hm
    | object hm' hms' =>
      obtain ⟨rfl, rfl, rfl⟩ := ihm _ _ _ hm'
      obtain ⟨rfl, rfl⟩ := ihms _ _ hms'
      exact ⟨rfl, rfl⟩
  | member hname hcolon hj ihj =>
    intro name' j' rest' h'
    cases h' with
    | member hname' hcolon' hj' =>
      obtain ⟨rfl, rfl⟩ := hname.unique hname'
      cases hcolon.symm.trans hcolon'
      obtain ⟨rfl, rfl⟩ := ihj _ _ hj'
      exact ⟨rfl, rfl, rfl⟩
  | endArray h =>
    intro js' rest' h'
    cases h' with
    | endArray h' =>
      cases h.symm.trans h'
      exact ⟨rfl, rfl⟩
    | item hcomma => cases h.symm.trans hcomma
  | item hcomma hj hjs ihj ihjs =>
    intro js' rest' h'
    cases h' with
    | endArray h => cases h.symm.trans hcomma
    | item hcomma' hj' hjs' =>
      cases hcomma.symm.trans hcomma'
      obtain ⟨rfl, rfl⟩ := ihj _ _ hj'
      obtain ⟨rfl, rfl⟩ := ihjs _ _ hjs'
      exact ⟨rfl, rfl⟩
  | endObject h =>
    intro ms' rest' h'
    cases h' with
    | endObject h' =>
      cases h.symm.trans h'
      exact ⟨rfl, rfl⟩
    | another hcomma => cases h.symm.trans hcomma
  | another hcomma hm hms ihm ihms =>
    intro ms' rest' h'
    cases h' with
    | endObject h => cases h.symm.trans hcomma
    | another hcomma' hm' hms' =>
      cases hcomma.symm.trans hcomma'
      obtain ⟨rfl, rfl, rfl⟩ := ihm _ _ _ hm'
      obtain ⟨rfl, rfl⟩ := ihms _ _ hms'
      exact ⟨rfl, rfl⟩

/-- A text is at most one document. -/
theorem Document.unique {j j' : Json} {t : Text} (h : Document j t) (h' : Document j' t) :
    j' = j := by
  obtain ⟨rest, hj, -⟩ := h
  obtain ⟨rest', hj', -⟩ := h'
  exact (hj.only _ _ hj').1

/-! ### Layouts are read -/

theorem skip_newline (depth : Nat) (t : Text) : skip (newline depth ++ t) = skip t := by
  refine List.dropWhile_append_of_pos fun c hc => ?_
  rcases List.mem_cons.1 hc with rfl | hc
  · rfl
  · rw [List.eq_of_mem_replicate hc]
    rfl

theorem skip_cons {c : Char} (hc : isSpace c = false) (t : Text) : skip (c :: t) = c :: t :=
  List.dropWhile_cons_of_neg (Bool.eq_false_iff.1 hc)

theorem Starts.not_isSpace {c : Char} (h : Starts c) : isSpace c = false := by
  rcases h with h | rfl | rfl | rfl
  · rw [Bool.eq_false_iff]
    intro hspace
    simp only [isSpace, Bool.or_eq_true, decide_eq_true_eq, or_assoc] at hspace
    rcases hspace with rfl | rfl | rfl | rfl <;> cases h
  · rfl
  · rfl
  · rfl

/-- No blank stands before a value. -/
theorem Reads.skip_eq {j : Json} {t rest : Text} (h : Reads (.value j) t rest) : skip t = t := by
  obtain ⟨c, u, rfl, hc⟩ := h.exists_starts
  exact skip_cons hc.not_isSpace u

theorem unit?_digitChar : ∀ n < 0x20,
    unit? ['0', '0', Nat.digitChar (n / 16), Nat.digitChar (n % 16)] = some n := by
  decide

theorem readsChar_escape (c : Char) (rest : Text) : ReadsChar c (escape c ++ rest) rest := by
  unfold escape
  split
  · next h => exact .shorthand (by rw [h]; rfl)
  split
  · next h => exact .shorthand (by rw [h]; rfl)
  split
  · next h => exact .shorthand (by rw [← Char.ofNat_toNat c, h]; rfl)
  split
  · next h => exact .shorthand (by rw [← Char.ofNat_toNat c, h]; rfl)
  split
  · next h => exact .shorthand (by rw [h]; rfl)
  split
  · next h => exact .shorthand (by rw [h]; rfl)
  split
  · next h => exact .shorthand (by rw [h]; rfl)
  split
  · next h => exact ReadsChar.unit (unit?_digitChar c.toNat h)
  · next hquote hbackslash _ _ _ _ _ hcontrol =>
    exact .plain hquote hbackslash (Nat.le_of_not_lt hcontrol)

theorem readsText_quote (s rest : Text) : ReadsText s (s.flatMap escape ++ '"' :: rest) rest := by
  induction s with
  | nil => exact .close
  | cons c s ih =>
    rw [List.flatMap_cons, List.append_assoc]
    exact .char (readsChar_escape c _) ih

/-- A decimal number has no needless zero. -/
theorem eq_zero_of_head?_decimal {n : Nat} (h : (decimal n).head? = some '0') : n = 0 := by
  induction n using Nat.strongRecOn with
  | ind n ih =>
    by_cases hn : n < 10
    · rw [decimal, Nat.toDigits_of_lt_base hn] at h
      have hdigit : ∀ m < 10, Nat.digitChar m = '0' → m = 0 := by decide
      exact hdigit n hn (Option.some.inj h)
    · have hmore := Nat.toDigits_append_toDigits (b := 10) (n := n / 10) (d := n % 10) (by decide)
        (by omega) (Nat.mod_lt n (by decide))
      rw [Nat.div_add_mod] at hmore
      obtain ⟨c, l, hl⟩ := List.exists_cons_of_ne_nil (Nat.toDigits_ne_nil (n := n / 10) (b := 10))
      rw [decimal, ← hmore, hl] at h
      have hzero := ih (n / 10) (by omega) (by rw [decimal, hl]; exact h)
      omega

theorem isNumeral_decimal (n : Nat) : IsNumeral (decimal n) := by
  refine ⟨Nat.toDigits_ne_nil, fun h => ?_⟩
  rw [eq_zero_of_head?_decimal h]
  rfl

/-- The text does not go on with a digit. -/
def EndsNumber (t : Text) : Prop := ∀ c ∈ t.head?, c.isDigit = false

theorem reads_decimal (n : Nat) {rest : Text} (h : EndsNumber rest) :
    Reads (.value (.number n)) (decimal n ++ rest) rest := by
  have hdigits : ∀ c ∈ decimal n, c.isDigit = true := fun c hc =>
    Nat.isDigit_of_mem_toDigits (by decide) (by decide) hc
  have hend : rest.takeWhile Char.isDigit = [] ∧ rest.dropWhile Char.isDigit = rest := by
    cases rest with
    | nil => exact ⟨rfl, rfl⟩
    | cons c rest =>
      have hc := Bool.eq_false_iff.1 (h c rfl)
      exact ⟨List.takeWhile_cons_of_neg hc, List.dropWhile_cons_of_neg hc⟩
  have htake : (decimal n ++ rest).takeWhile Char.isDigit = decimal n := by
    rw [List.takeWhile_append_of_pos hdigits, hend.1, List.append_nil]
  have hdrop : (decimal n ++ rest).dropWhile Char.isDigit = rest := by
    rw [List.dropWhile_append_of_pos hdigits, hend.2]
  have hreads := Reads.number (t := decimal n ++ rest) (by rw [htake]; exact isNumeral_decimal n)
  rwa [htake, hdrop, decimal, Nat.ofDigitChars_toDigits (by decide) (by decide)] at hreads

theorem endsNumber_cons {c : Char} (h : c.isDigit = false) (t : Text) : EndsNumber (c :: t) := by
  rintro _ ⟨⟩
  exact h

/-- A blank is no digit. -/
theorem EndsNumber.of_skip {t : Text} (h : EndsNumber (skip t)) : EndsNumber t := by
  cases t with
  | nil => exact h
  | cons c t =>
    by_cases hspace : isSpace c = true
    · apply endsNumber_cons
      rw [Bool.eq_false_iff]
      intro hdigit
      rw [Starts.not_isSpace (.inl hdigit)] at hspace
      cases hspace
    · rwa [skip_cons (Bool.eq_false_iff.2 hspace)] at h

/-- What comes after an item does not start with a digit. -/
theorem Reads.endsNumber_items {js : List Json} {t rest : Text} (h : Reads (.items js) t rest) :
    EndsNumber t := by
  apply EndsNumber.of_skip
  cases h with
  | endArray h | item h =>
    rw [h]
    exact endsNumber_cons rfl _

theorem Reads.endsNumber_members {ms : List (Text × Json)} {t rest : Text}
    (h : Reads (.members ms) t rest) : EndsNumber t := by
  apply EndsNumber.of_skip
  cases h with
  | endObject h | another h =>
    rw [h]
    exact endsNumber_cons rfl _

theorem quote_append (s rest : Text) :
    quote s ++ rest = '"' :: (s.flatMap escape ++ '"' :: rest) := by
  simp [quote]

/-- A member that is laid out is read, if its value is. -/
theorem reads_member (name : Text) {j : Json} {t rest : Text} (h : Reads (.value j) t rest) :
    Reads (.member name j) (quote name ++ (':' :: ' ' :: t)) rest := by
  have hblank : skip (' ' :: t) = t := h.skip_eq
  rw [quote_append]
  exact .member (readsText_quote name _) (skip_cons rfl _) (by rwa [hblank])

theorem skip_quote_append (s rest : Text) : skip (quote s ++ rest) = quote s ++ rest := by
  rw [quote_append, skip_cons rfl]

-- An item or a member is followed by the others, each after a comma, and by a bracket on a line
-- of its own. None of these signs is a digit, so a number before them ends there.
mutual

/-- The layout of a value is read as the value. -/
theorem reads_layout (depth : Nat) (j : Json) {rest : Text} (h : EndsNumber rest) :
    Reads (.value j) (layout depth j ++ rest) rest := by
  cases j with
  | number n =>
    rw [layout]
    exact reads_decimal n h
  | string s =>
    rw [layout, quote_append]
    exact .string (readsText_quote s rest)
  | array items =>
    cases items with
    | nil => exact .emptyArray rfl
    | cons j items =>
      have hitems := reads_layoutItems (depth + 1) items depth rest
      have hj := reads_layout (depth + 1) j hitems.endsNumber_items
      have htext : layout depth (.array (j :: items)) ++ rest =
          '[' :: (newline (depth + 1) ++ (layout (depth + 1) j ++
            (layoutItems (depth + 1) items ++ (newline depth ++ ']' :: rest)))) := by
        simp [layout]
      rw [htext]
      exact .array (by rw [skip_newline, hj.skip_eq]; exact hj) hitems
  | object members =>
    cases members with
    | nil => exact .emptyObject rfl
    | cons m members =>
      obtain ⟨name, j⟩ := m
      have hmembers := reads_layoutMembers (depth + 1) members depth rest
      have hm := reads_member name (reads_layout (depth + 1) j hmembers.endsNumber_members)
      have htext : layout depth (.object ((name, j) :: members)) ++ rest =
          '\x7b' :: (newline (depth + 1) ++ (quote name ++ (':' :: ' ' :: (layout (depth + 1) j ++
            (layoutMembers (depth + 1) members ++ (newline depth ++ '\x7d' :: rest)))))) := by
        simp [layout]
      rw [htext]
      exact .object (by rw [skip_newline, skip_quote_append]; exact hm) hmembers

/-- The items after the first one are read up to their bracket. -/
theorem reads_layoutItems (depth : Nat) (items : List Json) (outer : Nat) (rest : Text) :
    Reads (.items items) (layoutItems depth items ++ (newline outer ++ ']' :: rest)) rest := by
  cases items with
  | nil => exact .endArray (skip_newline outer _)
  | cons j items =>
    have hitems := reads_layoutItems depth items outer rest
    have hj := reads_layout depth j hitems.endsNumber_items
    have htext : layoutItems depth (j :: items) ++ (newline outer ++ ']' :: rest) =
        ',' :: (newline depth ++ (layout depth j ++
          (layoutItems depth items ++ (newline outer ++ ']' :: rest)))) := by
      simp [layoutItems]
    rw [htext]
    exact .item (skip_cons rfl _) (by rw [skip_newline, hj.skip_eq]; exact hj) hitems

/-- The members after the first one are read up to their bracket. -/
theorem reads_layoutMembers (depth : Nat) (members : List (Text × Json)) (outer : Nat)
    (rest : Text) :
    Reads (.members members) (layoutMembers depth members ++ (newline outer ++ '\x7d' :: rest))
      rest := by
  cases members with
  | nil => exact .endObject (skip_newline outer _)
  | cons m members =>
    obtain ⟨name, j⟩ := m
    have hmembers := reads_layoutMembers depth members outer rest
    have hm := reads_member name (reads_layout depth j hmembers.endsNumber_members)
    have htext : layoutMembers depth ((name, j) :: members) ++ (newline outer ++ '\x7d' :: rest) =
        ',' :: (newline depth ++ (quote name ++ (':' :: ' ' :: (layout depth j ++
          (layoutMembers depth members ++ (newline outer ++ '\x7d' :: rest)))))) := by
      simp [layoutMembers]
    rw [htext]
    exact .another (skip_cons rfl _) (by rw [skip_newline, skip_quote_append]; exact hm) hmembers

end

/-- The layout of a document is the document, also with blanks after it. -/
theorem document_pretty (j : Json) (ending : Text) (h : skip ending = []) :
    Document j (j.pretty ++ ending) := by
  have hend : EndsNumber ending := by
    apply EndsNumber.of_skip
    rw [h]
    rintro _ ⟨⟩
  have hj := reads_layout 0 j hend
  exact ⟨ending, by rw [pretty, hj.skip_eq]; exact hj, h⟩

end ImportAlias.Json
