import ImportAlias.Proofs.OnePass

/-!
# Reading a text again

A text is read, its specifiers are replaced, and the result is read a second time.
What can the second reading find? The first one stops being live after each clause
that it took; the second one passes over the new specifier without stopping and is
still live after it. So it finds exactly the clauses that stand in the kept text
after some specifier, within reach of an import there, of one in the new specifier,
or of the one before it.

## The model

`reaches live t` is whether the reader meets a clause in `t` at all. `stretches` lists
each specifier with the kept text from there to the next one. `reaches_fill` says that
the second reading meets a clause if and only if it meets one in some stretch.
-/

namespace ImportAlias.Import

/-! ### Meeting a clause -/

/-- Whether a live import reaches a relative clause in a text. -/
def reaches (live : Bool) : Text → Bool
  | [] => false
  | c :: t => live && (Clause.read? (c :: t)).isSome || reaches (liveAfter live c t) t

/-- Whether an import is live at the end of a text. -/
def liveAt (live : Bool) : Text → Bool
  | [] => live
  | c :: t => liveAt (liveAfter live c t) t

/-- A reading has specifiers to replace if and only if it meets a clause. -/
theorem Reads.specsOf_eq_nil_iff {live : Bool} {t : Text} {ms : List Mark} (h : Reads live t ms) :
    specsOf ms = [] ↔ reaches live t = false := by
  induction h with
  | done => simp [specsOf, reaches]
  | @keep live c t ms none_here _ ih =>
    have hnone : (live && (Clause.read? (c :: t)).isSome) = false := by
      cases live with
      | false => rfl
      | true => simp [none_here rfl]
    simp [specsOf, reaches, hnone, ih]
  | @clause t rest c ms here _ ih =>
    have hreach : reaches true t = true := by
      cases t with
      | nil => cases here
      | cons x t => simp [reaches, here]
    simp [hreach]

theorem Reads.eq_plain_of_specsOf {live : Bool} {t : Text} {ms : List Mark} (h : Reads live t ms)
    (hs : specsOf ms = []) : ms = plain t := by
  induction h with
  | done => rfl
  | keep _ _ ih => rw [ih hs]; rfl
  | clause here _ ih => simp at hs

theorem liveAfter_mono {a b : Bool} (h : a = true → b = true) (c : Char) (t : Text)
    (ha : liveAfter a c t = true) : liveAfter b c t = true := by
  simp only [liveAfter, Bool.and_eq_true, Bool.or_eq_true] at ha ⊢
  exact ⟨ha.1, ha.2.imp_left h⟩

theorem liveAt_mono {a b : Bool} (h : a = true → b = true) (t : Text) (ha : liveAt a t = true) :
    liveAt b t = true := by
  induction t generalizing a b with
  | nil => exact h ha
  | cons c t ih => exact ih (liveAfter_mono h c t) ha

/-- An import that is live at the end of a text is live there whatever stands before. -/
theorem liveAt_append (live : Bool) (s t : Text) (h : liveAt false t = true) :
    liveAt live (s ++ t) = true := by
  induction s generalizing live with
  | nil => exact liveAt_mono (by simp) t h
  | cons c s ih => exact ih _

/-! ### Texts that end with a quote

What the reader does in a text that ends with a quote does not depend on what follows,
as long as that is not `../`: the words it looks for have no quote in them, and the
opening of a clause has one, right before its `../`.
-/

/-- The last character of a text is a quote. -/
def EndsQuoted (t : Text) : Prop := ∃ l q, t = l ++ [q] ∧ isQuote q = true

theorem EndsQuoted.append {t : Text} (s : Text) (h : EndsQuoted t) : EndsQuoted (s ++ t) := by
  obtain ⟨l, q, rfl, hq⟩ := h
  exact ⟨s ++ l, q, by simp, hq⟩

theorem EndsQuoted.tail {c : Char} {t : Text} (h : EndsQuoted (c :: t)) : t = [] ∨ EndsQuoted t := by
  obtain ⟨l, q, hl, hq⟩ := h
  cases l with
  | nil => exact .inl (List.cons.inj hl).2
  | cons a l => exact .inr ⟨l, q, (List.cons.inj hl).2, hq⟩

theorem EndsQuoted.isSome_after?_importWord {t : Text} (h : EndsQuoted t) (r : Text) :
    (after? importWord (t ++ r)).isSome = (after? importWord t).isSome := by
  obtain ⟨l, q, rfl, hq⟩ := h
  have hword : q ∉ importWord := fun hm => QuoteFree.false_of_mem (by decide) hm hq
  rw [List.append_assoc, List.singleton_append, isSome_after?_append_cons hword,
    isSome_after?_append_cons hword]

/-- The one quote in the opening of a clause is the one before its specifier. -/
theorem Opens.eq_parentStep {gap l r : Text} {q q' : Char} (ho : Opens gap q) (hq : isQuote q')
    (h : fromWord ++ gap ++ q :: Specifier.parentStep = l ++ q' :: r) :
    r = Specifier.parentStep := by
  rcases List.append_eq_append_iff.1 h with ⟨as, -, hr⟩ | ⟨bs, hl, hr⟩
  · cases as with
    | nil => exact (List.cons.inj hr).2.symm
    | cons a as =>
      have hmem : q' ∈ Specifier.parentStep := by rw [(List.cons.inj hr).2]; simp
      exact (QuoteFree.false_of_mem (by decide) hmem hq).elim
  · cases bs with
    | nil => exact (List.cons.inj hr).2
    | cons b bs =>
      have hmem : q' ∈ fromWord ++ gap := by rw [hl, (List.cons.inj hr).1]; simp
      exact (ho.quoteFree.false_of_mem hmem hq).elim

/-- More text after a clause does not keep it from being read. -/
theorem isSome_read?_append {t : Text} (r : Text) (h : (Clause.read? t).isSome) :
    (Clause.read? (t ++ r)).isSome := by
  obtain ⟨gap, q, v, rfl, ho, c, hc, hq⟩ := Clause.isSome_read?_iff.1 h
  exact Clause.isSome_read?_iff.2
    ⟨gap, q, v ++ r, by simp, ho, c, List.mem_append_left _ hc, hq⟩

theorem EndsQuoted.isSome_read? {t r : Text} (h : EndsQuoted t)
    (hr : after? Specifier.parentStep r = none) :
    (Clause.read? (t ++ r)).isSome = (Clause.read? t).isSome := by
  rw [Bool.eq_iff_iff]
  refine ⟨?_, isSome_read?_append r⟩
  rw [Clause.isSome_read?_iff, Clause.isSome_read?_iff]
  obtain ⟨l, q, rfl, hq⟩ := h
  rintro ⟨gap, q₀, v, ht, ho, -⟩
  have ht' : l ++ [q] ++ r = (fromWord ++ gap ++ q₀ :: Specifier.parentStep) ++ v := by simp [ht]
  rcases List.append_eq_append_iff.1 ht' with ⟨as, hl, rfl⟩ | ⟨bs, hl, -⟩
  · -- the text ends inside the opening, so at the quote of the opening
    have has : as = Specifier.parentStep := ho.eq_parentStep hq (hl.trans (List.append_assoc ..))
    rw [has, after?_append] at hr
    cases hr
  · -- the opening lies in the text, and the last quote comes after it
    obtain rfl | ⟨as, a, rfl⟩ := bs.eq_nil_or_concat
    · have hl' : l ++ [q] = (fromWord ++ gap ++ [q₀, '.', '.']) ++ ['/'] := by
        simpa [Specifier.parentStep] using hl
      have hlast := (List.cons.inj (List.append_inj_right' hl' rfl)).1
      exact absurd (hlast ▸ hq) (by decide)
    · have hl' : l ++ [q] = (fromWord ++ gap ++ q₀ :: Specifier.parentStep ++ as) ++ [a] := by
        simpa using hl
      have hlast := (List.cons.inj (List.append_inj_right' hl' rfl)).1
      exact ⟨gap, q₀, as ++ [a], by simp [hl], ho, a, by simp, hlast ▸ hq⟩

/-- Reading a text that ends with a quote, and then reading on. -/
theorem EndsQuoted.reaches_append {t r : Text} (live : Bool) (h : EndsQuoted t)
    (hr : after? Specifier.parentStep r = none) :
    reaches live (t ++ r) = (reaches live t || reaches (liveAt live t) r) := by
  induction t generalizing live with
  | nil => simp [reaches, liveAt]
  | cons c t ih =>
    have hread : (Clause.read? (c :: (t ++ r))).isSome = (Clause.read? (c :: t)).isSome :=
      h.isSome_read? hr
    have hafter : liveAfter live c (t ++ r) = liveAfter live c t := by
      have := h.isSome_after?_importWord r
      rw [List.cons_append] at this
      rw [liveAfter, liveAfter, this]
    rw [List.cons_append, reaches, reaches, liveAt, hread, hafter, Bool.or_assoc]
    rcases h.tail with rfl | ht
    · simp [reaches, liveAt]
    · rw [ih _ ht]

/-! ### Blocks -/

/-- The kept text before the first specifier. -/
def lead : List Mark → Text
  | [] => []
  | .kept c :: ms => c :: lead ms
  | .spec _ :: _ => []

/-- Each specifier with the kept text after it, up to the next one. -/
def stretches : List Mark → List (Text × Text)
  | [] => []
  | .kept _ :: ms => stretches ms
  | .spec s :: ms => (s, lead ms) :: stretches ms

@[simp] theorem lead_plain (t : Text) : lead (plain t) = t := by
  induction t with
  | nil => rfl
  | cons c t ih => simp [lead, ih]

@[simp] theorem lead_plain_append (t : Text) (ms : List Mark) :
    lead (plain t ++ ms) = t ++ lead ms := by
  induction t with
  | nil => rfl
  | cons c t ih => simp [lead, ih]

@[simp] theorem stretches_plain (t : Text) : stretches (plain t) = [] := by
  induction t with
  | nil => rfl
  | cons c t ih => simp [stretches, ih]

@[simp] theorem stretches_plain_append (t : Text) (ms : List Mark) :
    stretches (plain t ++ ms) = stretches ms := by
  induction t with
  | nil => rfl
  | cons c t ih => simp [stretches, ih]

theorem liveAt_of_no_semicolon {t : Text} (h : ';' ∉ t) : liveAt true t = true := by
  induction t with
  | nil => rfl
  | cons c t ih =>
    have hc : c ≠ ';' := fun e => h (by simp [e])
    have : liveAfter true c t = true := by simp [liveAfter, hc]
    rw [liveAt, this, ih fun hm => h (List.mem_cons_of_mem _ hm)]

theorem reaches_of_no_slash {live : Bool} {t : Text} (h : '/' ∉ t) : reaches live t = false := by
  induction t generalizing live with
  | nil => rfl
  | cons c t ih =>
    have hread : (Clause.read? (c :: t)).isSome = false := by
      rw [Bool.eq_false_iff]
      intro hr
      obtain ⟨gap, q, v, ht, -⟩ := Clause.isSome_read?_iff.1 hr
      exact h (by simp [ht, Specifier.parentStep])
    rw [reaches, hread, ih fun hm => h (List.mem_cons_of_mem _ hm)]
    simp

theorem Clause.Valid.not_mem_head {c : Clause} (h : c.Valid) {x : Char} (hw : x ∉ fromWord)
    (hb : isBlank x = false) (hq : isQuote x = false) : x ∉ c.head := by
  obtain ⟨hgap, hquote⟩ := h.opens.not_mem hb hq
  simp only [Clause.head, List.mem_append, List.mem_singleton, not_or]
  exact ⟨⟨hw, hgap⟩, hquote⟩

/-- A reading starts with the kept text `l` and a specifier, and goes on as `ms`. -/
structure Block (live : Bool) (l : Text) (ms : List Mark) : Prop where
  /-- The specifier stands after a quote. -/
  endsQuoted : EndsQuoted l
  /-- An import is live before the specifier. -/
  live_at : liveAt live l = true
  /-- No clause was met before. -/
  not_reaches : reaches live l = false
  /-- What follows is read with no import live. -/
  rest : ∃ t, Reads false t ms

/-- Every reading is of plain text or starts with a block. -/
theorem Reads.cases_block {live : Bool} {t : Text} {ms : List Mark} (h : Reads live t ms) :
    (ms = plain t ∧ reaches live t = false) ∨
      ∃ l s q ms', ms = plain l ++ .spec s :: .kept q :: ms' ∧ Block live l ms' := by
  induction h with
  | done => exact .inl ⟨rfl, rfl⟩
  | @keep live c t ms none_here hr ih =>
    rcases ih with ⟨rfl, hreach⟩ | ⟨l, s, q, ms', rfl, hb⟩
    · refine .inl ⟨rfl, ?_⟩
      cases live with
      | false => simpa [reaches] using hreach
      | true => simpa [reaches, none_here rfl] using hreach
    · have ht : t = l ++ (s ++ q :: fill id ms') := by simpa [fill] using hr.fill_id.symm
      have hq : EndsQuoted (c :: l) := hb.endsQuoted.append [c]
      have hafter : liveAfter live c t = liveAfter live c l := by
        rw [ht, liveAfter, liveAfter, ← List.cons_append, hq.isSome_after?_importWord]
      have hread : (live && (Clause.read? (c :: l)).isSome) = false := by
        cases live with
        | false => rfl
        | true =>
          rw [Bool.true_and, Bool.eq_false_iff]
          intro hl
          have := isSome_read?_append (s ++ q :: fill id ms') hl
          rw [List.cons_append, ← ht, none_here rfl] at this
          cases this
      refine .inr ⟨c :: l, s, q, ms', rfl, hq, ?_, ?_, hb.rest⟩
      · rw [liveAt, ← hafter, hb.live_at]
      · rw [reaches, hread, ← hafter, hb.not_reaches]
        rfl
  | @clause t rest c ms here hrest _ =>
    obtain ⟨rfl, hv⟩ := Clause.read?_eq_some_iff.1 here
    refine .inr ⟨c.head, c.spec, c.closeQuote, ms, by simp [Clause.marks], ?_, ?_, ?_, _, hrest⟩
    · exact ⟨fromWord ++ c.gap, c.openQuote, rfl, hv.opens.quote⟩
    · exact liveAt_of_no_semicolon (hv.not_mem_head (by decide) (by decide) (by decide))
    · exact reaches_of_no_slash (hv.not_mem_head (by decide) (by decide) (by decide))

/-! ### The second reading -/

/-- **What the second reading finds.** If no new specifier is relative, a second reading
meets a clause if and only if it meets one before the first specifier or in a stretch of
kept text, where it starts at the new specifier with an import live. -/
theorem Reads.reaches_fill {f : Text → Text} {t : Text} {ms : List Mark} (h : Reads false t ms)
    (hf : ∀ s x, after? Specifier.parentStep (f s ++ x) = none) (live : Bool) (x : Text) :
    reaches live (x ++ fill f ms) =
      (reaches live (x ++ lead ms) || (stretches ms).any fun p => reaches true (f p.1 ++ p.2)) := by
  induction hn : ms.length using Nat.strongRecOn generalizing t ms live x with
  | _ n ih =>
    rcases h.cases_block with ⟨rfl, -⟩ | ⟨l, s, q, ms', rfl, hb⟩
    · simp
    · obtain ⟨t', ht'⟩ := hb.rest
      have hlive : liveAt live (x ++ l) = true := liveAt_append live x l hb.live_at
      calc reaches live (x ++ fill f (plain l ++ .spec s :: .kept q :: ms'))
          = reaches live ((x ++ l) ++ (f s ++ q :: fill f ms')) := by simp [fill]
        _ = (reaches live (x ++ l) || reaches true (f s ++ q :: fill f ms')) := by
            rw [(hb.endsQuoted.append x).reaches_append live (hf s _), hlive]
        _ = (reaches live (x ++ l) || reaches true ((f s ++ [q]) ++ fill f ms')) := by simp
        _ = _ := by
            rw [ih ms'.length (by simp at hn; omega) ht' true (f s ++ [q]) rfl]
            simp [lead, stretches]

end ImportAlias.Import
