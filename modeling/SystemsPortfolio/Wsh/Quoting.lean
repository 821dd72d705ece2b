/-
SystemsPortfolio/Wsh/Quoting.lean

Where the two scanners of the shell agree on quotes.

`split_pipeline` counts every quote, `parseline_no_subst` only those that open or close an
argument; a quote within a word is *stray* to the second and counts for the first.  Both
parities are followed by one scan of the line, byte by byte: the quotes read so far and the
stray ones differ by an odd number exactly within a quoted argument (`count_parity`).

Main result: bars and closing quotes are taken in the same way by both exactly when the
stray quotes before each bar are even in number, and no quote is lost by the splitting
(`quoting_agrees_iff`).
-/
import SystemsPortfolio.Wsh.Grammar
import SystemsPortfolio.Wsh.Split
import SystemsPortfolio.Wsh.RunLine

namespace SystemsPortfolio.Wsh

open PrefixCode

/-! ### The scan of a string -/

/-- Where the tokenizer is: between arguments, in a word, or in a quoted argument. -/
inductive Mode
  | gap
  | word
  | quoted
  deriving DecidableEq

def Mode.next : Mode → UInt8 → Mode
  | .gap, c => if c = space then .gap else if c = quote then .quoted else .word
  | .word, c => if c = space then .gap else .word
  | .quoted, c => if c = quote then .gap else .quoted

def modeAfter (m : Mode) (s : Str) : Mode :=
  s.foldl Mode.next m

/-- The number of quotes within words. -/
def strayFrom : Mode → Str → Nat
  | _, [] => 0
  | m, c :: s => strayFrom (m.next c) s + if m = .word ∧ c = quote then 1 else 0

def stray (s : Str) : Nat :=
  strayFrom .gap s

def Mode.opened (m : Mode) : Nat :=
  if m = .quoted then 1 else 0

theorem modeAfter_append (m : Mode) (s t : Str) :
    modeAfter m (s ++ t) = modeAfter (modeAfter m s) t :=
  List.foldl_append

@[simp] theorem next_gap_quote : Mode.gap.next quote = .quoted := rfl

@[simp] theorem next_word_quote : Mode.word.next quote = .word := rfl

@[simp] theorem next_quoted_quote : Mode.quoted.next quote = .gap := rfl

/-- Quotes are opened and closed by quotes only. -/
theorem opened_next {c : UInt8} (h : c ≠ quote) (m : Mode) : (m.next c).opened = m.opened := by
  cases m with
  | gap =>
      rw [Mode.next, if_neg h]
      split <;> rfl
  | word =>
      rw [Mode.next]
      split <;> rfl
  | quoted => rw [Mode.next, if_neg h]

/-- All quotes and the stray ones differ by an odd number within a quoted argument only. -/
theorem count_parity (m : Mode) (s : Str) :
    (s.count quote + m.opened) % 2 = (strayFrom m s + (modeAfter m s).opened) % 2 := by
  induction s generalizing m with
  | nil => simp [strayFrom, modeAfter]
  | cons c s ih =>
      have hnext := ih (m.next c)
      show _ = (strayFrom m (c :: s) + (modeAfter (m.next c) s).opened) % 2
      rw [strayFrom]
      by_cases hq : c = quote
      · subst hq
        rw [List.count_cons_self]
        cases m <;> simp [Mode.opened] at hnext ⊢ <;> omega
      · rw [opened_next hq] at hnext
        rw [List.count_cons_of_ne hq, if_neg fun h => hq h.2]
        exact hnext

theorem modeAfter_quoted {s : Str} (h : quote ∉ s) : modeAfter .quoted s = .quoted := by
  induction s with
  | nil => rfl
  | cons c s ih =>
      rw [List.mem_cons, not_or] at h
      show modeAfter (Mode.next .quoted c) s = _
      rw [Mode.next, if_neg (Ne.symm h.1)]
      exact ih h.2

theorem modeAfter_word {s : Str} (h : space ∉ s) : modeAfter .word s = .word := by
  induction s with
  | nil => rfl
  | cons c s ih =>
      rw [List.mem_cons, not_or] at h
      show modeAfter (Mode.next .word c) s = _
      rw [Mode.next, if_neg (Ne.symm h.1)]
      exact ih h.2

/-- No part of a word is in quotes. -/
theorem modeAfter_gap_word {s : Str} (hs : space ∉ s) (hq : s.head? ≠ some quote) :
    modeAfter .gap s ≠ .quoted := by
  rcases s with - | ⟨c, s⟩
  · simp [modeAfter]
  · rw [List.mem_cons, not_or] at hs
    have hc : c ≠ quote := by
      rintro rfl
      exact hq rfl
    show modeAfter (Mode.next .gap c) s ≠ _
    rw [Mode.next, if_neg (Ne.symm hs.1), if_neg hc, modeAfter_word hs.2]
    simp

/-- After an item the next one may begin. -/
theorem Item.Valid.modeAfter {i : Item} (h : i.Valid) : modeAfter .gap i.text = .gap := by
  rcases i with - | u | u
  · rfl
  · show Wsh.modeAfter .quoted (u ++ [quote]) = _
    rw [modeAfter_append, modeAfter_quoted h]
    rfl
  · obtain ⟨c, t, rfl, hq, hs⟩ := h.word_cons
    have ht : space ∉ t := fun hmem => h.2.2 (by simp [hmem])
    show Wsh.modeAfter (Mode.next .gap c) (t ++ [space]) = _
    rw [Mode.next, if_neg hs, if_neg hq, modeAfter_append, modeAfter_word ht]
    rfl

theorem modeAfter_items {items : List Item} (h : ∀ i ∈ items, i.Valid) :
    modeAfter .gap (items.flatMap Item.text) = .gap := by
  induction items with
  | nil => rfl
  | cons i items ih =>
      rw [List.flatMap_cons, modeAfter_append, (h i (by simp)).modeAfter]
      exact ih fun j hj => h j (by simp [hj])

/-! ### The end of a string -/

/-- The last byte of the buffer changes nothing but a word. -/
theorem quoted_append_singleton {c : UInt8} (hc : c ≠ quote) (m : Mode) (s : Str) :
    modeAfter m (s ++ [c]) = .quoted ↔ modeAfter m s = .quoted := by
  have h := opened_next hc (modeAfter m s)
  rw [modeAfter_append]
  show (modeAfter m s).next c = _ ↔ _
  simp only [Mode.opened] at h
  constructor
  · intro e
    rw [if_pos e] at h
    by_contra hne
    rw [if_neg hne] at h
    cases h
  · intro e
    rw [if_pos e] at h
    by_contra hne
    rw [if_neg hne] at h
    cases h

theorem bar_append_singleton {c : UInt8} (hc : c ≠ bar) (s u : Str) :
    (∃ v, s ++ [c] = u ++ bar :: v) ↔ ∃ v, s = u ++ bar :: v := by
  constructor
  · rintro ⟨v, e⟩
    rcases append_singleton_eq_iff.1 e with ⟨-, -, hcb⟩ | ⟨v', -, hs⟩
    · exact absurd hcb hc
    · exact ⟨v', hs⟩
  · rintro ⟨v, rfl⟩
    exact ⟨v ++ [c], by simp⟩

theorem modeAfter_parseBuf (cmdline : Str) :
    modeAfter .gap (parseBuf cmdline) = .quoted ↔ modeAfter .gap cmdline = .quoted := by
  obtain ⟨u, hbuf, rfl | rfl⟩ := parseBuf_cases cmdline
  · rw [hbuf]
    exact quoted_append_singleton (by decide) ..
  · rw [hbuf, quoted_append_singleton (by decide), quoted_append_singleton (by decide)]

theorem bar_parseBuf (cmdline u : Str) :
    (∃ v, parseBuf cmdline = u ++ bar :: v) ↔ ∃ v, cmdline = u ++ bar :: v := by
  obtain ⟨u', hbuf, rfl | rfl⟩ := parseBuf_cases cmdline
  · rw [hbuf]
    exact bar_append_singleton (by decide) ..
  · rw [hbuf, bar_append_singleton (by decide), bar_append_singleton (by decide)]

/-- A quote is missing exactly when the string ends within a quoted argument. -/
theorem closed_iff_modeAfter (cmdline : Str) :
    (parselineNoSubst cmdline).closed = true ↔ modeAfter .gap cmdline ≠ .quoted := by
  obtain ⟨items, rest, h⟩ := exists_reads cmdline
  have hmode : modeAfter .gap (parseBuf cmdline) = modeAfter .gap rest := by
    rw [h.eq, modeAfter_append, modeAfter_items h.words]
  rw [parselineNoSubst_reads h, ne_eq, ← modeAfter_parseBuf, hmode]
  rcases unread_of_reads h with rfl | ⟨t, rfl, ht⟩
  · simp [modeAfter]
  · have : modeAfter .gap (quote :: t) = .quoted := modeAfter_quoted ht
    simp [this]

/-- Counted by quotes: a string closes those it opens when all of its quotes and the stray
ones have the same parity. -/
theorem closed_iff_parity (cmdline : Str) :
    (parselineNoSubst cmdline).closed = true ↔
      stray cmdline % 2 = cmdline.count quote % 2 := by
  have h := count_parity .gap cmdline
  rw [closed_iff_modeAfter, stray]
  by_cases hm : modeAfter .gap cmdline = .quoted
  · simp only [hm, Mode.opened, reduceCtorEq, if_true, if_false] at h
    simp only [hm, ne_eq, not_true_eq_false, false_iff]
    omega
  · simp only [hm, Mode.opened, reduceCtorEq, if_false] at h
    simp only [hm, ne_eq, not_false_eq_true, true_iff]
    omega

/-! ### Bars -/

/-- A bar stands in a quoted item exactly when the scan is within quotes there. -/
theorem Item.Valid.bar_iff {i : Item} (h : i.Valid) :
    (∀ t ∈ i.arg, bar ∈ t → i = .quoted t) ↔
      ∀ u v, i.text = u ++ bar :: v → Wsh.modeAfter .gap u = .quoted := by
  rcases i with - | t | t
  · refine iff_of_true (by simp [Item.arg]) ?_
    intro u v e
    have hmem : bar ∈ [space] := by
      rw [show [space] = u ++ bar :: v from e]
      simp
    exact absurd (List.mem_singleton.1 hmem) (by decide)
  · refine iff_of_true (by simp [Item.arg]) ?_
    intro u v e
    rcases u with - | ⟨c, u⟩
    · exact absurd (List.cons.inj e).1 (by decide)
    · obtain ⟨rfl, e'⟩ := List.cons.inj e
      obtain ⟨v, rfl⟩ := (bar_append_singleton (by decide) t u).1 ⟨v, e'⟩
      exact modeAfter_quoted fun hmem => h (by simp [hmem])
  · constructor
    · intro hno u v e
      obtain ⟨v, rfl⟩ := (bar_append_singleton (by decide) t u).1 ⟨v, e⟩
      exact absurd (hno _ rfl (by simp)) (by simp)
    · intro hmode t' ht' hbar
      obtain rfl := Option.some.inj ht'
      obtain ⟨u, v, rfl⟩ := List.append_of_mem hbar
      have hq := hmode u (v ++ [space]) (by simp [Item.text])
      refine absurd hq (modeAfter_gap_word ?_ ?_)
      · intro hmem
        exact h.2.2 (by simp [hmem])
      · rcases u with - | ⟨c, u⟩
        · simp
        · exact h.2.1

theorem bar_items_iff {items : List Item} (h : ∀ i ∈ items, i.Valid) :
    (∀ i ∈ items, ∀ t ∈ i.arg, bar ∈ t → i = .quoted t) ↔
      ∀ u v, items.flatMap Item.text = u ++ bar :: v → modeAfter .gap u = .quoted := by
  induction items with
  | nil => simp
  | cons i items ih =>
      have hi := h i (by simp)
      rw [List.forall_mem_cons, hi.bar_iff, ih fun j hj => h j (by simp [hj])]
      constructor
      · rintro ⟨hhere, hlater⟩ u v e
        -- the bar is in the first item or after it
        rw [List.flatMap_cons] at e
        rcases List.append_eq_append_iff.1 e with ⟨t, rfl, ht⟩ | ⟨t, ht, hv⟩
        · rw [modeAfter_append, hi.modeAfter]
          exact hlater t v ht
        · rcases t with - | ⟨c, t⟩
          · have hstart := hlater [] v hv.symm
            cases hstart
          · obtain ⟨rfl, rfl⟩ := List.cons.inj hv
            exact hhere u t ht
      · intro hall
        constructor
        · intro u v e
          apply hall u (v ++ items.flatMap Item.text)
          rw [List.flatMap_cons, e]
          simp
        · intro u v e
          have := hall (i.text ++ u) v (by rw [List.flatMap_cons, e, List.append_assoc])
          rwa [modeAfter_append, hi.modeAfter] at this

/-- In a segment that is read to its end: no bar stands in a word exactly when the stray
quotes before each bar are even in number. -/
theorem Reading.bar_iff {seg : Str} {items : List Item} (h : Reading seg items)
    (hin : ∀ u v, seg = u ++ bar :: v → u.count quote % 2 = 1) :
    (∀ i ∈ items, ∀ t ∈ i.arg, bar ∈ t → i = .quoted t) ↔
      ∀ u v, seg = u ++ bar :: v → stray u % 2 = 0 := by
  have hparity {u v : Str} (e : seg = u ++ bar :: v) :
      modeAfter .gap u = .quoted ↔ stray u % 2 = 0 := by
    have hodd := hin u v e
    have hcount := count_parity .gap u
    rw [stray]
    by_cases hm : modeAfter .gap u = .quoted
    · simp only [hm, Mode.opened, reduceCtorEq, if_true, if_false] at hcount
      simp only [hm, true_iff]
      omega
    · simp only [hm, Mode.opened, reduceCtorEq, if_false] at hcount
      simp only [hm, false_iff]
      omega
  rw [bar_items_iff h.1, ← h.2]
  constructor
  · intro hall u v e
    obtain ⟨v', e'⟩ := (bar_parseBuf seg u).2 ⟨v, e⟩
    exact (hparity e).1 (hall u v' e')
  · intro hall u v e
    obtain ⟨v', e'⟩ := (bar_parseBuf seg u).1 ⟨v, e⟩
    exact (hparity e').2 (hall u v' e')

/-! ### Agreement -/

/-- The scanners agree on a line: in every segment that is tokenized to its end, what holds a
bar is a quoted argument; and if no quote is missing in the line, none is in a segment. -/
def QuotingAgrees (max : Nat) (line : Str) : Prop :=
  ∀ segs, splitPipeline line max = some segs →
    (∀ seg ∈ segs, ∀ items, Reading seg items →
      ∀ i ∈ items, ∀ t ∈ i.arg, bar ∈ t → i = .quoted t)
    ∧ ((parselineNoSubst line).closed = true →
      ∀ seg ∈ segs, (parselineNoSubst seg).closed = true)

/-- Stray quotes do no harm: in a segment that can be read, an even number of them stands
before each bar; and if the line can be read, each segment but the last has an even number
of them, and the last one as many as the line has quotes, up to pairs. -/
structure Aligned (line : Str) (segs : List Str) : Prop where
  bars : ∀ seg ∈ segs, (∃ items, Reading seg items) →
    ∀ u v, seg = u ++ bar :: v → stray u % 2 = 0
  ends : (∃ items, Reading line items) →
    (∀ seg ∈ segs.dropLast, stray seg % 2 = 0)
      ∧ ∀ seg ∈ segs.getLast?, stray seg % 2 = line.count quote % 2

/-- Every segment closes its quotes, said by parities. -/
theorem Segments.closed_iff {line : Str} {segs : List Str} (h : Segments line segs) :
    (∀ seg ∈ segs, (parselineNoSubst seg).closed = true) ↔
      (∀ seg ∈ segs.dropLast, stray seg % 2 = 0)
        ∧ ∀ seg ∈ segs.getLast?, stray seg % 2 = line.count quote % 2 := by
  simp only [closed_iff_parity]
  constructor
  · intro hall
    constructor
    · intro seg hseg
      rw [hall seg (List.dropLast_subset segs hseg), h.even seg hseg]
    · intro seg hseg
      rw [hall seg (List.mem_of_getLast? hseg), h.count_last hseg]
  · rintro ⟨hfirst, hlast⟩ seg hseg
    obtain ⟨last, hl⟩ := Option.ne_none_iff_exists'.1 (mt List.getLast?_eq_none_iff.1 h.ne_nil)
    rw [← List.dropLast_append_getLast? last hl] at hseg
    rcases List.mem_append.1 hseg with hmem | hmem
    · rw [hfirst seg hmem, h.even seg hmem]
    · obtain rfl := List.mem_singleton.1 hmem
      rw [hlast seg hl, h.count_last hl]

/-- What the code should do with the segments, said by parities. -/
theorem Segments.aligned_iff {line : Str} {segs : List Str} (h : Segments line segs) :
    Aligned line segs ↔
      (∀ seg ∈ segs, ∀ items, Reading seg items →
        ∀ i ∈ items, ∀ t ∈ i.arg, bar ∈ t → i = .quoted t)
      ∧ ((parselineNoSubst line).closed = true →
        ∀ seg ∈ segs, (parselineNoSubst seg).closed = true) := by
  constructor
  · rintro ⟨hbars, hends⟩
    constructor
    · intro seg hseg items hr
      rw [hr.bar_iff (h.inner seg hseg)]
      exact hbars seg hseg ⟨items, hr⟩
    · intro hline
      rw [h.closed_iff]
      exact hends (Wsh.closed_iff.1 hline)
  · rintro ⟨hbars, hends⟩
    constructor
    · rintro seg hseg ⟨items, hr⟩
      rw [← hr.bar_iff (h.inner seg hseg)]
      exact hbars seg hseg items hr
    · intro hline
      rw [← h.closed_iff]
      exact hends (Wsh.closed_iff.2 hline)

/-- The scanners agree on exactly the lines that are refused or whose stray quotes do no
harm. -/
theorem quoting_agrees_iff (max : Nat) (line : Str) :
    QuotingAgrees max line ↔
      (1 + separators line ≤ max → ∀ segs, Segments line segs → Aligned line segs) := by
  have hspec := segments_spec line
  rw [QuotingAgrees, splitPipeline_eq]
  constructor
  · intro hagree hfit segs hsegs
    rw [if_pos hfit] at hagree
    obtain rfl := hsegs.unique hspec
    exact hsegs.aligned_iff.2 (hagree _ rfl)
  · intro haligned segs e
    split at e
    · next hfit =>
        obtain rfl := Option.some.inj e
        exact hspec.aligned_iff.1 (haligned hfit _ hspec)
    · cases e

/-- In the first line the bar is counted as quoted and becomes an argument; in the second
one the quoted argument is cut in two. -/
theorem quoting_disagrees :
    ¬ QuotingAgrees maxSegs (ascii "echo it's | wc") ∧ ¬ QuotingAgrees maxSegs (ascii "x' 'y|z'") := by
  constructor
  · intro h
    have hbar := (h [ascii "echo it's | wc"] (by decide +kernel)).1
      (ascii "echo it's | wc") (by simp)
      [.word (ascii "echo"), .word (ascii "it's"), .word [bar], .word (ascii "wc")]
      (by decide +kernel) (.word [bar]) (by simp) [bar] rfl (by simp)
    cases hbar
  · intro h
    have hclosed := (h [ascii "x' 'y", ascii "z'"] (by decide +kernel)).2 (by decide +kernel)
      (ascii "x' 'y") (by simp)
    exact absurd hclosed (by decide +kernel)

end SystemsPortfolio.Wsh
