/-
SystemsPortfolio/Wsh/Split.lean

What `split_pipeline` makes of a line.

A bar separates two segments when an even number of quotes stands before it.  The flag of
the loop is the parity of the quotes in the segment under way, since every finished segment
has an even number of them; so the segments are those of the line, whatever the limit, and
the limit only decides whether they are returned.
-/
import SystemsPortfolio.Wsh.Parse

namespace SystemsPortfolio.Wsh

/-! ### Segments of a line -/

/-- The number of bars with an even number of quotes before them. -/
def separators (text : Str) : Nat :=
  (List.range text.length).countP fun i =>
    text[i]? = some bar ∧ (text.take i).count quote % 2 = 0

/-- `segs` are the segments of `line`: joined by bars they give it back, each that is
followed by another one has an even number of quotes, and a bar within a segment has an odd
number of them before it. -/
structure Segments (line : Str) (segs : List Str) : Prop where
  ne_nil : segs ≠ []
  joined : [bar].intercalate segs = line
  even : ∀ seg ∈ segs.dropLast, seg.count quote % 2 = 0
  inner : ∀ seg ∈ segs, ∀ u v, seg = u ++ bar :: v → u.count quote % 2 = 1

theorem Segments.single {seg : Str}
    (hin : ∀ u v, seg = u ++ bar :: v → u.count quote % 2 = 1) : Segments seg [seg] where
  ne_nil := by simp
  joined := by simp
  even := by simp
  inner := by simpa using hin

theorem Segments.cons {seg line : Str} {segs : List Str}
    (hin : ∀ u v, seg = u ++ bar :: v → u.count quote % 2 = 1) (heven : seg.count quote % 2 = 0)
    (h : Segments line segs) : Segments (seg ++ bar :: line) (seg :: segs) where
  ne_nil := by simp
  joined := by
    rw [List.intercalate_cons_of_ne_nil h.ne_nil, h.joined]
    simp
  even := by
    rw [List.dropLast_cons_of_ne_nil h.ne_nil]
    simpa using ⟨heven, h.even⟩
  inner := by
    intro seg' hseg'
    rcases List.mem_cons.1 hseg' with rfl | hmem
    · exact hin
    · exact h.inner seg' hmem

/-- What follows the first segment, when it is not the only one. -/
theorem Segments.tail {seg line : Str} {segs : List Str} (h : Segments line (seg :: segs))
    (hne : segs ≠ []) :
    ∃ rest, line = seg ++ bar :: rest ∧ seg.count quote % 2 = 0 ∧ Segments rest segs := by
  have heven := h.even
  rw [List.dropLast_cons_of_ne_nil hne] at heven
  refine ⟨[bar].intercalate segs, ?_, heven seg (by simp), hne, rfl, ?_, ?_⟩
  · rw [← h.joined, List.intercalate_cons_of_ne_nil hne]
    simp
  · intro seg' hseg'
    exact heven seg' (by simp [hseg'])
  · intro seg' hseg'
    exact h.inner seg' (by simp [hseg'])

/-- The last segment has as many quotes as the line, up to pairs. -/
theorem Segments.count_last {line seg : Str} {segs : List Str} (h : Segments line segs)
    (hseg : segs.getLast? = some seg) : seg.count quote % 2 = line.count quote % 2 := by
  induction segs generalizing line with
  | nil => cases hseg
  | cons a as ih =>
      by_cases has : as = []
      · subst has
        obtain rfl : a = seg := by simpa using hseg
        rw [← h.joined, List.intercalate_singleton]
      · obtain ⟨rest, rfl, heven, htail⟩ := h.tail has
        rw [List.getLast?_cons_of_ne_nil has] at hseg
        have hbar : (bar :: rest).count quote = rest.count quote :=
          List.count_cons_of_ne (by decide)
        rw [ih htail hseg, List.count_append, hbar]
        omega

/-- The first bar with an even number of quotes before it is decided by the line. -/
theorem eq_of_separator {a b u v : Str} (ha : ∀ x y, a = x ++ bar :: y → x.count quote % 2 = 1)
    (hb : ∀ x y, b = x ++ bar :: y → x.count quote % 2 = 1) (haeven : a.count quote % 2 = 0)
    (hbeven : b.count quote % 2 = 0) (e : a ++ bar :: u = b ++ bar :: v) : a = b ∧ u = v := by
  -- if one went on where the other ends, the bar there would be within it
  rcases List.append_eq_append_iff.1 e with ⟨t, ht, hu⟩ | ⟨t, ht, hu⟩ <;>
    rcases t with - | ⟨c, t⟩
  · simp only [List.nil_append, List.cons.injEq, true_and] at hu
    exact ⟨by rw [ht, List.append_nil], hu⟩
  · simp only [List.cons_append, List.cons.injEq] at hu
    have := hb a t (by rw [ht, hu.1])
    omega
  · simp only [List.nil_append, List.cons.injEq, true_and] at hu
    exact ⟨by rw [ht, List.append_nil], hu.symm⟩
  · simp only [List.cons_append, List.cons.injEq] at hu
    have := ha b t (by rw [ht, hu.1])
    omega

/-- A line has one row of segments at most. -/
theorem Segments.unique {line : Str} {segs segs' : List Str} (h : Segments line segs)
    (h' : Segments line segs') : segs = segs' := by
  induction segs generalizing segs' line with
  | nil => exact absurd rfl h.ne_nil
  | cons a as ih =>
      rcases segs' with - | ⟨b, bs⟩
      · exact absurd rfl h'.ne_nil
      · have ha := h.inner a (by simp)
        have hb := h'.inner b (by simp)
        by_cases has : as = [] <;> by_cases hbs : bs = []
        · subst has hbs
          have e := h.joined.trans h'.joined.symm
          simpa using e
        · obtain ⟨rest', e', heven, -⟩ := h'.tail hbs
          subst has
          have e := h.joined.trans e'
          have := ha b rest' (by simpa using e)
          omega
        · obtain ⟨rest, e', heven, -⟩ := h.tail has
          subst hbs
          have e := h'.joined.trans e'
          have := hb a rest (by simpa using e)
          omega
        · obtain ⟨rest, e, heven, htail⟩ := h.tail has
          obtain ⟨rest', e', heven', htail'⟩ := h'.tail hbs
          obtain ⟨rfl, rfl⟩ := eq_of_separator ha hb heven heven' (e.symm.trans e')
          rw [ih htail htail']

/-! ### The loop without its limit -/

/-- The segments of a line of which `seg` has been read since the last separator. -/
def segmentsFrom (inSingle : Bool) (seg : Str) : Str → List Str
  | [] => [seg]
  | c :: line =>
      if c = quote then segmentsFrom (!inSingle) (seg ++ [c]) line
      else if c = bar ∧ inSingle = false then seg :: segmentsFrom inSingle [] line
      else segmentsFrom inSingle (seg ++ [c]) line

theorem segmentsFrom_pos (inSingle : Bool) (seg line : Str) :
    0 < (segmentsFrom inSingle seg line).length := by
  induction line generalizing inSingle seg with
  | nil => simp [segmentsFrom]
  | cons c line ih =>
      rw [segmentsFrom]
      split
      · exact ih ..
      · split
        · simp
        · exact ih ..

/-- The loop returns the segments if there is room for all of them. -/
theorem splitLoop_eq (maxSegs : Nat) (line : Str) (inSingle : Bool) (seg : Str)
    (segs : List Str) :
    splitLoop maxSegs line inSingle seg segs =
      if segs.length + (segmentsFrom inSingle seg line).length ≤ maxSegs then
        some (segs ++ segmentsFrom inSingle seg line)
      else none := by
  induction line generalizing inSingle seg segs with
  | nil => rfl
  | cons c line ih =>
      rw [splitLoop, segmentsFrom]
      by_cases hq : c = quote
      · rw [if_pos hq, if_pos hq]
        exact ih ..
      · rw [if_neg hq, if_neg hq]
        by_cases hb : c = bar ∧ inSingle = false
        · rw [if_pos hb, if_pos hb, ih]
          have hpos := segmentsFrom_pos inSingle [] line
          simp only [List.length_append, List.length_cons, List.length_nil, List.append_assoc,
            List.singleton_append]
          split
          · congr 1
            simp only [eq_iff_iff]
            omega
          · rw [if_neg (by omega)]
        · rw [if_neg hb, if_neg hb]
          exact ih ..

theorem inner_append_singleton {seg : Str} {c : UInt8}
    (hin : ∀ u v, seg = u ++ bar :: v → u.count quote % 2 = 1)
    (hc : c = bar → seg.count quote % 2 = 1) :
    ∀ u v, seg ++ [c] = u ++ bar :: v → u.count quote % 2 = 1 := by
  intro u v e
  rcases append_singleton_eq_iff.1 e with ⟨-, rfl, hcb⟩ | ⟨v', -, hs⟩
  · exact hc hcb
  · exact hin u v' hs

/-- The flag is the parity of the quotes since the last separator. -/
theorem segmentsFrom_segments {inSingle : Bool} (seg line : Str)
    (hflag : inSingle = true ↔ seg.count quote % 2 = 1)
    (hin : ∀ u v, seg = u ++ bar :: v → u.count quote % 2 = 1) :
    Segments (seg ++ line) (segmentsFrom inSingle seg line) := by
  induction line generalizing inSingle seg with
  | nil =>
      rw [List.append_nil]
      exact .single hin
  | cons c line ih =>
      have hmove : seg ++ c :: line = seg ++ [c] ++ line := by simp
      rw [segmentsFrom]
      split
      · next hq =>
          rw [hmove]
          apply ih
          · rw [List.count_append, hq, List.count_singleton_self]
            cases inSingle <;> simp at hflag ⊢ <;> omega
          · exact inner_append_singleton hin fun hb => absurd (hq.symm.trans hb) (by decide)
      · next hq =>
          split
          · next hb =>
              obtain ⟨rfl, rfl⟩ := hb
              have heven : seg.count quote % 2 = 0 := by
                simp only [Bool.false_eq_true, false_iff] at hflag
                omega
              exact .cons hin heven (ih [] (by simp) (by simp))
          · next hb =>
              rw [hmove]
              apply ih
              · rw [List.count_append, List.count_singleton, beq_eq_false_iff_ne.2 hq]
                simpa using hflag
              · apply inner_append_singleton hin
                intro hbar
                apply hflag.1
                simpa [hbar] using hb

/-! ### How many segments there are -/

/-- The separators of a line that follows `k` quotes. -/
def separatorsAfter (k : Nat) (text : Str) : Nat :=
  (List.range text.length).countP fun i =>
    text[i]? = some bar ∧ (k + (text.take i).count quote) % 2 = 0

theorem separatorsAfter_cons (k : Nat) (c : UInt8) (line : Str) :
    separatorsAfter k (c :: line) =
      separatorsAfter (k + [c].count quote) line + if c = bar ∧ k % 2 = 0 then 1 else 0 := by
  rw [separatorsAfter, List.length_cons, List.range_succ_eq_map, List.countP_cons, List.countP_map]
  congr 1
  · apply List.countP_congr
    intro i _
    rw [Function.comp_apply, decide_eq_true_iff, decide_eq_true_iff, List.getElem?_cons_succ,
      List.take_succ_cons, ← List.singleton_append, List.count_append, Nat.add_assoc]
  · simp

theorem length_segmentsFrom (inSingle : Bool) (seg line : Str) {k : Nat}
    (hflag : inSingle = true ↔ k % 2 = 1) :
    (segmentsFrom inSingle seg line).length = 1 + separatorsAfter k line := by
  induction line generalizing inSingle seg k with
  | nil => rfl
  | cons c line ih =>
      rw [segmentsFrom, separatorsAfter_cons]
      split
      · next hq =>
          subst hq
          have hbar : ¬ (quote = bar ∧ k % 2 = 0) := fun h => absurd h.1 (by decide)
          rw [if_neg hbar, List.count_singleton_self]
          apply ih
          cases inSingle <;> simp at hflag ⊢ <;> omega
      · next hq =>
          have hzero : [c].count quote = 0 := List.count_eq_zero.2 (by simpa using Ne.symm hq)
          rw [hzero, Nat.add_zero]
          have heven : inSingle = false ↔ k % 2 = 0 := by
            cases inSingle <;> simp at hflag ⊢ <;> omega
          split
          · next hb =>
              have hsep : c = bar ∧ k % 2 = 0 := ⟨hb.1, heven.1 hb.2⟩
              rw [if_pos hsep, List.length_cons, ih _ _ hflag, Nat.add_assoc]
          · next hb =>
              have hsep : ¬ (c = bar ∧ k % 2 = 0) := fun h => hb ⟨h.1, heven.2 h.2⟩
              rw [if_neg hsep, ih _ _ hflag, Nat.add_zero]

/-! ### `split_pipeline` -/

/-- The segments of a line. -/
def segments (line : Str) : List Str :=
  segmentsFrom false [] line

theorem segments_spec (line : Str) : Segments line (segments line) :=
  segmentsFrom_segments [] line (by simp) (by simp)

theorem length_segments (line : Str) : (segments line).length = 1 + separators line := by
  rw [segments, length_segmentsFrom (k := 0) _ _ _ (by simp), separatorsAfter, separators]
  simp only [Nat.zero_add]

theorem splitPipeline_eq (line : Str) (maxSegs : Nat) :
    splitPipeline line maxSegs =
      if 1 + separators line ≤ maxSegs then some (segments line) else none := by
  rw [splitPipeline, splitLoop_eq, ← length_segments, List.length_nil, Nat.zero_add,
    List.nil_append]
  rfl

/-- Splitting a line loses nothing: joined by bars, the segments are the line, there is one
more of them than separators, and each but the last closes its quotes.  The line is refused
exactly when there are more segments than room for them. -/
theorem splitPipeline_lossless (line : Str) (maxSegs : Nat) :
    (∀ segs, splitPipeline line maxSegs = some segs →
      [bar].intercalate segs = line ∧ segs.length = 1 + separators line
        ∧ ∀ seg ∈ segs.dropLast, seg.count quote % 2 = 0)
      ∧ (splitPipeline line maxSegs = none ↔ maxSegs < 1 + separators line) := by
  have hspec := segments_spec line
  rw [splitPipeline_eq]
  constructor
  · intro segs h
    split at h
    · obtain rfl := Option.some.inj h
      exact ⟨hspec.joined, length_segments line, hspec.even⟩
    · cases h
  · split
    · simp only [reduceCtorEq, false_iff]
      omega
    · simp only [true_iff]
      omega

/-- A bar in quotes separates nothing, and one at the end leaves an empty segment. -/
example : splitPipeline (ascii "a 'x|y'|") 2 = some [ascii "a 'x|y'", []]
    ∧ splitPipeline (ascii "a 'x|y'|") 1 = none := by
  decide +kernel

end SystemsPortfolio.Wsh
