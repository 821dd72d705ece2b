/-
SystemsPortfolio/Lib/Selection.lean

Choosing the best of a list in one pass: the best so far is kept and replaced by a later
candidate only when that one is strictly better.  What is asked of the comparison is that
"not better than" is reflexive and transitive, so ties are allowed and the first of the
best candidates stays.
-/
import Mathlib.Data.List.Induction

namespace Selection

variable {α : Type*}

/-- The best so far after one more element. -/
def keepBest (eligible : α → Bool) (better : α → α → Bool) (best : Option α) (i : α) : Option α :=
  if eligible i then
    match best with
    | none => some i
    | some b => if better i b then some i else some b
  else best

/-- The comparison of a selection: of two elements at most one is better, and what is not
better than a second is not better than anything the second is not better than. -/
structure Comparison (better : α → α → Bool) : Prop where
  asymm : ∀ a b, better a b = true → better b a = false
  trans : ∀ a b c, better a b = false → better b c = false → better a c = false

/-- `b` is one of the candidates and none of them is better. -/
def IsBest (better : α → α → Bool) (candidate : α → Prop) (b : α) : Prop :=
  candidate b ∧ ∀ i, candidate i → better i b = false

variable {eligible : α → Bool} {better : α → α → Bool}

theorem Comparison.irrefl (hc : Comparison better) (a : α) : better a a = false := by
  rcases h : better a a with - | -
  · rfl
  · exact h.symm.trans (hc.asymm a a h)

/-- What is kept is a candidate, and neither candidate is better. -/
theorem keepBest_some (hc : Comparison better) (a x : α) :
    ∃ y, keepBest eligible better (some a) x = some y
      ∧ IsBest better (fun i => i = a ∨ i = x ∧ eligible x = true) y := by
  rcases hx : eligible x with - | -
  · refine ⟨a, by simp [keepBest, hx], .inl rfl, ?_⟩
    rintro i (rfl | ⟨-, h⟩)
    · exact hc.irrefl i
    · cases h
  · rcases hb : better x a with - | -
    · refine ⟨a, by simp [keepBest, hx, hb], .inl rfl, ?_⟩
      rintro i (rfl | ⟨rfl, -⟩)
      · exact hc.irrefl i
      · exact hb
    · refine ⟨x, by simp [keepBest, hx, hb], .inr ⟨rfl, rfl⟩, ?_⟩
      rintro i (rfl | ⟨rfl, -⟩)
      · exact hc.asymm x i hb
      · exact hc.irrefl i

/-- With something to start from, the pass ends with the best of that and of the eligible
elements. -/
theorem foldl_keepBest_some (hc : Comparison better) (l : List α) (a : α) :
    ∃ b, l.foldl (keepBest eligible better) (some a) = some b
      ∧ IsBest better (fun i => i = a ∨ i ∈ l ∧ eligible i = true) b := by
  induction l generalizing a with
  | nil =>
      refine ⟨a, rfl, .inl rfl, ?_⟩
      rintro i (rfl | ⟨hi, -⟩)
      · exact hc.irrefl i
      · cases hi
  | cons x l ih =>
      obtain ⟨y, hy, hcand, hbest⟩ := keepBest_some hc a x
      obtain ⟨b, hb, hcand', hbest'⟩ := ih y
      refine ⟨b, by rw [List.foldl_cons, hy, hb], ?_, ?_⟩
      · rcases hcand' with rfl | ⟨hl, he⟩
        · rcases hcand with rfl | ⟨rfl, he⟩
          · exact .inl rfl
          · exact .inr ⟨List.mem_cons_self, he⟩
        · exact .inr ⟨List.mem_cons_of_mem x hl, he⟩
      · -- `a` and `x` are not better than `y`, and `y` is not better than `b`
        have hyb := hbest' y (.inl rfl)
        rintro i (rfl | ⟨hi, he⟩)
        · exact hc.trans _ _ _ (hbest i (.inl rfl)) hyb
        · rcases List.mem_cons.1 hi with rfl | hl
          · exact hc.trans _ _ _ (hbest i (.inr ⟨rfl, he⟩)) hyb
          · exact hbest' i (.inr ⟨hl, he⟩)

/-- A pass over the list finds nothing when nothing is eligible, and the best otherwise. -/
theorem foldl_keepBest (hc : Comparison better) (l : List α) :
    l.foldl (keepBest eligible better) none = none ∧ (∀ i ∈ l, eligible i = false)
      ∨ ∃ b, l.foldl (keepBest eligible better) none = some b
          ∧ IsBest better (fun i => i ∈ l ∧ eligible i = true) b := by
  induction l with
  | nil => exact .inl ⟨rfl, by simp⟩
  | cons x l ih =>
      rw [List.foldl_cons]
      rcases hx : eligible x with - | -
      · -- `x` does not count
        have hskip : keepBest eligible better none x = none := by simp [keepBest, hx]
        rw [hskip]
        rcases ih with ⟨e, hnone⟩ | ⟨b, e, ⟨hl, he⟩, hbest⟩
        · refine .inl ⟨e, fun i hi => ?_⟩
          rcases List.mem_cons.1 hi with rfl | hl
          · exact hx
          · exact hnone i hl
        · refine .inr ⟨b, e, ⟨List.mem_cons_of_mem x hl, he⟩, fun i ⟨hi, he'⟩ => ?_⟩
          rcases List.mem_cons.1 hi with rfl | hl'
          · exact absurd (hx.symm.trans he') Bool.false_ne_true
          · exact hbest i ⟨hl', he'⟩
      · have htake : keepBest eligible better none x = some x := by simp [keepBest, hx]
        rw [htake]
        obtain ⟨b, hb, hcand, hbest⟩ := foldl_keepBest_some hc l x
        refine .inr ⟨b, hb, ?_, fun i ⟨hi, he⟩ => ?_⟩
        · rcases hcand with rfl | ⟨hl, he⟩
          · exact ⟨List.mem_cons_self, hx⟩
          · exact ⟨List.mem_cons_of_mem x hl, he⟩
        · rcases List.mem_cons.1 hi with rfl | hl
          · exact hbest i (.inl rfl)
          · exact hbest i (.inr ⟨hl, he⟩)

/-- Among equals the first stays: what the pass ends with is strictly better than every
eligible element before it. -/
theorem foldl_keepBest_first (hc : Comparison better) (l : List α) {b : α}
    (h : l.foldl (keepBest eligible better) none = some b) :
    ∃ l₁ l₂, l = l₁ ++ b :: l₂ ∧ ∀ i ∈ l₁, eligible i = true → better b i = true := by
  -- from the right, since the last element meets the best of all the others
  induction l using List.reverseRecOn generalizing b with
  | nil => cases h
  | append_singleton l x ih =>
      rw [List.foldl_append, List.foldl_cons, List.foldl_nil] at h
      rcases foldl_keepBest hc l with ⟨e, hnone⟩ | ⟨a, e, -, hbest⟩
      · rw [e] at h
        rcases hx : eligible x with - | -
        · simp [keepBest, hx] at h
        · obtain rfl : x = b := by simpa [keepBest, hx] using h
          refine ⟨l, [], rfl, fun i hi he => ?_⟩
          exact absurd ((hnone i hi).symm.trans he) Bool.false_ne_true
      · obtain ⟨l₁, l₂, hl, hfirst⟩ := ih e
        rw [e] at h
        have hstay : a = b → ∃ l₁ l₂, l ++ [x] = l₁ ++ b :: l₂
            ∧ ∀ i ∈ l₁, eligible i = true → better b i = true := by
          rintro rfl
          exact ⟨l₁, l₂ ++ [x], by rw [hl, List.append_assoc, List.cons_append], hfirst⟩
        rcases hx : eligible x with - | -
        · exact hstay (by simpa [keepBest, hx] using h)
        · rcases hxa : better x a with - | -
          · exact hstay (by simpa [keepBest, hx, hxa] using h)
          · obtain rfl : x = b := by simpa [keepBest, hx, hxa] using h
            refine ⟨l, [], rfl, fun i hi he => ?_⟩
            -- otherwise `x` would not be better than `a` either
            by_contra hxi
            have hxi' : better x i = false := Bool.eq_false_iff.mpr hxi
            have hnot := hc.trans _ _ _ hxi' (hbest i ⟨hi, he⟩)
            exact absurd (hnot.symm.trans hxa) Bool.false_ne_true

end Selection
