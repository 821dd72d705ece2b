/-
SystemsPortfolio/Lib/Ownership.lean

Exact ownership of resources.

`own s = some k` says that the slot `s` holds the resource `k`, and `marked`
is the allocator's opinion of which resources are in use.  The two agree
(`Exact`) when no resource is held twice and the marked ones are exactly the
held ones: nothing dangles, nothing is shared, nothing leaks.

`Exact` is kept by the two things an allocator does, handing an unmarked
resource to an empty slot (`Exact.assign`) and taking back everything a set
of slots holds (`Exact.release`).
-/
import Mathlib.Logic.Function.Basic
import Mathlib.Logic.ExistsUnique
import Mathlib.Tactic.SplitIfs

namespace Ownership

variable {σ κ : Type*}

/-- No resource is held by two slots, and the marked resources are the held ones. -/
structure Exact (own : σ → Option κ) (marked : κ → Prop) : Prop where
  inj : ∀ {s t k}, own s = some k → own t = some k → s = t
  range : ∀ k, marked k ↔ ∃ s, own s = some k

variable {own own' : σ → Option κ} {marked marked' : κ → Prop} {s : σ} {k : κ}

theorem Exact.congr (h : Exact own marked) (ho : own' = own) (hm : ∀ k, marked' k ↔ marked k) :
    Exact own' marked' := by
  subst ho
  exact ⟨h.inj, fun k => (hm k).trans (h.range k)⟩

/-- A marked resource is held by exactly one slot. -/
theorem Exact.existsUnique (h : Exact own marked) (k : κ) :
    marked k ↔ ∃! s, own s = some k := by
  rw [h.range k]
  constructor
  · rintro ⟨s, hs⟩
    exact ⟨s, hs, fun t ht => h.inj ht hs⟩
  · rintro ⟨s, hs, -⟩
    exact ⟨s, hs⟩

/-- Hand an unmarked resource to an empty slot. -/
theorem Exact.assign [DecidableEq σ] (h : Exact own marked) (hs : own s = none)
    (hk : ¬ marked k) :
    Exact (Function.update own s (some k)) (fun l => l = k ∨ marked l) := by
  -- nobody held `k` before, so the new holder of `k` is `s` alone
  have hfree : ∀ t, own t ≠ some k := fun t ht => hk ((h.range k).mpr ⟨t, ht⟩)
  refine ⟨?_, fun l => ?_⟩
  · intro t u l ht hu
    by_cases ets : t = s <;> by_cases eus : u = s
    · rw [ets, eus]
    · subst ets
      rw [Function.update_self] at ht
      rw [Function.update_of_ne eus] at hu
      obtain rfl := Option.some.inj ht
      exact absurd hu (hfree u)
    · subst eus
      rw [Function.update_self] at hu
      rw [Function.update_of_ne ets] at ht
      obtain rfl := Option.some.inj hu
      exact absurd ht (hfree t)
    · rw [Function.update_of_ne ets] at ht
      rw [Function.update_of_ne eus] at hu
      exact h.inj ht hu
  · constructor
    · rintro (rfl | hl)
      · exact ⟨s, Function.update_self ..⟩
      · obtain ⟨t, ht⟩ := (h.range l).mp hl
        have hts : t ≠ s := fun e => by rw [e, hs] at ht; cases ht
        exact ⟨t, by rw [Function.update_of_ne hts]; exact ht⟩
    · rintro ⟨t, ht⟩
      rcases eq_or_ne t s with rfl | ets
      · rw [Function.update_self] at ht
        exact Or.inl (Option.some.inj ht).symm
      · rw [Function.update_of_ne ets] at ht
        exact Or.inr ((h.range l).mpr ⟨t, ht⟩)

/-- Take back everything the slots in `P` hold. -/
theorem Exact.release (h : Exact own marked) (P : σ → Prop) [DecidablePred P] :
    Exact (fun s => if P s then none else own s)
      (fun l => marked l ∧ ∀ s, P s → own s ≠ some l) := by
  refine ⟨?_, fun l => ?_⟩
  · intro t u l ht hu
    split_ifs at ht hu
    exact h.inj ht hu
  · constructor
    · rintro ⟨hl, hP⟩
      obtain ⟨t, ht⟩ := (h.range l).mp hl
      exact ⟨t, by rw [if_neg fun hPt => hP t hPt ht]; exact ht⟩
    · rintro ⟨t, ht⟩
      split_ifs at ht with hPt
      refine ⟨(h.range l).mpr ⟨t, ht⟩, fun u hu hul => hPt ?_⟩
      rw [h.inj ht hul]
      exact hu

end Ownership
