/-
SystemsPortfolio/Lib/PrefixCode.lean

Prefix codes: families of words none of which is the beginning of another one.

A string read from the left by such a code can be read in one way only: the next word is
decided by the string, and so is the place where no further word fits.  What is left there
is the *rest*; a string is a message of the code when the rest is empty.
-/
import Mathlib.Data.List.Infix

namespace PrefixCode

variable {α ι : Type*}

/-- The words `text i`, of the `i` that are `valid`, form a prefix code. -/
structure PrefixFree (text : ι → List α) (valid : ι → Prop) : Prop where
  ne_nil : ∀ i, valid i → text i ≠ []
  eq_of_prefix : ∀ i j, valid i → valid j → text i <+: text j → i = j

/-- No word fits at the beginning of `rest`. -/
def Stuck (text : ι → List α) (valid : ι → Prop) (rest : List α) : Prop :=
  ∀ i, valid i → ¬ text i <+: rest

/-- `s` is read as the words `items`, up to a rest at which no word fits. -/
structure Reads (text : ι → List α) (valid : ι → Prop) (s : List α) (items : List ι)
    (rest : List α) : Prop where
  words : ∀ i ∈ items, valid i
  stuck : Stuck text valid rest
  eq : s = items.flatMap text ++ rest

variable {text : ι → List α} {valid : ι → Prop} {s rest rest' : List α} {items items' : List ι}

theorem PrefixFree.stuck_nil (h : PrefixFree text valid) : Stuck text valid [] := by
  intro i hi hp
  exact h.ne_nil i hi (List.prefix_nil.1 hp)

/-- Two words at the beginning of one string are the same. -/
theorem PrefixFree.eq_of_append {i j : ι} {u v : List α} (h : PrefixFree text valid)
    (hi : valid i) (hj : valid j) (e : text i ++ u = text j ++ v) : i = j := by
  have hp : text i <+: text j ++ v := ⟨u, e⟩
  rcases List.prefix_or_prefix_of_prefix hp (List.prefix_append (text j) v) with hij | hji
  · exact h.eq_of_prefix i j hi hj hij
  · exact (h.eq_of_prefix j i hj hi hji).symm

theorem Reads.done (hr : Stuck text valid rest) : Reads text valid rest [] rest where
  words := by simp
  stuck := hr
  eq := rfl

theorem Reads.cons {i : ι} (hi : valid i) (h : Reads text valid s items rest) :
    Reads text valid (text i ++ s) (i :: items) rest where
  words := by
    simp only [List.mem_cons, forall_eq_or_imp]
    exact ⟨hi, h.words⟩
  stuck := h.stuck
  eq := by
    rw [h.eq, List.flatMap_cons, List.append_assoc]

/-- A string can be read in one way only. -/
theorem Reads.unique (hc : PrefixFree text valid) (h : Reads text valid s items rest)
    (h' : Reads text valid s items' rest') : items = items' ∧ rest = rest' := by
  obtain ⟨hv, hr, rfl⟩ := h
  obtain ⟨hv', hr', e⟩ := h'
  induction items generalizing items' with
  | nil =>
      rcases items' with - | ⟨j, items'⟩
      · exact ⟨rfl, e⟩
      · refine absurd ?_ (hr j (hv' j (by simp)))
        refine ⟨items'.flatMap text ++ rest', ?_⟩
        simpa [List.append_assoc] using e.symm
  | cons i items ih =>
      rcases items' with - | ⟨j, items'⟩
      · refine absurd ?_ (hr' i (hv i (by simp)))
        refine ⟨items.flatMap text ++ rest, ?_⟩
        simpa [List.append_assoc] using e
      · simp only [List.flatMap_cons, List.append_assoc] at e
        obtain rfl := hc.eq_of_append (hv i (by simp)) (hv' j (by simp)) e
        have hrest := List.append_cancel_left e
        obtain ⟨rfl, hr⟩ := ih (fun k hk => hv k (by simp [hk]))
          (fun k hk => hv' k (by simp [hk])) hrest
        exact ⟨rfl, hr⟩

/-- Every string can be read up to some rest. -/
theorem PrefixFree.exists_reads (hc : PrefixFree text valid) (s : List α) :
    ∃ items rest, Reads text valid s items rest := by
  -- the words are not empty, so what follows one is shorter
  induction hn : s.length using Nat.strong_induction_on generalizing s with
  | _ n ih =>
      by_cases hs : Stuck text valid s
      · exact ⟨[], s, .done hs⟩
      · simp only [Stuck, not_forall, not_not] at hs
        obtain ⟨i, hi, u, rfl⟩ := hs
        have hpos := List.length_pos_of_ne_nil (hc.ne_nil i hi)
        have hlt : u.length < n := by
          rw [← hn, List.length_append]
          omega
        obtain ⟨items, rest, h⟩ := ih u.length hlt u rfl
        exact ⟨i :: items, rest, h.cons hi⟩

end PrefixCode
