/-
SystemsPortfolio/Lib/Channel.lean

A bounded first-in first-out channel, and the ring of slots that holds one.

The channel keeps, besides its queue, everything ever stored and everything ever
taken; what is taken is always an initial part of what was stored.  The ring is an
array of `cap` slots read from a head index on: the `n` slots from `head`, taken
modulo `cap`, are its window.
-/
import SystemsPortfolio.Lib.Transition
import Mathlib.Data.Nat.ModEq

namespace Channel

open Transition

variable {α : Type*}

/-! ### The channel -/

/-- The queue of a channel, with the history of its two ends. -/
structure Chan (α : Type*) where
  queue : List α
  stored : List α
  taken : List α

/-- Storing at the back of a queue that is not full, and taking from the front. -/
inductive Step (cap : Nat) : Chan α → Chan α → Prop
  | put (c : Chan α) (x : α) (h : c.queue.length < cap) :
      Step cap c ⟨c.queue ++ [x], c.stored ++ [x], c.taken⟩
  | take (c : Chan α) (x : α) (q : List α) (h : c.queue = x :: q) :
      Step cap c ⟨q, c.stored, c.taken ++ [x]⟩

/-- The channel of capacity `cap`, empty at first. -/
def chan (α : Type*) (cap : Nat) : System (Chan α) where
  init c := c = ⟨[], [], []⟩
  step := Step cap

/-- Nothing is lost, doubled or reordered, and the capacity is kept. -/
theorem stored_eq {cap : Nat} {c : Chan α} (h : (chan α cap).Reachable c) :
    c.stored = c.taken ++ c.queue ∧ c.queue.length ≤ cap := by
  refine h.invariant (P := fun c => c.stored = c.taken ++ c.queue ∧ c.queue.length ≤ cap) ?_ ?_
  · rintro c rfl
    exact ⟨rfl, Nat.zero_le cap⟩
  · rintro c c' - ⟨hst, hlen⟩ hs
    cases hs with
    | put x hx =>
        refine ⟨?_, ?_⟩
        · rw [hst, List.append_assoc]
        · rw [List.length_append]
          exact hx
    | take x q hq =>
        rw [hq] at hst hlen
        refine ⟨?_, Nat.le_of_succ_le hlen⟩
        rw [hst, List.append_assoc]
        rfl

/-! ### The ring -/

/-- The `n` slots from `head` on, each with its index. -/
def window (buf : Nat → α) (cap head n : Nat) : List (Nat × α) :=
  (List.range n).map fun i => ((head + i) % cap, buf ((head + i) % cap))

variable {buf : Nat → α} {cap head n : Nat}

theorem window_length : (window buf cap head n).length = n := by
  rw [window, List.length_map, List.length_range]

/-- Fewer than `cap` steps from a slot never lead back to it. -/
theorem mod_ne {i j : Nat} (hij : i < j) (hj : j < i + cap) : i % cap ≠ j % cap := by
  intro e
  have hdvd : cap ∣ j - i := (Nat.modEq_iff_dvd' hij.le).1 e
  exact absurd (Nat.le_of_dvd (Nat.sub_pos_of_lt hij) hdvd) (by omega)

/-- The slot after the window is none of its slots, as long as one is left. -/
theorem slot_ne_of_mem_window {e : Nat × α} (hn : n < cap) (he : e ∈ window buf cap head n) :
    e.1 ≠ (head + n) % cap := by
  obtain ⟨i, hi, rfl⟩ := List.mem_map.1 he
  have hi' := List.mem_range.1 hi
  exact mod_ne (by omega) (by omega)

/-- Writing the slot after the window makes the window longer. -/
theorem window_put (hn : n < cap) (x : α) :
    window (Function.update buf ((head + n) % cap) x) cap head (n + 1)
      = window buf cap head n ++ [((head + n) % cap, x)] := by
  rw [window, List.range_succ, List.map_append]
  congr 1
  · refine List.map_congr_left fun i hi => ?_
    have hi' := List.mem_range.1 hi
    rw [Function.update_of_ne (mod_ne (by omega) (by omega))]
  · show [((head + n) % cap, _)] = _
    rw [Function.update_self]

/-- Moving the head past its slot makes the window shorter. -/
theorem window_take (hh : head < cap) :
    window buf cap head (n + 1) = (head, buf head) :: window buf cap ((head + 1) % cap) n := by
  rw [window, List.range_succ_eq_map, List.map_cons, List.map_map, Nat.add_zero,
    Nat.mod_eq_of_lt hh]
  congr 1
  refine List.map_congr_left fun i _ => ?_
  have e : (head + (i + 1)) % cap = ((head + 1) % cap + i) % cap := by
    rw [Nat.mod_add_mod, Nat.add_assoc, Nat.add_comm 1 i]
  show ((head + (i + 1)) % cap, buf ((head + (i + 1)) % cap)) = _
  rw [e]

end Channel
