/-
SystemsPortfolio/Lib/Threads.lean

A fixed finite set of threads, each at a program point.  A step moves one thread,
so what a proof needs is how the number of threads at a kind of point changes when
one entry of the map from threads to points does.

The second part is the counting semaphore: a wait completes only on a positive
value, a post adds one and leaves the value alone at the largest one the system
supports.
-/
import Mathlib.Algebra.BigOperators.Group.Finset.Piecewise
import Mathlib.Data.Fintype.Basic

namespace Threads

/-! ### Counting threads -/

section Count

variable {T P : Type*} [Fintype T] [DecidableEq T]

/-- The number of threads whose program point satisfies `p`. -/
def numAt (p : P → Prop) [DecidablePred p] (pc : T → P) : Nat :=
  (Finset.univ.filter fun t => p (pc t)).card

variable (p : P → Prop) [DecidablePred p]

/-- Moving one thread changes the count by what that thread leaves and enters. -/
theorem numAt_update (pc : T → P) (t : T) (b : P) :
    numAt p (Function.update pc t b) + (if p (pc t) then 1 else 0)
      = numAt p pc + (if p b then 1 else 0) := by
  have hrest : ∑ u ∈ Finset.univ.erase t, (if p (Function.update pc t b u) then 1 else 0)
      = ∑ u ∈ Finset.univ.erase t, (if p (pc u) then 1 else 0) := by
    refine Finset.sum_congr rfl fun u hu => ?_
    rw [Function.update_of_ne (Finset.ne_of_mem_erase hu)]
  have hl := Finset.add_sum_erase Finset.univ
    (fun u => if p (Function.update pc t b u) then 1 else 0) (Finset.mem_univ t)
  have hr := Finset.add_sum_erase Finset.univ
    (fun u => if p (pc u) then 1 else 0) (Finset.mem_univ t)
  simp only [Function.update_self] at hl
  rw [numAt, numAt, Finset.card_filter, Finset.card_filter, ← hl, ← hr, hrest]
  omega

/-- The same with the thread that moves taken out of the count first. -/
theorem numAt_move {pc : T → P} {t : T} {a : P} (ha : pc t = a) {n : Nat}
    (hn : numAt p pc = n + if p a then 1 else 0) (b : P) :
    numAt p (Function.update pc t b) = n + if p b then 1 else 0 := by
  subst ha
  have h := numAt_update p pc t b
  omega

omit [DecidableEq T] in
theorem numAt_pos {pc : T → P} : 0 < numAt p pc ↔ ∃ t, p (pc t) := by
  rw [numAt, Finset.card_pos]
  constructor
  · rintro ⟨t, ht⟩
    exact ⟨t, (Finset.mem_filter.1 ht).2⟩
  · rintro ⟨t, ht⟩
    exact ⟨t, Finset.mem_filter.2 ⟨Finset.mem_univ t, ht⟩⟩

omit [DecidableEq T] in
theorem numAt_succ {pc : T → P} {t : T} (h : p (pc t)) : ∃ n, numAt p pc = n + 1 :=
  Nat.exists_eq_succ_of_ne_zero ((numAt_pos p).2 ⟨t, h⟩).ne'

omit [DecidableEq T] in
theorem numAt_eq_zero {pc : T → P} : numAt p pc = 0 ↔ ∀ t, ¬ p (pc t) := by
  rw [← not_exists, ← numAt_pos p, Nat.pos_iff_ne_zero, not_not]

/-- Moving one thread changes a sum over all threads by its own terms. -/
theorem sum_update (f : P → Nat) (pc : T → P) (t : T) (b : P) :
    (∑ u, f (Function.update pc t b u)) + f (pc t) = (∑ u, f (pc u)) + f b := by
  have hcomp : (fun u => f (Function.update pc t b u)) =
      Function.update (fun u => f (pc u)) t (f b) := by
    funext u
    rcases eq_or_ne u t with rfl | hu
    · simp
    · simp [hu]
  rw [hcomp, Finset.sum_update_of_mem (Finset.mem_univ t),
    ← Finset.add_sum_erase Finset.univ (fun u => f (pc u)) (Finset.mem_univ t),
    Finset.sdiff_singleton_eq_erase]
  omega

end Count

/-! ### Counting semaphores -/

/-- The largest value of a semaphore (`SEM_VALUE_MAX`). -/
def semValueMax : Nat := 2147483647

/-- A completed wait; `none` while the caller stays blocked. -/
def semWait (v : Nat) : Option Nat :=
  if 0 < v then some (v - 1) else none

/-- A post; at the largest value it fails and changes nothing. -/
def semPost (v : Nat) : Nat :=
  if v < semValueMax then v + 1 else v

theorem semWait_eq_some {v v' : Nat} : semWait v = some v' ↔ v = v' + 1 := by
  rw [semWait]
  split <;> simp only [Option.some.injEq, reduceCtorEq, false_iff] <;> omega

theorem semPost_pos (v : Nat) : 0 < semPost v := by
  rw [semPost]
  split
  · exact Nat.succ_pos v
  · next h =>
      have hmax : 0 < semValueMax := by decide
      omega

theorem semPost_of_lt {v : Nat} (h : v < semValueMax) : semPost v = v + 1 :=
  if_pos h

end Threads
