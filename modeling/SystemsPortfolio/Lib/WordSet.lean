/-
SystemsPortfolio/Lib/WordSet.lean

Sets of natural numbers kept as an array of 32-bit words: the number `p` is
bit `p % 32` of word `p / 32`.

The three operations are the usual ones on such an array (test, set with a
shifted one, clear with its complement), and each has one membership lemma.
`ext` says that the words are determined by their members, so an equation
between word arrays is proved by looking at members only.
-/
import Mathlib.Logic.Function.Basic
import Mathlib.Data.BitVec
import Mathlib.Data.Set.Insert
import Mathlib.Tactic.IntervalCases
import Mathlib.Tactic.Push

namespace WordSet

/-- An array of 32-bit words. -/
abbrev Words := Nat → BitVec 32

/-- Is `p` in the set? -/
def test (bm : Words) (p : Nat) : Bool := (bm (p / 32)).getLsbD (p % 32)

/-- Put `p` into the set. -/
def insert (bm : Words) (p : Nat) : Words :=
  Function.update bm (p / 32) (bm (p / 32) ||| (1#32 <<< (p % 32)))

/-- Take `p` out of the set. -/
def erase (bm : Words) (p : Nat) : Words :=
  Function.update bm (p / 32) (bm (p / 32) &&& ~~~(1#32 <<< (p % 32)))

variable {bm bm' : Words} {p q : Nat}

theorem eq_of_div_mod (hd : p / 32 = q / 32) (hm : p % 32 = q % 32) : p = q := by
  omega

/-- Bit `j` of a one shifted by `k`. -/
theorem getLsbD_one_shiftLeft {j k : Nat} (hj : j < 32) :
    (1#32 <<< k).getLsbD j = decide (j = k) := by
  rw [BitVec.getLsbD_shiftLeft]
  rcases eq_or_ne j k with rfl | h
  · simp [hj]
  · by_cases hlt : j < k
    · simp [hlt, h]
    · have hpos : j - k ≠ 0 := by omega
      simp [h, hlt, hpos, BitVec.getLsbD_one]

/-- Shifting bit `k` down and masking it gives that bit as a number. -/
theorem ushiftRight_and_one (w : BitVec 32) (k : Nat) :
    w >>> k &&& 1#32 = if w.getLsbD k then 1#32 else 0#32 := by
  apply BitVec.eq_of_getLsbD_eq
  intro j hj
  rw [BitVec.getLsbD_and, BitVec.getLsbD_ushiftRight, BitVec.getLsbD_one]
  rcases Nat.eq_zero_or_pos j with rfl | hpos
  · cases w.getLsbD k <;> simp
  · have hne : j ≠ 0 := by omega
    cases w.getLsbD k <;> simp [hne, BitVec.getLsbD_one]

theorem test_insert (bm : Words) (p q : Nat) :
    test (insert bm p) q = (decide (q = p) || test bm q) := by
  unfold test insert
  by_cases hw : q / 32 = p / 32
  · rw [hw, Function.update_self, BitVec.getLsbD_or, getLsbD_one_shiftLeft (by omega), Bool.or_comm]
    congr 1
    apply decide_eq_decide.mpr
    exact ⟨eq_of_div_mod hw, fun h => by rw [h]⟩
  · have hne : q ≠ p := fun h => hw (by rw [h])
    rw [Function.update_of_ne hw]
    simp [hne]

theorem test_erase (bm : Words) (p q : Nat) :
    test (erase bm p) q = (!decide (q = p) && test bm q) := by
  unfold test erase
  by_cases hw : q / 32 = p / 32
  · rw [hw, Function.update_self, BitVec.getLsbD_and, BitVec.getLsbD_not,
      getLsbD_one_shiftLeft (by omega), Bool.and_comm]
    congr 1
    have hlt : q % 32 < 32 := by omega
    have hiff : q % 32 = p % 32 ↔ q = p := ⟨eq_of_div_mod hw, fun h => by rw [h]⟩
    simp [hlt, hiff]
  · have hne : q ≠ p := fun h => hw (by rw [h])
    rw [Function.update_of_ne hw]
    simp [hne]

/-- The set that the words stand for. -/
def members (bm : Words) : Set Nat := {p | test bm p = true}

theorem mem_members : p ∈ members bm ↔ test bm p = true := Iff.rfl

theorem notMem_members : p ∉ members bm ↔ test bm p = false := by
  rw [mem_members, Bool.not_eq_true]

theorem members_insert (bm : Words) (p : Nat) :
    members (insert bm p) = Insert.insert p (members bm) := by
  ext q
  rw [mem_members, test_insert, Bool.or_eq_true, decide_eq_true_eq]
  rfl

theorem members_erase (bm : Words) (p : Nat) : members (erase bm p) = members bm \ {p} := by
  ext q
  rw [mem_members, test_erase, Bool.and_eq_true, Bool.not_eq_true', decide_eq_false_iff_not,
    and_comm]
  rfl

/-- A word other than the one of all ones has a clear bit. -/
theorem exists_clear {w : BitVec 32} (h : w ≠ 0xFFFFFFFF#32) : ∃ k < 32, w.getLsbD k = false := by
  by_contra hall
  push Not at hall
  apply h
  apply BitVec.eq_of_getLsbD_eq
  intro k hk
  rw [Bool.eq_true_of_not_eq_false (hall k hk)]
  interval_cases k <;> rfl

/-- Two word arrays with the same members are equal. -/
theorem ext (h : ∀ p, test bm p = test bm' p) : bm = bm' := by
  funext i
  apply BitVec.eq_of_getLsbD_eq
  intro j hj
  have hij := h (32 * i + j)
  have hdiv : (32 * i + j) / 32 = i := by omega
  have hmod : (32 * i + j) % 32 = j := by omega
  unfold test at hij
  rwa [hdiv, hmod] at hij

/-- Erasing a number that was just inserted gives the old words back. -/
theorem erase_insert (h : test bm p = false) : erase (insert bm p) p = bm := by
  apply ext
  intro q
  rw [test_erase, test_insert]
  rcases eq_or_ne q p with rfl | hq
  · simp [h]
  · simp [hq]

end WordSet
