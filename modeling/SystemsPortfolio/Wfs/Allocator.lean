/-
SystemsPortfolio/Wfs/Allocator.lean

The bitmap allocator as a set of indices.

`allocate_block`, `free_bitmap` and `bitmap_test` are three readings of one
array of words.  What the array is for is said by `LeastFree`: a set of indices
in which an allocation puts the least index that is missing, and from which a
free takes one.  Each call on the words is a move of that set, so a row of calls
leaves exactly the indices that were taken and not given back.
-/
import SystemsPortfolio.Wfs.Blocks
import Mathlib.Order.Bounds.Basic

namespace SystemsPortfolio.Wfs

open WordSet

/-! ### The set of indices in use -/

/-- What a call did: it took an index, it found none, or it gave one back. -/
inductive BitmapEvent
  | took (i : Nat)
  | full
  | freed (i : Nat)
  deriving DecidableEq

/-- One move of a set of indices below `n`: the least index that is missing is taken, nothing
is taken because none is missing, or an index is given back. -/
inductive LeastFree (n : Nat) : Set Nat → BitmapEvent → Set Nat → Prop
  | took {S i} : IsLeast {q | q < n ∧ q ∉ S} i → LeastFree n S (.took i) (Insert.insert i S)
  | full {S} : (∀ q < n, q ∈ S) → LeastFree n S .full S
  | freed {S} (i) : LeastFree n S (.freed i) (S \ {i})

/-- A row of moves. -/
inductive LeastFreeRun (n : Nat) : Set Nat → List BitmapEvent → Set Nat → Prop
  | nil {S} : LeastFreeRun n S [] S
  | cons {S S₁ S₂ e es} : LeastFree n S e S₁ → LeastFreeRun n S₁ es S₂ →
      LeastFreeRun n S (e :: es) S₂

/-- The index `q` is in use after `es`: it was taken and not given back since, or it was in use
before and was never given back. -/
def InUse (S : Set Nat) (es : List BitmapEvent) (q : Nat) : Prop :=
  (∃ before after, es = before ++ .took q :: after ∧ .freed q ∉ after)
    ∨ (q ∈ S ∧ .freed q ∉ es)

variable {n : Nat} {S S' : Set Nat} {e : BitmapEvent} {es : List BitmapEvent}

theorem LeastFree.mem_iff (h : LeastFree n S e S') (q : Nat) :
    q ∈ S' ↔ e = .took q ∨ (q ∈ S ∧ e ≠ .freed q) := by
  cases h with
  | took h => simp [eq_comm]
  | full h => simp
  | freed i => simp [eq_comm]

theorem inUse_cons (q : Nat) :
    InUse S (e :: es) q ↔
      (∃ before after, es = before ++ .took q :: after ∧ .freed q ∉ after)
        ∨ ((e = .took q ∨ (q ∈ S ∧ e ≠ .freed q)) ∧ .freed q ∉ es) := by
  constructor
  · rintro (⟨before, after, heq, hafter⟩ | ⟨hmem, hnot⟩)
    · cases before with
      | nil =>
          obtain ⟨rfl, rfl⟩ := List.cons.inj heq
          exact .inr ⟨.inl rfl, hafter⟩
      | cons e' before =>
          obtain ⟨rfl, rfl⟩ := List.cons.inj heq
          exact .inl ⟨before, after, rfl, hafter⟩
    · rw [List.mem_cons, not_or] at hnot
      exact .inr ⟨.inr ⟨hmem, Ne.symm hnot.1⟩, hnot.2⟩
  · rintro (⟨before, after, rfl, hafter⟩ | ⟨rfl | ⟨hmem, hne⟩, hnot⟩)
    · exact .inl ⟨e :: before, after, rfl, hafter⟩
    · exact .inl ⟨[], es, rfl, hnot⟩
    · refine .inr ⟨hmem, ?_⟩
      rw [List.mem_cons, not_or]
      exact ⟨Ne.symm hne, hnot⟩

/-- After any row of moves the set holds what is in use. -/
theorem LeastFreeRun.mem_iff (h : LeastFreeRun n S es S') (q : Nat) : q ∈ S' ↔ InUse S es q := by
  induction h with
  | nil => simp [InUse]
  | cons hstep _ ih => rw [ih, inUse_cons, InUse, hstep.mem_iff]

theorem LeastFreeRun.took_lt (h : LeastFreeRun n S es S') {i : Nat} (hi : .took i ∈ es) :
    i < n := by
  induction h with
  | nil => cases hi
  | cons hstep _ ih =>
      rcases List.mem_cons.1 hi with rfl | hmem
      · cases hstep with
        | took hleast => exact hleast.1.1
      · exact ih hmem

/-! ### Calls on the words -/

/-- A call of `allocate_block` or `free_bitmap`. -/
inductive BitmapOp
  | allocate
  | free (position : Nat)
  deriving DecidableEq

/-- The call on an array of `len` words; `full` is the result `-1`. -/
def BitmapOp.exec (len : Nat) (bitmap : Words) : BitmapOp → BitmapEvent × Words
  | .allocate =>
      match allocateBlock bitmap len with
      | some (i, bitmap') => (.took i, bitmap')
      | none => (.full, bitmap)
  | .free position => (.freed position, freeBitmap position bitmap)

/-- A row of calls: what each did, and the words they leave. -/
def bitmapRun (len : Nat) : Words → List BitmapOp → List BitmapEvent × Words
  | bitmap, [] => ([], bitmap)
  | bitmap, op :: ops =>
      let (e, bitmap₁) := op.exec len bitmap
      let (es, bitmap₂) := bitmapRun len bitmap₁ ops
      (e :: es, bitmap₂)

variable {len : Nat} {bitmap : Words}

/-- The result of `allocate_block` is the least clear index, and it sets that bit only. -/
theorem allocateBlock_eq_some_iff (hfit : 32 * len ≤ 2 ^ 32) {p : Nat} {bitmap' : Words} :
    allocateBlock bitmap len = some (p, bitmap') ↔
      IsLeast {q | q < 32 * len ∧ q ∉ members bitmap} p
        ∧ members bitmap' = Insert.insert p (members bitmap) := by
  constructor
  · intro h
    obtain ⟨hp, hclear, rfl, hbelow⟩ := allocateBlock_eq_some hfit h
    refine ⟨⟨⟨hp, notMem_members.2 hclear⟩, ?_⟩, members_insert bitmap p⟩
    rintro q ⟨-, hq⟩
    by_contra hlt
    exact hq (hbelow q (Nat.lt_of_not_le hlt))
  · rintro ⟨⟨⟨hp, hclear⟩, hleast⟩, hmembers⟩
    rcases h : allocateBlock bitmap len with - | ⟨p', bitmap₁⟩
    · exact absurd (allocateBlock_eq_none h p hp) hclear
    · obtain ⟨hp', hclear', rfl, hbelow⟩ := allocateBlock_eq_some hfit h
      -- both are the least clear index
      have hle : p ≤ p' := hleast ⟨hp', notMem_members.2 hclear'⟩
      have hge : p' ≤ p := by
        by_contra hlt
        exact hclear (hbelow p (Nat.lt_of_not_le hlt))
      obtain rfl : p = p' := Nat.le_antisymm hle hge
      have hwords : bitmap' = WordSet.insert bitmap p := by
        apply WordSet.ext
        intro q
        have hq : q ∈ members bitmap' ↔ q ∈ members (WordSet.insert bitmap p) := by
          rw [hmembers, members_insert]
        rw [mem_members, mem_members] at hq
        exact Bool.eq_iff_iff.2 hq
      rw [hwords]

/-- `allocate_block` fails exactly on a full bitmap. -/
theorem allocateBlock_eq_none_iff (hfit : 32 * len ≤ 2 ^ 32) :
    allocateBlock bitmap len = none ↔ ∀ q < 32 * len, q ∈ members bitmap := by
  refine ⟨fun h => allocateBlock_eq_none h, fun h => ?_⟩
  rcases hres : allocateBlock bitmap len with - | ⟨p, bitmap'⟩
  · rfl
  · obtain ⟨⟨⟨hp, hclear⟩, -⟩, -⟩ := (allocateBlock_eq_some_iff hfit).1 hres
    exact absurd (h p hp) hclear

/-- A call on the words is a move of the set they stand for. -/
theorem exec_leastFree (hfit : 32 * len ≤ 2 ^ 32) (bitmap : Words) (op : BitmapOp) :
    LeastFree (32 * len) (members bitmap) (op.exec len bitmap).1
      (members (op.exec len bitmap).2) := by
  cases op with
  | allocate =>
      rw [BitmapOp.exec]
      rcases hres : allocateBlock bitmap len with - | ⟨p, bitmap'⟩
      · exact .full ((allocateBlock_eq_none_iff hfit).1 hres)
      · obtain ⟨hleast, hmembers⟩ := (allocateBlock_eq_some_iff hfit).1 hres
        show LeastFree _ _ _ (members bitmap')
        rw [hmembers]
        exact .took hleast
  | free position =>
      show LeastFree _ _ _ (members (freeBitmap position bitmap))
      rw [freeBitmap_eq, members_erase]
      exact .freed position

/-- A row of calls on the words is a row of moves of the set. -/
theorem bitmapRun_leastFree (hfit : 32 * len ≤ 2 ^ 32) (bitmap : Words) (ops : List BitmapOp) :
    LeastFreeRun (32 * len) (members bitmap) (bitmapRun len bitmap ops).1
      (members (bitmapRun len bitmap ops).2) := by
  induction ops generalizing bitmap with
  | nil => exact .nil
  | cons op ops ih => exact .cons (exec_leastFree hfit bitmap op) (ih _)

/-- No call touches a word behind the `len` words of the array. -/
theorem allocateBlock_outside (hfit : 32 * len ≤ 2 ^ 32) {p : Nat} {bitmap' : Words}
    (h : allocateBlock bitmap len = some (p, bitmap')) {i : Nat} (hi : len ≤ i) :
    bitmap' i = bitmap i := by
  obtain ⟨hp, -, rfl, -⟩ := allocateBlock_eq_some hfit h
  exact Function.update_of_ne (by omega) ..

/-- The bitmap allocator is a set from which the least missing index is taken.  `allocate_block`
returns that index and sets exactly its bit, in the array; it returns `-1` exactly when every bit
is set.  `free_bitmap` clears exactly one bit and `bitmap_test` reads it.  After any row of
allocations and frees the words hold the indices that are in use, the bits set at the start
included, and no index behind the array was returned. -/
theorem bitmap_leastFree (len : Nat) (hfit : 32 * len < 2 ^ 32) (bitmap : Words) :
    (∀ p bitmap', allocateBlock bitmap len = some (p, bitmap') ↔
      IsLeast {q | q < 32 * len ∧ q ∉ members bitmap} p
        ∧ members bitmap' = Insert.insert p (members bitmap))
    ∧ (∀ p bitmap', allocateBlock bitmap len = some (p, bitmap') →
        ∀ i, len ≤ i → bitmap' i = bitmap i)
    ∧ (BitmapOp.allocate.exec len bitmap = (.full, bitmap) ↔ ∀ q < 32 * len, q ∈ members bitmap)
    ∧ (∀ i, members (freeBitmap i bitmap) = members bitmap \ {i})
    ∧ (∀ i, bitmapTest i bitmap = true ↔ i ∈ members bitmap)
    ∧ ∀ ops, (∀ q, q ∈ members (bitmapRun len bitmap ops).2 ↔
          InUse (members bitmap) (bitmapRun len bitmap ops).1 q)
        ∧ ∀ i, .took i ∈ (bitmapRun len bitmap ops).1 → i < 32 * len := by
  have hfit' := Nat.le_of_lt hfit
  refine ⟨fun p bitmap' => allocateBlock_eq_some_iff hfit',
    fun p bitmap' h i hi => allocateBlock_outside hfit' h hi, ?_, ?_, ?_, ?_⟩
  · rw [← allocateBlock_eq_none_iff hfit', BitmapOp.exec]
    rcases allocateBlock bitmap len with - | ⟨p, bitmap'⟩ <;> simp
  · intro i
    rw [freeBitmap_eq, members_erase]
  · intro i
    rw [bitmapTest_eq, mem_members]
  · intro ops
    have hrun := bitmapRun_leastFree hfit' bitmap ops
    exact ⟨hrun.mem_iff, fun i hi => hrun.took_lt hi⟩

/-- Two words of which the first is full and the second has its lowest bit set. -/
def holedWords : Words := fun i => if i = 0 then 0xFFFFFFFF#32 else 1#32

/-- An allocation goes past the full word, and takes an index of it once it was given back. -/
theorem bitmap_leastFree_holed :
    32 * 2 < 2 ^ 32
    ∧ (bitmapRun 2 holedWords [.allocate, .free 31, .allocate, .allocate]).1
        = [.took 33, .freed 31, .took 31, .took 34]
    ∧ (∀ q, q ∈ members (bitmapRun 2 holedWords [.allocate, .free 31, .allocate, .allocate]).2 ↔
        InUse (members holedWords) [.took 33, .freed 31, .took 31, .took 34] q)
    ∧ IsLeast {q | q < 32 * 2 ∧ q ∉ members holedWords} 33 := by
  have hfit : 32 * 2 < 2 ^ 32 := by decide
  obtain ⟨halloc, -, -, -, -, hrun⟩ := bitmap_leastFree 2 hfit holedWords
  have hevents : (bitmapRun 2 holedWords [.allocate, .free 31, .allocate, .allocate]).1
      = [.took 33, .freed 31, .took 31, .took 34] := by decide
  refine ⟨hfit, hevents, ?_, ((halloc 33 _).1 rfl).1⟩
  rw [← hevents]
  exact (hrun [.allocate, .free 31, .allocate, .allocate]).1

end SystemsPortfolio.Wfs
