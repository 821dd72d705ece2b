/-
SystemsPortfolio/Wfs/Slots.lean

Who owns which data block.

The pointer slots of an inode are its six direct entries, its indirect entry,
and the 64 entries of the indirect block when there is one.  `owner` maps a
slot of an allocated inode to the number of the block it points to, and
`Owned` says that the slots and the data bitmap agree in the sense of
`Ownership.Exact`.

The rest of the development never looks at addresses of two inodes at once.
It uses the frame notion `SameBlocks d d' j` (inode `j` has the same block map,
and every byte of every block it owns is the same), which
`sameBlocks_of_within` derives from ownership whenever a change stays inside a
block that `j` does not own.
-/
import SystemsPortfolio.Lib.Ownership
import SystemsPortfolio.Wfs.Blocks

namespace SystemsPortfolio.Wfs

open ByteStore

/-! ### Slots and their owners -/

/-- Inode `i` is marked as allocated. -/
def Allocated (d : Disk) (i : Nat) : Prop := i < d.sb.numInodes ∧ bitmapTest i d.ibm = true

instance (d : Disk) (i : Nat) : Decidable (Allocated d i) := inferInstanceAs (Decidable (_ ∧ _))

/-- Data block `k` is marked as in use. -/
def Marked (d : Disk) (k : Nat) : Prop := k < d.sb.numDataBlocks ∧ bitmapTest k d.dbm = true

/-- The places of an inode where a block pointer is kept. -/
inductive Slot
  | direct (k : Fin 6)
  | ind
  | entry (j : Fin 64)
  deriving DecidableEq

/-- The pointer kept in a slot of inode `i`.  Without an indirect block its
entries count as empty. -/
def slotVal (d : Disk) (i : Nat) : Slot → Int
  | .direct k => (d.inodes i).blocks k
  | .ind => (d.inodes i).blocks 7
  | .entry j =>
      if (d.inodes i).blocks 7 = 0 then 0
      else loadInt d.data ((d.inodes i).blocks 7 + 8 * (j : Nat)) 8

/-- The address of data block `k`. -/
def blockAddr (d : Disk) (k : Nat) : Int := d.sb.dBlocksPtr + 512 * k

/-- The number of the block a slot points to. -/
def owner (d : Disk) (p : Nat × Slot) : Option Nat :=
  if Allocated d p.1 ∧ slotVal d p.1 p.2 ≠ 0 then
    some ((slotVal d p.1 p.2 - d.sb.dBlocksPtr) / 512).toNat
  else none

/-- Every pointer is the address of a block, and the slots and the bitmap agree
on the blocks in use. -/
structure Owned (d : Disk) : Prop where
  sbOk : d.sb.Ok
  valid : ∀ i sl, Allocated d i → slotVal d i sl ≠ 0 →
    ∃ k < d.sb.numDataBlocks, slotVal d i sl = blockAddr d k
  exact : Ownership.Exact (owner d) (Marked d)

variable {d d' d'' : Disk} {i j k : Nat} {sl tl : Slot}

theorem Sb.Ok.blockAddr_ne_zero (h : d.sb.Ok) (k : Nat) : blockAddr d k ≠ 0 := by
  have := h.ptr_pos
  rw [blockAddr]
  omega

/-- Below the number of data blocks, a block address survives being stored in
an `off_t`. -/
theorem Sb.Ok.bmod_blockAddr (h : d.sb.Ok) (hk : k < d.sb.numDataBlocks) :
    Int.bmod (blockAddr d k) (256 ^ 8) = blockAddr d k := by
  have h₁ := h.ptr_pos
  have h₂ := h.ptr_lt
  have h₃ := h.blocks_lt
  rw [blockAddr, Int.bmod_eq_of_le] <;> omega

theorem owner_eq_none (h : slotVal d i sl = 0) : owner d (i, sl) = none := by
  rw [owner, if_neg fun hc => hc.2 h]

theorem Owned.owner_eq_some (h : Owned d) :
    owner d (i, sl) = some k ↔ Allocated d i ∧ slotVal d i sl = blockAddr d k := by
  rw [owner]
  constructor
  · intro ho
    split_ifs at ho with hc
    obtain ⟨l, -, hl⟩ := h.valid i sl hc.1 hc.2
    have hk := Option.some.inj ho
    refine ⟨hc.1, ?_⟩
    rw [hl, blockAddr] at hk ⊢
    rw [blockAddr]
    omega
  · rintro ⟨ha, hv⟩
    have hne : slotVal d i sl ≠ 0 := by
      rw [hv]
      exact h.sbOk.blockAddr_ne_zero k
    rw [if_pos ⟨ha, hne⟩, hv, blockAddr]
    congr 1
    omega

theorem Owned.owner_isSome (h : Owned d) (ha : Allocated d i) (hne : slotVal d i sl ≠ 0) :
    ∃ k, k < d.sb.numDataBlocks ∧ slotVal d i sl = blockAddr d k ∧ owner d (i, sl) = some k := by
  obtain ⟨k, hk, hv⟩ := h.valid i sl ha hne
  exact ⟨k, hk, hv, h.owner_eq_some.mpr ⟨ha, hv⟩⟩

/-- The blocks behind two different slots do not meet. -/
theorem Owned.disjoint (h : Owned d) (hi : Allocated d i) (hj : Allocated d j)
    (hne : (i, sl) ≠ (j, tl)) (h₁ : slotVal d i sl ≠ 0) (h₂ : slotVal d j tl ≠ 0) :
    slotVal d i sl + 512 ≤ slotVal d j tl ∨ slotVal d j tl + 512 ≤ slotVal d i sl := by
  obtain ⟨k, -, hk, ok⟩ := h.owner_isSome hi h₁
  obtain ⟨l, -, hl, ol⟩ := h.owner_isSome hj h₂
  have hkl : k ≠ l := by
    rintro rfl
    exact hne (h.exact.inj ok ol)
  rw [hk, hl, blockAddr, blockAddr]
  omega

/-- A block that is not marked does not meet any block behind a slot. -/
theorem Owned.disjoint_free (h : Owned d) (hi : Allocated d i) (hv : slotVal d i sl ≠ 0)
    (hk : ¬ Marked d k) :
    slotVal d i sl + 512 ≤ blockAddr d k ∨ blockAddr d k + 512 ≤ slotVal d i sl := by
  obtain ⟨l, -, hl, ol⟩ := h.owner_isSome hi hv
  have hkl : l ≠ k := by
    rintro rfl
    exact hk ((h.exact.range l).mpr ⟨_, ol⟩)
  rw [hl, blockAddr, blockAddr]
  omega

/-! ### Frames -/

/-- Inode `j` points to the same blocks, and these hold the same bytes. -/
structure SameBlocks (d d' : Disk) (j : Nat) : Prop where
  blocks : (d'.inodes j).blocks = (d.inodes j).blocks
  data : ∀ sl x, slotVal d j sl ≠ 0 → slotVal d j sl ≤ x → x < slotVal d j sl + 512 →
    d'.data x = d.data x

/-- The entries lie inside the indirect block. -/
theorem loadInt_entry_congr {m m' : Store} {a : Int}
    (h : ∀ x, a ≤ x → x < a + 512 → m' x = m x) (e : Fin 64) :
    loadInt m' (a + 8 * (e : Nat)) 8 = loadInt m (a + 8 * (e : Nat)) 8 := by
  apply loadInt_congr
  intro b hb
  have he := e.isLt
  exact h _ (by omega) (by omega)

/-- The slots of an inode are read from its pointers and its indirect block. -/
theorem slotVal_congr (hb : (d'.inodes j).blocks = (d.inodes j).blocks)
    (hdata : (d.inodes j).blocks 7 ≠ 0 → ∀ x, (d.inodes j).blocks 7 ≤ x →
      x < (d.inodes j).blocks 7 + 512 → d'.data x = d.data x) (sl : Slot) :
    slotVal d' j sl = slotVal d j sl := by
  cases sl with
  | direct k =>
      show (d'.inodes j).blocks k = (d.inodes j).blocks k
      rw [hb]
  | ind =>
      show (d'.inodes j).blocks 7 = (d.inodes j).blocks 7
      rw [hb]
  | entry e =>
      simp only [slotVal, hb]
      by_cases h7 : (d.inodes j).blocks 7 = 0
      · rw [if_pos h7, if_pos h7]
      · rw [if_neg h7, if_neg h7]
        exact loadInt_entry_congr (hdata h7) e

theorem SameBlocks.slotVal (h : SameBlocks d d' j) (sl : Slot) :
    slotVal d' j sl = slotVal d j sl :=
  slotVal_congr h.blocks (fun h7 x => h.data .ind x h7) sl

theorem SameBlocks.refl (d : Disk) (j : Nat) : SameBlocks d d j := ⟨rfl, fun _ _ _ _ _ => rfl⟩

theorem SameBlocks.trans (h : SameBlocks d d' j) (h' : SameBlocks d' d'' j) :
    SameBlocks d d'' j := by
  refine ⟨h'.blocks.trans h.blocks, fun sl x hne h₁ h₂ => ?_⟩
  have hv := h.slotVal sl
  rw [← h.data sl x hne h₁ h₂]
  exact h'.data sl x (by rw [hv]; exact hne) (by rw [hv]; exact h₁) (by rw [hv]; exact h₂)

/-- The data of two images differ at most in the block at address `v`. -/
def Within (d d' : Disk) (v : Int) : Prop := ∀ x, x < v ∨ v + 512 ≤ x → d'.data x = d.data x

theorem sameBlocks_of_within {v : Int} (hw : Within d d' v)
    (hb : (d'.inodes j).blocks = (d.inodes j).blocks)
    (hv : ∀ sl, slotVal d j sl ≠ 0 → slotVal d j sl + 512 ≤ v ∨ v + 512 ≤ slotVal d j sl) :
    SameBlocks d d' j := by
  refine ⟨hb, fun sl x hne h₁ h₂ => hw x ?_⟩
  have := hv sl hne
  omega

/-- A change inside a block that inode `i` owns leaves every other inode alone. -/
theorem Owned.sameBlocks_of_within (h : Owned d) (hi : Allocated d i) (hj : Allocated d j)
    (hij : j ≠ i) (hne : slotVal d i sl ≠ 0) (hw : Within d d' (slotVal d i sl))
    (hb : (d'.inodes j).blocks = (d.inodes j).blocks) : SameBlocks d d' j := by
  refine Wfs.sameBlocks_of_within hw hb fun tl htl => ?_
  exact h.disjoint hj hi (fun e => hij (Prod.mk.inj e).1) htl hne

/-- Writing into a block other than the indirect one changes no pointer of its
own inode. -/
theorem Owned.slotVal_of_within (h : Owned d) (hi : Allocated d i) (hsl : sl ≠ .ind)
    (hne : slotVal d i sl ≠ 0) (hw : Within d d' (slotVal d i sl))
    (hb : (d'.inodes i).blocks = (d.inodes i).blocks) (tl : Slot) :
    slotVal d' i tl = slotVal d i tl := by
  refine slotVal_congr hb (fun h7 x h₁ h₂ => hw x ?_) tl
  have hdis := @Owned.disjoint d i i .ind sl h hi hi (fun e => hsl (Prod.mk.inj e).2.symm) h7 hne
  have h7v : slotVal d i .ind = (d.inodes i).blocks 7 := rfl
  omega

/-- Ownership only reads the superblock, the bitmaps and the slots. -/
theorem Owned.of_slotVal (h : Owned d) (hsb : d'.sb = d.sb) (hibm : d'.ibm = d.ibm)
    (hdbm : d'.dbm = d.dbm) (hv : ∀ i sl, Allocated d i → slotVal d' i sl = slotVal d i sl) :
    Owned d' := by
  have hA : ∀ i, Allocated d' i ↔ Allocated d i := fun i => by simp only [Allocated, hsb, hibm]
  refine ⟨by rw [hsb]; exact h.sbOk, fun i sl ha hne => ?_, h.exact.congr ?_ fun k => ?_⟩
  · rw [hv i sl ((hA i).mp ha)] at hne ⊢
    simp only [blockAddr, hsb]
    exact h.valid i sl ((hA i).mp ha) hne
  · funext p
    by_cases ha : Allocated d p.1
    · simp only [owner, hA, hv p.1 p.2 ha, hsb]
    · simp only [owner, hA, ha, false_and, if_false]
  · simp only [Marked, hsb, hdbm]

end SystemsPortfolio.Wfs
