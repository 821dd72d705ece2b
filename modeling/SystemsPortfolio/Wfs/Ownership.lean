/-
SystemsPortfolio/Wfs/Ownership.lean

The four ways in which WFS changes who owns what, and that ownership survives
each of them:

* `assign` — a free block is zeroed, marked and put into an empty slot
  (`data_offset` for a direct block, for the indirect block and for one of its
  entries; `add_dentry` for a directory block);
* `unassign` — a block is unmarked and zeroed and its slot cleared (the loops
  of `wfs_unlink` and `wfs_rmdir`);
* `newInode` — a free inode slot is marked and initialised without blocks;
* `freeInode` — the slot of an inode without blocks is unmarked and zeroed.

Each comes with what it does to the slots of its own inode and with the frame
`SameBlocks` for all others.
-/
import SystemsPortfolio.Wfs.Slots

namespace SystemsPortfolio.Wfs

open ByteStore

variable {s t : Fs} {i j k : Nat} {sl tl : Slot} {v w : Int}

/-! ### Putting a pointer into a slot -/

/-- Store the pointer `v` in a slot of inode `i`. -/
def setSlot (s : Fs) (i : Nat) (sl : Slot) (v : Int) : Fs :=
  match sl with
  | .direct k => s.setBlock i k v
  | .ind => s.setBlock i 7 v
  | .entry e => { s with data := storeInt s.data ((s.inodes i).blocks 7 + 8 * (e : Nat)) 8 v }

@[simp] theorem setSlot_sb : (setSlot s i sl v).sb = s.sb := by cases sl <;> rfl

@[simp] theorem setSlot_ibm : (setSlot s i sl v).ibm = s.ibm := by cases sl <;> rfl

@[simp] theorem setSlot_dbm : (setSlot s i sl v).dbm = s.dbm := by cases sl <;> rfl

theorem setSlot_inodes_ne (h : j ≠ i) : (setSlot s i sl v).inodes j = s.inodes j := by
  cases sl with
  | direct k => exact Function.update_of_ne h ..
  | ind => exact Function.update_of_ne h ..
  | entry e => rfl

/-- Storing a pointer changes nothing in an inode but its block map. -/
theorem setSlot_inode : (setSlot s i sl v).inodes i =
    { s.inodes i with blocks := ((setSlot s i sl v).inodes i).blocks } := by
  cases sl with
  | direct k => simp [setSlot, Fs.setBlock, Fs.setInode]
  | ind => simp [setSlot, Fs.setBlock, Fs.setInode]
  | entry e => rfl

/-- What the slots of inode `i` hold after a pointer has been stored in slot
`sl`, when the data was changed before (from `s` to `t`) outside the indirect
block of `i`. -/
theorem slotVal_setSlot (ht : t.inodes = s.inodes)
    (hdata : sl ≠ .ind → (s.inodes i).blocks 7 ≠ 0 → ∀ x, (s.inodes i).blocks 7 ≤ x →
      x < (s.inodes i).blocks 7 + 512 → t.data x = s.data x)
    (hfit : Int.bmod w (256 ^ 8) = w)
    (hentry : ∀ e, sl = .entry e → (s.inodes i).blocks 7 ≠ 0)
    (hind : sl = .ind → ∀ e : Fin 64, slotVal s.toDisk i (.entry e) = 0 ∧
      (w ≠ 0 → loadInt t.data (w + 8 * (e : Nat)) 8 = 0)) (tl : Slot) :
    slotVal (setSlot t i sl w).toDisk i tl = if tl = sl then w else slotVal s.toDisk i tl := by
  cases sl with
  | direct a =>
      -- a direct pointer: the indirect block is where it was, with its bytes
      have ha : (a : Nat) ≠ 7 := by omega
      cases tl with
      | direct b =>
          rcases eq_or_ne b a with rfl | hab
          · simp [slotVal, setSlot, Fs.setBlock, Fs.setInode]
          · have hne : (b : Nat) ≠ a := fun e => hab (Fin.ext e)
            simp [slotVal, setSlot, Fs.setBlock, Fs.setInode, hab, hne, ht]
      | ind => simp [slotVal, setSlot, Fs.setBlock, Fs.setInode, ha.symm, ht]
      | entry e =>
          simp only [slotVal, setSlot, Fs.setBlock, Fs.setInode, Function.update_self, ht,
            Function.update_of_ne ha.symm, reduceCtorEq, if_false]
          by_cases h7 : (s.inodes i).blocks 7 = 0
          · rw [if_pos h7, if_pos h7]
          · rw [if_neg h7, if_neg h7]
            exact loadInt_entry_congr (hdata (by simp) h7) e
  | ind =>
      cases tl with
      | direct b =>
          have hb : (b : Nat) ≠ 7 := by omega
          simp [slotVal, setSlot, Fs.setBlock, Fs.setInode, hb, ht]
      | ind => simp [slotVal, setSlot, Fs.setBlock, Fs.setInode]
      | entry e =>
          -- the entries are those of the new indirect block, all zero as before
          obtain ⟨hz, hw⟩ := hind rfl e
          rw [if_neg (by simp), hz]
          simp only [slotVal, setSlot, Fs.setBlock, Fs.setInode, Function.update_self]
          by_cases h0 : w = 0
          · rw [if_pos h0]
          · rw [if_neg h0]
            exact hw h0
  | entry a =>
      -- an entry: the pointers of the inode itself do not move
      have h7 := hentry a rfl
      cases tl with
      | direct b => simp [slotVal, setSlot, ht]
      | ind => simp [slotVal, setSlot, ht]
      | entry e =>
          simp only [slotVal, setSlot, ht, if_neg h7]
          rcases eq_or_ne e a with rfl | hea
          · rw [loadInt_storeInt_same, hfit, if_pos rfl]
          · have hne : (e : Nat) ≠ a := fun h => hea (Fin.ext h)
            rw [loadInt_storeInt_disjoint (by omega), if_neg (by simpa using hea)]
            exact loadInt_entry_congr (hdata (by simp) h7) e

/-- Storing a pointer of inode `i`, after a change inside a block that inode `j`
does not own, leaves `j` alone. -/
theorem Owned.sameBlocks_setSlot (ho : Owned s.toDisk) (hi : Allocated s.toDisk i)
    (hj : Allocated s.toDisk j) (hji : j ≠ i) (ht : t.inodes = s.inodes)
    (hw : Within s.toDisk t.toDisk v)
    (hv : ∀ tl, slotVal s.toDisk j tl ≠ 0 →
      slotVal s.toDisk j tl + 512 ≤ v ∨ v + 512 ≤ slotVal s.toDisk j tl)
    (hentry : ∀ e, sl = .entry e → (s.inodes i).blocks 7 ≠ 0) :
    SameBlocks s.toDisk (setSlot t i sl w).toDisk j := by
  refine ⟨by rw [setSlot_inodes_ne hji, ht], fun tl x hne h₁ h₂ => ?_⟩
  have hx : t.data x = s.data x := by
    have := hv tl hne
    exact hw x (by omega)
  rw [← hx]
  cases sl with
  | direct a => rfl
  | ind => rfl
  | entry e =>
      -- the entry lies in the indirect block of `i`, which is not one of `j`
      have h7 := hentry e rfl
      have he := e.isLt
      have hdis := @Owned.disjoint _ j i tl .ind ho hj hi (fun h => hji (Prod.mk.inj h).1) hne h7
      have h7v : slotVal s.toDisk i .ind = (s.inodes i).blocks 7 := rfl
      show storeInt t.data ((t.inodes i).blocks 7 + 8 * (e : Nat)) 8 w x = t.data x
      apply storeInt_of_disjoint
      rw [ht]
      omega

/-! ### Handing out a block -/

/-- `allocate_data_block` has handed out block `k`. -/
def takeBlock (s : Fs) (k : Nat) : Fs :=
  { s with
    dbm := WordSet.insert s.dbm k
    data := fill s.data (blockAddr s.toDisk k) 512 0 }

/-- Give block `k` to a slot of inode `i`. -/
def assign (s : Fs) (i : Nat) (sl : Slot) (k : Nat) : Fs :=
  setSlot (takeBlock s k) i sl (blockAddr s.toDisk k)

/-- The allocator looks at the bitmap only, whatever the blocks hold. -/
theorem allocateDataBlock_data (hok : s.sb.Ok) :
    ((∀ m, allocateDataBlock { s with data := m } = (0, { s with data := m, wfsError := -ENOSPC })) ∧
      ∀ k < s.sb.numDataBlocks, bitmapTest k s.dbm = true) ∨
    ∃ k < s.sb.numDataBlocks, bitmapTest k s.dbm = false ∧
      ∀ m, allocateDataBlock { s with data := m } =
        (blockAddr s.toDisk k, takeBlock { s with data := m } k) := by
  have hmod := hok.blocks_mod
  have hlt := hok.blocks_lt
  have hlen : 32 * ((s.sb.numDataBlocks + 31) / 32) = s.sb.numDataBlocks := by omega
  simp only [allocateDataBlock]
  rcases e : allocateBlock s.dbm ((s.sb.numDataBlocks + 31) / 32) with - | ⟨k, dbm'⟩
  · left
    refine ⟨fun _ => rfl, fun k hk => ?_⟩
    rw [bitmapTest_eq]
    exact allocateBlock_eq_none e k (by omega)
  · right
    obtain ⟨hk, hfree, rfl, -⟩ := allocateBlock_eq_some (by omega) e
    rw [hlen] at hk
    refine ⟨k, hk, by rw [bitmapTest_eq]; exact hfree, fun m => ?_⟩
    simp only [if_neg (Nat.not_le.mpr hk), takeBlock, blockAddr, Int.mul_comm]

theorem allocateDataBlock_cases (hok : s.sb.Ok) :
    (allocateDataBlock s = (0, { s with wfsError := -ENOSPC }) ∧
      ∀ k < s.sb.numDataBlocks, bitmapTest k s.dbm = true) ∨
    ∃ k < s.sb.numDataBlocks, bitmapTest k s.dbm = false ∧
      allocateDataBlock s = (blockAddr s.toDisk k, takeBlock s k) := by
  rcases allocateDataBlock_data hok with ⟨e, hfull⟩ | ⟨k, hk, hfree, e⟩
  · exact Or.inl ⟨e s.data, hfull⟩
  · exact Or.inr ⟨k, hk, hfree, e s.data⟩

theorem within_takeBlock : Within s.toDisk (takeBlock s k).toDisk (blockAddr s.toDisk k) :=
  fun _ hx => fill_of_disjoint hx

/-- Zeroing the block again, as two of the callers of `allocate_data_block` do,
changes nothing. -/
theorem refill_takeBlock (b : Nat) :
    { (takeBlock s k).setBlock i b v with
      data := fill ((takeBlock s k).setBlock i b v).data (blockAddr s.toDisk k) 512 0 } =
        (takeBlock s k).setBlock i b v := by
  have h : fill (takeBlock s k).data (blockAddr s.toDisk k) 512 0 = (takeBlock s k).data := fill_fill
  simp only [Fs.setBlock, Fs.setInode, h]

theorem not_marked (h : bitmapTest k s.dbm = false) : ¬ Marked s.toDisk k := by
  rintro ⟨-, hm⟩
  rw [h] at hm
  cases hm

/-- The facts about a slot and a block that make `assign` go well. -/
structure Assignable (s : Fs) (i : Nat) (sl : Slot) (k : Nat) : Prop where
  alloc : Allocated s.toDisk i
  empty : slotVal s.toDisk i sl = 0
  parent : ∀ e, sl = .entry e → (s.inodes i).blocks 7 ≠ 0
  lt : k < s.sb.numDataBlocks
  free : bitmapTest k s.dbm = false

theorem slotVal_assign (ho : Owned s.toDisk) (h : Assignable s i sl k) (tl : Slot) :
    slotVal (assign s i sl k).toDisk i tl
      = if tl = sl then blockAddr s.toDisk k else slotVal s.toDisk i tl := by
  refine slotVal_setSlot (s := s) (t := takeBlock s k) rfl ?_ (ho.sbOk.bmod_blockAddr h.lt)
    h.parent ?_ tl
  · intro _ h7 x h₁ h₂
    -- the new block is not the indirect block
    have hdis := @Owned.disjoint_free _ i k .ind ho h.alloc h7 (not_marked h.free)
    have h7v : slotVal s.toDisk i .ind = (s.inodes i).blocks 7 := rfl
    exact within_takeBlock x (by omega)
  · intro hsl e
    subst hsl
    have h7 : (s.inodes i).blocks 7 = 0 := h.empty
    refine ⟨by simp [slotVal, h7], fun _ => ?_⟩
    apply loadInt_eq_zero
    intro b hb
    have he := e.isLt
    exact fill_of_mem (by omega) (by omega)

theorem sameBlocks_assign (ho : Owned s.toDisk) (h : Assignable s i sl k)
    (hj : Allocated s.toDisk j) (hji : j ≠ i) : SameBlocks s.toDisk (assign s i sl k).toDisk j :=
  ho.sameBlocks_setSlot h.alloc hj hji rfl within_takeBlock
    (fun _ htl => ho.disjoint_free hj htl (not_marked h.free)) h.parent

theorem assign_sb : (assign s i sl k).sb = s.sb := setSlot_sb

theorem assign_ibm : (assign s i sl k).ibm = s.ibm := setSlot_ibm

theorem assign_inodes_ne (h : j ≠ i) : (assign s i sl k).inodes j = s.inodes j :=
  setSlot_inodes_ne h

theorem assign_inode : (assign s i sl k).inodes i =
    { s.inodes i with blocks := ((assign s i sl k).inodes i).blocks } := setSlot_inode

theorem allocated_assign : Allocated (assign s i sl k).toDisk j ↔ Allocated s.toDisk j := by
  simp only [Allocated, assign_sb, assign_ibm]

theorem marked_assign {l : Nat} (h : Assignable s i sl k) :
    Marked (assign s i sl k).toDisk l ↔ l = k ∨ Marked s.toDisk l := by
  have hdbm : (assign s i sl k).dbm = WordSet.insert s.dbm k := setSlot_dbm
  have hlt := h.lt
  simp only [Marked, assign_sb, hdbm, bitmapTest_eq, WordSet.test_insert, Bool.or_eq_true,
    decide_eq_true_eq]
  constructor
  · rintro ⟨hl, rfl | hm⟩
    · exact Or.inl rfl
    · exact Or.inr ⟨hl, hm⟩
  · rintro (rfl | ⟨hl, hm⟩)
    · exact ⟨hlt, Or.inl rfl⟩
    · exact ⟨hl, Or.inr hm⟩

theorem owner_assign (ho : Owned s.toDisk) (h : Assignable s i sl k) :
    owner (assign s i sl k).toDisk = Function.update (owner s.toDisk) (i, sl) (some k) := by
  funext q
  obtain ⟨j, tl⟩ := q
  rcases eq_or_ne j i with rfl | hji
  · simp only [owner, allocated_assign, slotVal_assign ho h, assign_sb]
    rcases eq_or_ne tl sl with rfl | htl
    · have hne := ho.sbOk.blockAddr_ne_zero k
      rw [Function.update_self, if_pos rfl, if_pos ⟨h.alloc, hne⟩, blockAddr]
      congr 1
      omega
    · rw [Function.update_of_ne (fun e => htl (Prod.mk.inj e).2), if_neg htl, owner]
  · rw [Function.update_of_ne (fun e => hji (Prod.mk.inj e).1)]
    by_cases hj : Allocated s.toDisk j
    · simp only [owner, allocated_assign, (sameBlocks_assign ho h hj hji).slotVal, assign_sb]
    · simp only [owner, allocated_assign, hj, false_and, if_false]

theorem Owned.assign (ho : Owned s.toDisk) (h : Assignable s i sl k) :
    Owned (assign s i sl k).toDisk := by
  refine ⟨by rw [assign_sb]; exact ho.sbOk, fun j tl hj hne => ?_, ?_⟩
  · rw [allocated_assign] at hj
    simp only [blockAddr, assign_sb]
    rcases eq_or_ne j i with rfl | hji
    · rw [slotVal_assign ho h] at hne ⊢
      split_ifs at hne ⊢ with htl
      · exact ⟨k, h.lt, rfl⟩
      · exact ho.valid j tl hj hne
    · rw [(sameBlocks_assign ho h hj hji).slotVal] at hne ⊢
      exact ho.valid j tl hj hne
  · exact (ho.exact.assign (owner_eq_none h.empty) (not_marked h.free)).congr (owner_assign ho h)
      fun l => marked_assign h

/-- A newly assigned block is zeroed. -/
theorem assign_data_new (ho : Owned s.toDisk) (h : Assignable s i sl k) {x : Int}
    (h₁ : blockAddr s.toDisk k ≤ x) (h₂ : x < blockAddr s.toDisk k + 512) :
    (assign s i sl k).data x = 0 := by
  have hfill : (takeBlock s k).data x = 0 := fill_of_mem h₁ h₂
  cases sl with
  | direct a => exact hfill
  | ind => exact hfill
  | entry e =>
      have h7 := h.parent e rfl
      have he := e.isLt
      have hdis := @Owned.disjoint_free _ i k .ind ho h.alloc h7 (not_marked h.free)
      have h7v : slotVal s.toDisk i .ind = (s.inodes i).blocks 7 := rfl
      refine Eq.trans (storeInt_of_disjoint ?_) hfill
      have htaken : ((takeBlock s k).inodes i).blocks 7 = (s.inodes i).blocks 7 := rfl
      omega

/-- The blocks the inode had before keep their bytes, but for its indirect
block. -/
theorem assign_data_old (ho : Owned s.toDisk) (h : Assignable s i sl k) (htl : tl ≠ .ind)
    (hne : slotVal s.toDisk i tl ≠ 0) {x : Int} (h₁ : slotVal s.toDisk i tl ≤ x)
    (h₂ : x < slotVal s.toDisk i tl + 512) : (assign s i sl k).data x = s.data x := by
  have hdis := ho.disjoint_free h.alloc hne (not_marked h.free)
  have htake : (takeBlock s k).data x = s.data x := within_takeBlock x (by omega)
  cases sl with
  | direct a => exact htake
  | ind => exact htake
  | entry e =>
      have h7 := h.parent e rfl
      have he := e.isLt
      have hind := @Owned.disjoint _ i i tl .ind ho h.alloc h.alloc
        (fun e => htl (Prod.mk.inj e).2) hne h7
      have h7v : slotVal s.toDisk i .ind = (s.inodes i).blocks 7 := rfl
      refine Eq.trans (storeInt_of_disjoint ?_) htake
      have htaken : ((takeBlock s k).inodes i).blocks 7 = (s.inodes i).blocks 7 := rfl
      omega

/-! ### Taking a block back -/

/-- Free the block behind a slot of inode `i` and clear the slot. -/
def unassign (s : Fs) (i : Nat) (sl : Slot) : Fs :=
  setSlot (freeBlock s (slotVal s.toDisk i sl)) i sl 0

/-- `free_block` has taken back block `k`. -/
def dropBlock (s : Fs) (k : Nat) : Fs :=
  { s with
    dbm := WordSet.erase s.dbm k
    data := fill s.data (blockAddr s.toDisk k) 512 0 }

theorem freeBlock_eq (hok : s.sb.Ok) (hk : k < s.sb.numDataBlocks) :
    freeBlock s (blockAddr s.toDisk k) = dropBlock s k := by
  have hlt := hok.blocks_lt
  have hrel : blockAddr s.toDisk k - s.sb.dBlocksPtr = 512 * (k : Int) := by
    rw [blockAddr]
    omega
  have hidx : (512 * (k : Int) / 512 % 2 ^ 32).toNat = k := by omega
  rw [freeBlock, if_neg (by rw [blockAddr]; omega)]
  simp only [hrel, hidx]
  rw [if_neg (by omega), if_neg (by omega), freeBitmap_eq, dropBlock]

/-- When a slot may be cleared: its inode is allocated, the slot is in use, and
the indirect block goes only after its entries. -/
structure Releasable (s : Fs) (i : Nat) (sl : Slot) : Prop where
  alloc : Allocated s.toDisk i
  used : slotVal s.toDisk i sl ≠ 0
  last : sl = .ind → ∀ e, slotVal s.toDisk i (.entry e) = 0

theorem Releasable.parent (h : Releasable s i sl) :
    ∀ e, sl = .entry e → (s.inodes i).blocks 7 ≠ 0 := by
  rintro e rfl h7
  exact h.used (by simp [slotVal, h7])

theorem unassign_eq (ho : Owned s.toDisk) (h : Releasable s i sl) :
    ∃ k < s.sb.numDataBlocks, slotVal s.toDisk i sl = blockAddr s.toDisk k ∧
      owner s.toDisk (i, sl) = some k ∧ unassign s i sl = setSlot (dropBlock s k) i sl 0 := by
  obtain ⟨k, hk, hv, hown⟩ := ho.owner_isSome h.alloc h.used
  exact ⟨k, hk, hv, hown, by rw [unassign, hv, freeBlock_eq ho.sbOk hk]⟩

theorem within_dropBlock : Within s.toDisk (dropBlock s k).toDisk (blockAddr s.toDisk k) :=
  fun _ hx => fill_of_disjoint hx

theorem slotVal_unassign (ho : Owned s.toDisk) (h : Releasable s i sl) (tl : Slot) :
    slotVal (unassign s i sl).toDisk i tl = if tl = sl then 0 else slotVal s.toDisk i tl := by
  obtain ⟨k, hk, hv, -, heq⟩ := unassign_eq ho h
  rw [heq]
  refine slotVal_setSlot (s := s) (t := dropBlock s k) rfl ?_ (by decide) h.parent ?_ tl
  · intro hsl h7 x h₁ h₂
    have hdis := @Owned.disjoint _ i i .ind sl ho h.alloc h.alloc
      (fun e => hsl (Prod.mk.inj e).2.symm) h7 h.used
    have h7v : slotVal s.toDisk i .ind = (s.inodes i).blocks 7 := rfl
    exact within_dropBlock x (by omega)
  · intro hsl e
    exact ⟨h.last hsl e, fun h0 => absurd rfl h0⟩

theorem sameBlocks_unassign (ho : Owned s.toDisk) (h : Releasable s i sl)
    (hj : Allocated s.toDisk j) (hji : j ≠ i) :
    SameBlocks s.toDisk (unassign s i sl).toDisk j := by
  obtain ⟨k, hk, hv, -, heq⟩ := unassign_eq ho h
  rw [heq]
  refine ho.sameBlocks_setSlot h.alloc hj hji rfl within_dropBlock (fun tl htl => ?_) h.parent
  rw [← hv]
  exact ho.disjoint hj h.alloc (fun e => hji (Prod.mk.inj e).1) htl h.used

theorem unassign_sb (ho : Owned s.toDisk) (h : Releasable s i sl) :
    (unassign s i sl).sb = s.sb := by
  obtain ⟨k, -, -, -, heq⟩ := unassign_eq ho h
  rw [heq, setSlot_sb]
  rfl

theorem unassign_ibm (ho : Owned s.toDisk) (h : Releasable s i sl) :
    (unassign s i sl).ibm = s.ibm := by
  obtain ⟨k, -, -, -, heq⟩ := unassign_eq ho h
  rw [heq, setSlot_ibm]
  rfl

theorem unassign_inodes_ne (ho : Owned s.toDisk) (h : Releasable s i sl) (hji : j ≠ i) :
    (unassign s i sl).inodes j = s.inodes j := by
  obtain ⟨k, -, -, -, heq⟩ := unassign_eq ho h
  rw [heq, setSlot_inodes_ne hji]
  rfl

theorem unassign_inode (ho : Owned s.toDisk) (h : Releasable s i sl) :
    (unassign s i sl).inodes i =
      { s.inodes i with blocks := ((unassign s i sl).inodes i).blocks } := by
  obtain ⟨k, -, -, -, heq⟩ := unassign_eq ho h
  rw [heq, setSlot_inode]
  rfl

theorem Owned.unassign (ho : Owned s.toDisk) (h : Releasable s i sl) :
    Owned (unassign s i sl).toDisk := by
  have hsb := unassign_sb ho h
  have hA : ∀ j, Allocated (Wfs.unassign s i sl).toDisk j ↔ Allocated s.toDisk j := fun j => by
    simp only [Allocated, hsb, unassign_ibm ho h]
  refine ⟨by rw [hsb]; exact ho.sbOk, fun j tl hj hne => ?_, ?_⟩
  · rw [hA] at hj
    simp only [blockAddr, hsb]
    rcases eq_or_ne j i with rfl | hji
    · rw [slotVal_unassign ho h] at hne ⊢
      split_ifs at hne ⊢
      · exact absurd rfl hne
      · exact ho.valid j tl hj hne
    · rw [(sameBlocks_unassign ho h hj hji).slotVal] at hne ⊢
      exact ho.valid j tl hj hne
  · -- the owner map forgets this one slot, and the bitmap its block
    refine (ho.exact.release (· = (i, sl))).congr ?_ fun l => ?_
    · funext q
      obtain ⟨j, tl⟩ := q
      rcases eq_or_ne j i with rfl | hji
      · simp only [owner, hA, slotVal_unassign ho h, hsb, Prod.mk.injEq, true_and]
        by_cases htl : tl = sl
        · simp [htl]
        · simp [htl]
      · simp only [Prod.mk.injEq, hji, false_and, if_false]
        by_cases hj : Allocated s.toDisk j
        · simp only [owner, hA, (sameBlocks_unassign ho h hj hji).slotVal, hsb]
        · simp only [owner, hA, hj, false_and, if_false]
    · obtain ⟨k, hk, hv, hown, heq⟩ := unassign_eq ho h
      have hdbm : (Wfs.unassign s i sl).dbm = WordSet.erase s.dbm k := by rw [heq, setSlot_dbm]; rfl
      simp only [Marked, hsb, hdbm, bitmapTest_eq, WordSet.test_erase, Bool.and_eq_true,
        Bool.not_eq_true', decide_eq_false_iff_not, forall_eq, hown, ne_eq, Option.some.injEq]
      constructor
      · rintro ⟨hl, hne, hm⟩
        exact ⟨⟨hl, hm⟩, fun e => hne e.symm⟩
      · rintro ⟨⟨hl, hm⟩, hne⟩
        exact ⟨hl, fun e => hne e.symm, hm⟩

/-! ### Inode slots -/

/-- `allocate_inode` has marked slot `i` and left `ino` in it. -/
def newInode (s : Fs) (i : Nat) (ino : Inode) : Fs :=
  Fs.setInode { s with ibm := WordSet.insert s.ibm i } i ino

/-- The inode that `allocate_inode` and `fillin_inode` leave in slot `i`. -/
def freshInode (i : Nat) (mode : BitVec 32) (env : Env) (now : Int) : Inode where
  num := i
  mode := mode
  uid := env.uid
  gid := env.gid
  size := 0
  nlinks := 1
  atim := now
  mtim := now
  ctim := now
  color := .none
  blocks := fun _ => 0

@[simp] theorem freshInode_num (i : Nat) (mode : BitVec 32) (env : Env) (now : Int) :
    (freshInode i mode env now).num = i := rfl

theorem allocateInode_data (hok : s.sb.Ok) (now : Int) :
    ((∀ m, allocateInode { s with data := m } now =
        (none, { s with data := m, wfsError := -ENOSPC })) ∧
      ∀ i < s.sb.numInodes, bitmapTest i s.ibm = true) ∨
    ∃ i < s.sb.numInodes, bitmapTest i s.ibm = false ∧ ∀ m, ∃ s₁,
      allocateInode { s with data := m } now = (some i, s₁) ∧
      ∀ mode env now', fillinInode s₁ i mode env now' =
        newInode { s with data := m } i (freshInode i mode env now') := by
  have hmod := hok.inodes_mod
  have hlt := hok.inodes_lt
  have hlen : 32 * ((s.sb.numInodes + 31) / 32) = s.sb.numInodes := by omega
  simp only [allocateInode]
  rcases e : allocateBlock s.ibm ((s.sb.numInodes + 31) / 32) with - | ⟨i, ibm'⟩
  · left
    refine ⟨fun _ => rfl, fun i hi => ?_⟩
    rw [bitmapTest_eq]
    exact allocateBlock_eq_none e i (by omega)
  · right
    obtain ⟨hi, hfree, rfl, -⟩ := allocateBlock_eq_some (by omega) e
    rw [hlen] at hi
    refine ⟨i, hi, by rw [bitmapTest_eq]; exact hfree,
      fun m => ⟨_, by simp only [if_neg (Nat.not_le.mpr hi)]; rfl, fun mode env now' => ?_⟩⟩
    -- the second initialisation overwrites everything but the number
    simp [fillinInode, newInode, freshInode, Fs.setInode, wfsUpdateTimes]

theorem allocateInode_cases (hok : s.sb.Ok) (now : Int) :
    (allocateInode s now = (none, { s with wfsError := -ENOSPC }) ∧
      ∀ i < s.sb.numInodes, bitmapTest i s.ibm = true) ∨
    ∃ i < s.sb.numInodes, bitmapTest i s.ibm = false ∧ ∃ s₁,
      allocateInode s now = (some i, s₁) ∧
      ∀ mode env now', fillinInode s₁ i mode env now' = newInode s i (freshInode i mode env now') := by
  rcases allocateInode_data hok now with ⟨e, hfull⟩ | ⟨i, hi, hfree, e⟩
  · exact Or.inl ⟨e s.data, hfull⟩
  · exact Or.inr ⟨i, hi, hfree, e s.data⟩

theorem allocated_newInode {ino : Inode} (hi : i < s.sb.numInodes) :
    Allocated (newInode s i ino).toDisk j ↔ j = i ∨ Allocated s.toDisk j := by
  show (j < s.sb.numInodes ∧ bitmapTest j (WordSet.insert s.ibm i) = true) ↔ _
  rw [Allocated, bitmapTest_eq, bitmapTest_eq, WordSet.test_insert, Bool.or_eq_true,
    decide_eq_true_eq]
  constructor
  · rintro ⟨hj, rfl | hm⟩
    · exact Or.inl rfl
    · exact Or.inr ⟨hj, hm⟩
  · rintro (rfl | ⟨hj, hm⟩)
    · exact ⟨hi, Or.inl rfl⟩
    · exact ⟨hj, Or.inr hm⟩

theorem newInode_inodes_ne {ino : Inode} (h : j ≠ i) : (newInode s i ino).inodes j = s.inodes j :=
  Function.update_of_ne h ..

theorem newInode_inode {ino : Inode} : (newInode s i ino).inodes i = ino := Function.update_self ..

theorem sameBlocks_newInode {ino : Inode} (h : j ≠ i) :
    SameBlocks s.toDisk (newInode s i ino).toDisk j :=
  ⟨by rw [newInode_inodes_ne h], fun _ _ _ _ _ => rfl⟩

theorem slotVal_newInode {ino : Inode} (hb : ino.blocks = fun _ => 0) (sl : Slot) :
    slotVal (newInode s i ino).toDisk i sl = 0 := by
  cases sl <;> simp [slotVal, newInode_inode, hb]

theorem Owned.newInode {ino : Inode} (ho : Owned s.toDisk) (hi : i < s.sb.numInodes)
    (hfree : ¬ Allocated s.toDisk i) (hb : ino.blocks = fun _ => 0) :
    Owned (newInode s i ino).toDisk := by
  refine ⟨ho.sbOk, fun j tl hj hne => ?_, ho.exact.congr ?_ fun _ => Iff.rfl⟩
  · rcases (allocated_newInode hi).mp hj with rfl | hj
    · exact absurd (slotVal_newInode hb tl) hne
    · have hji : j ≠ i := fun e => hfree (e ▸ hj)
      rw [(sameBlocks_newInode hji).slotVal] at hne ⊢
      exact ho.valid j tl hj hne
  · funext q
    obtain ⟨j, tl⟩ := q
    rcases eq_or_ne j i with rfl | hji
    · rw [owner_eq_none (slotVal_newInode hb tl), owner, if_neg fun h => hfree h.1]
    · simp only [owner, allocated_newInode hi, hji, false_or, (sameBlocks_newInode hji).slotVal]
      rfl

theorem freeInode_eq (hi : i < 2 ^ 31) (hnum : (s.inodes i).num = i) :
    freeInode s i = Fs.setInode { s with ibm := WordSet.erase s.ibm i } i Inode.zero := by
  have hn : ((i : Int) % 2 ^ 32).toNat = i := by omega
  simp only [freeInode, hnum, hn, freeBitmap_eq]

/-- Ownership after the slot of an inode without blocks has been freed. -/
theorem Owned.freeInode (ho : Owned s.toDisk) (hi : i < 2 ^ 31) (hnum : (s.inodes i).num = i)
    (hz : ∀ sl, slotVal s.toDisk i sl = 0) :
    Owned (freeInode s i).toDisk ∧
      (∀ j, Allocated (freeInode s i).toDisk j ↔ Allocated s.toDisk j ∧ j ≠ i) := by
  rw [freeInode_eq hi hnum]
  generalize ht : Fs.setInode { s with ibm := WordSet.erase s.ibm i } i Inode.zero = t
  have hA : ∀ j, Allocated t.toDisk j ↔ Allocated s.toDisk j ∧ j ≠ i := by
    intro j
    subst ht
    show (j < s.sb.numInodes ∧ bitmapTest j (WordSet.erase s.ibm i) = true) ↔ _
    rw [Allocated, bitmapTest_eq, bitmapTest_eq, WordSet.test_erase, Bool.and_eq_true,
      Bool.not_eq_true', decide_eq_false_iff_not]
    constructor
    · rintro ⟨hj, hne, hm⟩
      exact ⟨⟨hj, hm⟩, hne⟩
    · rintro ⟨⟨hj, hm⟩, hne⟩
      exact ⟨hj, hne, hm⟩
  have hsame : ∀ j, j ≠ i → SameBlocks s.toDisk t.toDisk j := by
    intro j hji
    subst ht
    exact ⟨congrArg Inode.blocks (Function.update_of_ne hji ..), fun _ _ _ _ _ => rfl⟩
  have hsb : t.sb = s.sb := by subst ht; rfl
  have hdbm : t.dbm = s.dbm := by subst ht; rfl
  refine ⟨⟨by rw [hsb]; exact ho.sbOk, fun j tl hj hne => ?_, ho.exact.congr ?_ fun l => ?_⟩, hA⟩
  · obtain ⟨hj, hji⟩ := (hA j).mp hj
    rw [(hsame j hji).slotVal] at hne ⊢
    simp only [blockAddr, hsb]
    exact ho.valid j tl hj hne
  · -- the slots of `i` owned nothing, and no other inode has changed
    funext q
    obtain ⟨j, tl⟩ := q
    rcases eq_or_ne j i with rfl | hji
    · rw [owner_eq_none (hz tl), owner, if_neg fun h => ((hA j).mp h.1).2 rfl]
    · simp only [owner, hA, (hsame j hji).slotVal, hsb, ne_eq, hji, not_false_eq_true, and_true]
  · simp only [Marked, hsb, hdbm]

/-! ### Changes that touch no pointer -/

/-- The blocks of an inode do not depend on its other fields. -/
theorem sameBlocks_setInode {ino : Inode} (hb : ino.blocks = (s.inodes i).blocks) (j : Nat) :
    SameBlocks s.toDisk (s.setInode i ino).toDisk j := by
  refine ⟨?_, fun _ _ _ _ _ => rfl⟩
  rcases eq_or_ne j i with rfl | hji
  · rw [Fs.setInode_self, hb]
  · rw [Fs.setInode_ne hji]

theorem Owned.setInode {ino : Inode} (ho : Owned s.toDisk)
    (hb : ino.blocks = (s.inodes i).blocks) : Owned (s.setInode i ino).toDisk :=
  ho.of_slotVal rfl rfl rfl fun j tl _ => (sameBlocks_setInode hb j).slotVal tl

/-- No pointer depends on what the blocks behind direct slots and indirect entries
hold. -/
theorem Owned.slotVal_poke {m : Store} (ho : Owned s.toDisk) (hi : Allocated s.toDisk i)
    (hsl : sl ≠ .ind) (hne : slotVal s.toDisk i sl ≠ 0)
    (hw : Within s.toDisk { s with data := m }.toDisk (slotVal s.toDisk i sl))
    (hj : Allocated s.toDisk j) (tl : Slot) :
    slotVal { s with data := m }.toDisk j tl = slotVal s.toDisk j tl := by
  rcases eq_or_ne j i with rfl | hji
  · exact ho.slotVal_of_within hi hsl hne hw rfl tl
  · exact (ho.sameBlocks_of_within hi hj hji hne hw rfl).slotVal tl

theorem Owned.poke {m : Store} (ho : Owned s.toDisk) (hi : Allocated s.toDisk i) (hsl : sl ≠ .ind)
    (hne : slotVal s.toDisk i sl ≠ 0)
    (hw : Within s.toDisk { s with data := m }.toDisk (slotVal s.toDisk i sl)) :
    Owned { s with data := m }.toDisk :=
  ho.of_slotVal rfl rfl rfl fun _ tl hj => ho.slotVal_poke hi hsl hne hw hj tl

end SystemsPortfolio.Wfs
