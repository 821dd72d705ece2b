/-
SystemsPortfolio/Wfs/Growth.lean

`data_offset`, seen through the slots of an inode.

Block `b` of a file hangs on the slot `leaf b`.  Looking for it without
allocation reads that slot (`dataOffset_false`).  With allocation, one or two
slots are filled in if they are empty; `Ensured` describes one such attempt,
and `dataOffset_true` puts them together.  What a file holds (`byteAt`) does
not change when it grows, because new blocks are zeroed.
-/
import SystemsPortfolio.Wfs.Confined

namespace SystemsPortfolio.Wfs

open ByteStore

variable {d d' : Disk} {s t : Fs} {i j k : Nat} {sl tl : Slot} {r : Int × Fs}

/-! ### The slots a file's bytes hang on -/

/-- The slot that holds the pointer to block `b` of a file. -/
def leaf (b : Fin 70) : Slot :=
  if h : b.val < 6 then .direct ⟨b, h⟩ else .entry ⟨b - 6, by omega⟩

theorem leaf_ne_ind (b : Fin 70) : leaf b ≠ .ind := by
  rw [leaf]
  split_ifs <;> simp

theorem leaf_injective : Function.Injective leaf := by
  intro a b h
  rw [leaf, leaf] at h
  split_ifs at h with ha hb hb
  · have hv : a.val = b.val := by simpa using h
    exact Fin.ext hv
  · have hv : a.val - 6 = b.val - 6 := by simpa using h
    exact Fin.ext (by omega)

/-- The byte at offset `x` of inode `i`; holes and everything from the largest
file size on read as zero. -/
def byteAt (d : Disk) (i x : Nat) : UInt8 :=
  if h : x / 512 < 70 then
    if slotVal d i (leaf ⟨x / 512, h⟩) = 0 then 0
    else d.data (slotVal d i (leaf ⟨x / 512, h⟩) + (x % 512 : Nat))
  else 0

theorem SameBlocks.byteAt (h : SameBlocks d d' j) (x : Nat) : byteAt d' j x = byteAt d j x := by
  rw [Wfs.byteAt, Wfs.byteAt]
  split_ifs with hx h₁ h₂ h₂
  · rfl
  · rw [h.slotVal] at h₁
    exact absurd h₁ h₂
  · rw [h.slotVal] at h₁
    exact absurd h₂ h₁
  · rw [h.slotVal]
    exact h.data _ _ h₂ (by omega) (by omega)
  · rfl

/-! ### Looking without allocating -/

theorem indirectBlock_false {e : Fin 64} :
    indirectBlock s i e false = (slotVal s.toDisk i (.entry e), s) := by
  have he := e.isLt
  rw [indirectBlock]
  by_cases h7 : (s.inodes i).blocks 7 = 0
  · simp [slotVal, h7]
  · simp [slotVal, h7, indirectEntry, Nat.not_le.mpr he]

/-- Without allocation `data_offset` reads the slot of the block. -/
theorem dataOffset_false {x : Nat} (hx : x / 512 < 70) :
    dataOffset s i x false =
      (if slotVal s.toDisk i (leaf ⟨x / 512, hx⟩) = 0 then none
        else some (slotVal s.toDisk i (leaf ⟨x / 512, hx⟩) + (x % 512 : Nat)), s) := by
  have hdiv : ((x : Int) / 512).toNat = x / 512 := by omega
  have hmod : (x : Int) % 512 = ((x % 512 : Nat) : Int) := by omega
  rw [dataOffset, if_neg (by omega)]
  simp only [hdiv, hmod, if_neg (Nat.not_le.mpr hx)]
  -- a direct block, or an entry of the indirect block
  by_cases h6 : x / 512 < 6
  · have hleaf : leaf ⟨x / 512, hx⟩ = .direct ⟨x / 512, h6⟩ := by simp [leaf, h6]
    simp only [if_pos h6, hleaf, directBlock, slotVal, Bool.false_eq_true, and_false, if_false]
    split_ifs <;> rfl
  · have hleaf : leaf ⟨x / 512, hx⟩ = .entry ⟨x / 512 - 6, by omega⟩ := by simp [leaf, h6]
    have hind := @indirectBlock_false s i ⟨x / 512 - 6, by omega⟩
    simp only [if_neg h6, hleaf, hind]
    split_ifs <;> rfl

theorem dataOffset_of_ge {x : Nat} (hx : 70 ≤ x / 512) (alloc : Bool) :
    dataOffset s i x alloc = (none, { s with wfsError := -ENOSPC }) := by
  have hdiv : ((x : Int) / 512).toNat = x / 512 := by omega
  rw [dataOffset, if_neg (by omega)]
  simp only [hdiv, if_pos hx]

/-! ### Filling a slot -/

/-- What an attempt to have a block in slot `sl` of inode `i` may come to: the
offset of the block, `0` for failure, and the new file system. -/
inductive Ensured (s : Fs) (i : Nat) (sl : Slot) : Int × Fs → Prop
  | had (h : slotVal s.toDisk i sl ≠ 0) : Ensured s i sl (slotVal s.toDisk i sl, s)
  | got (k : Nat) (h : Assignable s i sl k) :
      Ensured s i sl (blockAddr s.toDisk k, assign s i sl k)
  | full (h : slotVal s.toDisk i sl = 0)
      (hfull : ∀ k < s.sb.numDataBlocks, bitmapTest k s.dbm = true) :
      Ensured s i sl (0, { s with wfsError := -ENOSPC })

theorem Ensured.confined (h : Ensured s i sl r) (ho : Owned s.toDisk) :
    Confined s.toDisk r.2.toDisk i := by
  cases h with
  | had => exact Confined.refl ho
  | got k ha => exact Confined.assign ho ha
  | full => exact Confined.refl ho

theorem Ensured.slots (h : Ensured s i sl r) (ho : Owned s.toDisk) (tl : Slot) :
    slotVal r.2.toDisk i tl = if tl = sl then r.1 else slotVal s.toDisk i tl := by
  cases h with
  | had =>
      by_cases htl : tl = sl
      · rw [if_pos htl, htl]
      · rw [if_neg htl]
  | got k ha => exact slotVal_assign ho ha tl
  | full h0 =>
      by_cases htl : tl = sl
      · rw [if_pos htl, htl]
        exact h0
      · rw [if_neg htl]

/-- New blocks are zeroed, so the file reads as before. -/
theorem Ensured.byteAt (h : Ensured s i sl r) (ho : Owned s.toDisk) (x : Nat) :
    byteAt r.2.toDisk i x = byteAt s.toDisk i x := by
  cases h with
  | had => rfl
  | full => rfl
  | got k ha =>
      have hk := ho.sbOk.blockAddr_ne_zero k
      rw [Wfs.byteAt, Wfs.byteAt]
      by_cases hx : x / 512 < 70
      · simp only [dif_pos hx, slotVal_assign ho ha]
        by_cases hsl : leaf ⟨x / 512, hx⟩ = sl
        · rw [if_pos hsl, if_neg hk, if_pos (by rw [hsl]; exact ha.empty)]
          exact assign_data_new ho ha (by omega) (by omega)
        · rw [if_neg hsl]
          split_ifs with h0
          · rfl
          · exact assign_data_old ho ha (leaf_ne_ind _) h0 (by omega) (by omega)
      · rw [dif_neg hx, dif_neg hx]

/-! ### Counting free blocks -/

/-- The number of data blocks that are not in use. -/
def freeBlocks (d : Disk) : Nat := countFree d.dbm d.sb.numDataBlocks

theorem countFree_insert {w : WordSet.Words} {n : Nat} (hk : k < n)
    (hfree : bitmapTest k w = false) : countFree (WordSet.insert w k) n + 1 = countFree w n := by
  have htest : ∀ l, bitmapTest l (WordSet.insert w k) = (decide (l = k) || bitmapTest l w) := by
    intro l
    rw [bitmapTest_eq, bitmapTest_eq, WordSet.test_insert]
  -- below `k` nothing has changed
  have hbelow : ∀ m ≤ k, countFree (WordSet.insert w k) m = countFree w m := by
    intro m hm
    apply List.countP_congr
    intro l hl
    rw [htest, decide_eq_false (by have := List.mem_range.mp hl; omega), Bool.false_or]
  induction n with
  | zero => omega
  | succ n ih =>
      simp only [countFree, List.range_succ, List.countP_append, List.countP_singleton] at ih ⊢
      rcases eq_or_ne k n with rfl | hkn
      · have hb := hbelow k (le_refl k)
        simp only [countFree] at hb
        rw [hb, htest, hfree]
        simp
      · have h := ih (by omega)
        rw [htest, decide_eq_false (fun e => hkn e.symm), Bool.false_or]
        omega

theorem countFree_eq_zero {w : WordSet.Words} {n : Nat}
    (hfull : ∀ l < n, bitmapTest l w = true) : countFree w n = 0 := by
  rw [countFree, List.countP_eq_zero]
  intro l hl
  simp [hfull l (List.mem_range.mp hl)]

theorem Ensured.count (h : Ensured s i sl r) (ho : Owned s.toDisk) :
    (r.1 ≠ 0 ∧ freeBlocks r.2.toDisk + (if slotVal s.toDisk i sl = 0 then 1 else 0)
        = freeBlocks s.toDisk) ∨
      (r.1 = 0 ∧ freeBlocks s.toDisk = 0 ∧ slotVal s.toDisk i sl = 0 ∧
        r.2 = { s with wfsError := -ENOSPC }) := by
  cases h with
  | had h0 => exact Or.inl ⟨h0, by rw [if_neg h0]; rfl⟩
  | got k ha =>
      refine Or.inl ⟨ho.sbOk.blockAddr_ne_zero k, ?_⟩
      have hdbm : (assign s i sl k).dbm = WordSet.insert s.dbm k := setSlot_dbm
      rw [if_pos ha.empty, freeBlocks, freeBlocks, hdbm, assign_sb]
      exact countFree_insert ha.lt ha.free
  | full h0 hfull => exact Or.inr ⟨rfl, countFree_eq_zero hfull, h0, rfl⟩

/-! ### `data_offset` with allocation -/

theorem directBlock_ensured (ho : Owned s.toDisk) (hi : Allocated s.toDisk i) (b : Fin 6) :
    Ensured s i (.direct b) (directBlock s i b true) := by
  rw [directBlock]
  by_cases h0 : (s.inodes i).blocks b = 0
  · rw [if_pos ⟨h0, rfl⟩]
    rcases allocateDataBlock_cases ho.sbOk with ⟨e, hfull⟩ | ⟨k, hk, hfree, e⟩
    · simp only [e, if_true]
      exact Ensured.full h0 hfull
    · have ha : Assignable s i (.direct b) k := ⟨hi, h0, by simp, hk, hfree⟩
      simp only [e, if_neg (ho.sbOk.blockAddr_ne_zero k)]
      have hv : ((assign s i (.direct b) k).inodes i).blocks b = blockAddr s.toDisk k :=
        (slotVal_assign ho ha (.direct b)).trans (if_pos rfl)
      have hg := Ensured.got k ha
      rw [← hv] at hg
      exact hg
  · rw [if_neg (by simp [h0])]
    exact Ensured.had h0

theorem indirectEntry_ensured (ho : Owned s.toDisk) (hi : Allocated s.toDisk i)
    (h7 : (s.inodes i).blocks 7 ≠ 0) (e : Fin 64) :
    Ensured s i (.entry e) (indirectEntry s ((s.inodes i).blocks 7) e true) := by
  have he := e.isLt
  have hval : slotVal s.toDisk i (.entry e) =
      loadInt s.data ((s.inodes i).blocks 7 + 8 * (e : Nat)) 8 := if_neg h7
  rw [indirectEntry, if_neg (Nat.not_le.mpr he), ← hval]
  by_cases h0 : slotVal s.toDisk i (.entry e) = 0
  · rw [if_pos ⟨h0, rfl⟩]
    rcases allocateDataBlock_cases ho.sbOk with ⟨e', hfull⟩ | ⟨k, hk, hfree, e'⟩
    · simp only [e', if_true]
      exact Ensured.full h0 hfull
    · have ha : Assignable s i (.entry e) k := ⟨hi, h0, fun _ _ => h7, hk, hfree⟩
      simp only [e', if_neg (ho.sbOk.blockAddr_ne_zero k), loadInt_storeInt_same,
        ho.sbOk.bmod_blockAddr hk]
      exact Ensured.got k ha
  · rw [if_neg (by simp [h0])]
    exact Ensured.had h0

/-- The indirect block is had first; then its entry. -/
theorem indirectBlock_ensured (ho : Owned s.toDisk) (hi : Allocated s.toDisk i) (e : Fin 64) :
    ∃ r, Ensured s i .ind r ∧
      ((r.1 = 0 ∧ indirectBlock s i e true = r) ∨
        (r.1 ≠ 0 ∧ Ensured r.2 i (.entry e) (indirectBlock s i e true))) := by
  rw [indirectBlock]
  by_cases h7 : (s.inodes i).blocks 7 = 0
  · simp only [h7, and_self, if_true]
    rcases allocateDataBlock_cases ho.sbOk with ⟨e', hfull⟩ | ⟨k, hk, hfree, e'⟩
    · refine ⟨_, Ensured.full h7 hfull, Or.inl ⟨rfl, ?_⟩⟩
      simp only [e', if_true]
    · have ha : Assignable s i .ind k := ⟨hi, h7, by simp, hk, hfree⟩
      have hne := ho.sbOk.blockAddr_ne_zero k
      refine ⟨_, Ensured.got k ha, Or.inr ⟨hne, ?_⟩⟩
      have hind : ((assign s i .ind k).inodes i).blocks 7 = blockAddr s.toDisk k :=
        (slotVal_assign ho ha .ind).trans (if_pos rfl)
      have hentry := indirectEntry_ensured (ho.assign ha) (allocated_assign.mpr hi)
        (by rw [hind]; exact hne) e
      rw [hind] at hentry
      simp only [e', if_neg hne, refill_takeBlock]
      exact hentry
  · refine ⟨_, Ensured.had h7, Or.inr ⟨h7, ?_⟩⟩
    simp only [h7, false_and, if_false]
    exact indirectEntry_ensured ho hi h7 e

/-- How many blocks have to be allocated to reach block `b` of inode `i`. -/
def cost (d : Disk) (i : Nat) (b : Fin 70) : Nat :=
  (if slotVal d i (leaf b) = 0 then 1 else 0) +
    if 6 ≤ b.val ∧ slotVal d i .ind = 0 then 1 else 0

/-- Block `b` of inode `i` has been reached: it is there, the file reads as
before, and the blocks that were missing have been taken from the free ones. -/
structure Reached (s t : Fs) (i : Nat) (b : Fin 70) : Prop where
  confined : Confined s.toDisk t.toDisk i
  bytes : ∀ y, byteAt t.toDisk i y = byteAt s.toDisk i y
  used : slotVal t.toDisk i (leaf b) ≠ 0
  slots : ∀ tl, slotVal t.toDisk i tl = 0 ↔
    slotVal s.toDisk i tl = 0 ∧ tl ≠ leaf b ∧ ¬ (tl = .ind ∧ 6 ≤ b.val)
  count : freeBlocks t.toDisk + cost s.toDisk i b = freeBlocks s.toDisk

/-- Block `b` of inode `i` could not be reached for lack of free blocks. -/
structure Starved (s t : Fs) (i : Nat) (b : Fin 70) : Prop where
  confined : Confined s.toDisk t.toDisk i
  bytes : ∀ y, byteAt t.toDisk i y = byteAt s.toDisk i y
  error : t.wfsError = -ENOSPC
  count : freeBlocks s.toDisk < cost s.toDisk i b

/-- Reaching a block hung on a direct slot. -/
theorem Ensured.reached_direct (h : Ensured s i sl r) (ho : Owned s.toDisk) {b : Fin 70}
    (hleaf : leaf b = sl) (hb : b.val < 6) :
    (r.1 ≠ 0 ∧ r.1 = slotVal r.2.toDisk i (leaf b) ∧ Reached s r.2 i b) ∨
      (r.1 = 0 ∧ Starved s r.2 i b) := by
  subst hleaf
  have hslot := h.slots ho
  have hcost : cost s.toDisk i b = if slotVal s.toDisk i (leaf b) = 0 then 1 else 0 := by
    rw [cost, if_neg (c := 6 ≤ b.val ∧ _) (by omega), Nat.add_zero]
  rcases h.count ho with ⟨hne, hcount⟩ | ⟨h0, hfree, hempty, hr⟩
  · have hv : slotVal r.2.toDisk i (leaf b) = r.1 := (hslot _).trans (if_pos rfl)
    refine Or.inl ⟨hne, hv.symm, h.confined ho, h.byteAt ho, by rw [hv]; exact hne, fun tl => ?_,
      by rw [hcost]; exact hcount⟩
    rw [hslot]
    by_cases htl : tl = leaf b
    · simp [htl, hne]
    · simp only [ne_eq, htl, not_false_eq_true, true_and]
      refine ⟨fun h' => ⟨h', by omega⟩, fun h' => h'.1⟩
  · refine Or.inr ⟨h0, h.confined ho, h.byteAt ho, by rw [hr], ?_⟩
    rw [hcost, if_pos hempty]
    omega

/-- Reaching a block hung on an entry of the indirect block. -/
theorem Ensured.reached_entry {r' : Int × Fs} {e : Fin 64} (h : Ensured s i .ind r)
    (h' : Ensured r.2 i (.entry e) r') (hne : r.1 ≠ 0) (ho : Owned s.toDisk) {b : Fin 70}
    (hleaf : leaf b = .entry e) (hb : 6 ≤ b.val) :
    (r'.1 ≠ 0 ∧ r'.1 = slotVal r'.2.toDisk i (leaf b) ∧ Reached s r'.2 i b) ∨
      (r'.1 = 0 ∧ Starved s r'.2 i b) := by
  have hc := h.confined ho
  have hc' := h'.confined hc.owned
  have hslot := h.slots ho
  have hslot' := h'.slots hc.owned
  have hentry : slotVal r.2.toDisk i (.entry e) = slotVal s.toDisk i (.entry e) :=
    (hslot _).trans (if_neg (by simp))
  have hbytes : ∀ y, Wfs.byteAt r'.2.toDisk i y = Wfs.byteAt s.toDisk i y := fun y =>
    (h'.byteAt hc.owned y).trans (h.byteAt ho y)
  have hcount : freeBlocks r.2.toDisk + (if slotVal s.toDisk i .ind = 0 then 1 else 0) =
      freeBlocks s.toDisk := by
    rcases h.count ho with ⟨-, hcount⟩ | ⟨h0, -⟩
    · exact hcount
    · exact absurd h0 hne
  have hcost : cost s.toDisk i b = (if slotVal s.toDisk i (.entry e) = 0 then 1 else 0) +
      if slotVal s.toDisk i .ind = 0 then 1 else 0 := by
    simp only [cost, hleaf, hb, true_and]
  -- the entry has its block now, or there was no free block for it
  rcases h'.count hc.owned with ⟨hne', hcount'⟩ | ⟨h0, hfree, hempty, hr⟩
  · have hv : slotVal r'.2.toDisk i (leaf b) = r'.1 := by rw [hleaf, hslot', if_pos rfl]
    refine Or.inl ⟨hne', hv.symm, hc.trans hc', hbytes, by rw [hv]; exact hne', fun tl => ?_, ?_⟩
    · rw [hslot', hslot, hleaf]
      by_cases htl : tl = .entry e
      · simp [htl, hne']
      · by_cases hind : tl = .ind
        · simp [hind, hne, hb]
        · simp [htl, hind]
    · rw [hentry] at hcount'
      omega
  · refine Or.inr ⟨h0, hc.trans hc', hbytes, by rw [hr], ?_⟩
    rw [hentry] at hempty
    rw [if_pos hempty] at hcost
    omega

/-- No free block for the indirect block itself. -/
theorem Ensured.starved_ind (h : Ensured s i .ind r) (h0 : r.1 = 0) (ho : Owned s.toDisk)
    {b : Fin 70} (hb : 6 ≤ b.val) : Starved s r.2 i b := by
  rcases h.count ho with ⟨hne, -⟩ | ⟨-, hfree, hempty, hr⟩
  · exact absurd h0 hne
  · refine ⟨h.confined ho, h.byteAt ho, by rw [hr], ?_⟩
    rw [cost, if_pos (c := 6 ≤ b.val ∧ _) ⟨hb, hempty⟩]
    omega

/-- With allocation `data_offset` reaches the block of an offset below the
largest file size, unless there are not enough free blocks. -/
theorem dataOffset_true (ho : Owned s.toDisk) (hi : Allocated s.toDisk i) {x : Nat}
    (hx : x / 512 < 70) :
    (∃ t, Reached s t i ⟨x / 512, hx⟩ ∧ dataOffset s i x true =
        (some (slotVal t.toDisk i (leaf ⟨x / 512, hx⟩) + (x % 512 : Nat)), t)) ∨
      ∃ t, Starved s t i ⟨x / 512, hx⟩ ∧ dataOffset s i x true = (none, t) := by
  have hdiv : ((x : Int) / 512).toNat = x / 512 := by omega
  have hmod : (x : Int) % 512 = ((x % 512 : Nat) : Int) := by omega
  rw [dataOffset, if_neg (by omega)]
  simp only [hdiv, hmod, if_neg (Nat.not_le.mpr hx)]
  -- what the two cases of the code have in common
  have hend : ∀ r : Int × Fs,
      ((r.1 ≠ 0 ∧ r.1 = slotVal r.2.toDisk i (leaf ⟨x / 512, hx⟩) ∧ Reached s r.2 i ⟨x / 512, hx⟩) ∨
        (r.1 = 0 ∧ Starved s r.2 i ⟨x / 512, hx⟩)) →
      (∃ t, Reached s t i ⟨x / 512, hx⟩ ∧
        (if r.1 = 0 then (none, r.2) else (some (r.1 + (x % 512 : Nat)), r.2)) =
          (some (slotVal t.toDisk i (leaf ⟨x / 512, hx⟩) + (x % 512 : Nat)), t)) ∨
      ∃ t, Starved s t i ⟨x / 512, hx⟩ ∧
        (if r.1 = 0 then (none, r.2) else (some (r.1 + (x % 512 : Nat)), r.2)) = (none, t) := by
    rintro r (⟨hne, hv, hr⟩ | ⟨h0, hs⟩)
    · exact Or.inl ⟨r.2, hr, by rw [if_neg hne, hv]⟩
    · exact Or.inr ⟨r.2, hs, by rw [if_pos h0]⟩
  by_cases h6 : x / 512 < 6
  · have hleaf : leaf ⟨x / 512, hx⟩ = .direct ⟨x / 512, h6⟩ := by simp [leaf, h6]
    simp only [if_pos h6]
    exact hend _ ((directBlock_ensured ho hi ⟨x / 512, h6⟩).reached_direct ho hleaf h6)
  · have hleaf : leaf ⟨x / 512, hx⟩ = .entry ⟨x / 512 - 6, by omega⟩ := by simp [leaf, h6]
    simp only [if_neg h6]
    apply hend
    obtain ⟨r, hr, ⟨h0, heq⟩ | ⟨hne, hr'⟩⟩ := indirectBlock_ensured ho hi ⟨x / 512 - 6, by omega⟩
    · have hst := hr.starved_ind h0 ho (b := ⟨x / 512, hx⟩) (by simpa using h6)
      rw [← heq] at h0 hst
      exact Or.inr ⟨h0, hst⟩
    · exact hr.reached_entry hr' hne ho hleaf (by simpa using h6)

/-- Whatever the offset, `data_offset` changes at most its own inode's blocks, and
an address it returns lies in one of them. -/
theorem dataOffset_confined (ho : Owned s.toDisk) (hi : Allocated s.toDisk i) (x : Int) :
    Confined s.toDisk (dataOffset s i x true).2.toDisk i ∧
      ∀ a, (dataOffset s i x true).1 = some a → ∃ sl, sl ≠ .ind ∧
        slotVal (dataOffset s i x true).2.toDisk i sl ≠ 0 ∧
        a = slotVal (dataOffset s i x true).2.toDisk i sl + x % 512 ∧ 0 ≤ x := by
  by_cases hneg : x < 0
  · rw [dataOffset, if_pos hneg]
    exact ⟨Confined.refl ho, fun a h => by cases h⟩
  · obtain ⟨n, rfl⟩ := Int.eq_ofNat_of_zero_le (not_lt.mp hneg)
    by_cases hn : n / 512 < 70
    · rcases dataOffset_true ho hi hn with ⟨t, hr, e⟩ | ⟨t, hs, e⟩
      · rw [e]
        refine ⟨hr.confined, fun a h => ?_⟩
        obtain rfl := Option.some.inj h
        exact ⟨_, leaf_ne_ind _, hr.used, by simp, by omega⟩
      · rw [e]
        exact ⟨hs.confined, fun a h => by cases h⟩
    · rw [dataOffset_of_ge (not_lt.mp hn)]
      exact ⟨Confined.refl ho, fun a h => by cases h⟩

/-! ### The loop of `wfs_write` -/

theorem chunkLen_le {x : Int} (hx : 0 ≤ x) (n : Nat) : (chunkLen x n : Int) ≤ 512 - x % 512 := by
  rw [chunkLen, Int.tmod_eq_emod_of_nonneg hx]
  omega

section writeLoop

variable {buf : List UInt8} {off : Int} {fuel done : Nat}

/-- The file system after one chunk has been copied to address `a`. -/
def putChunk (s : Fs) (a : Int) (buf : List UInt8) (done chunk : Nat) : Fs :=
  { s with data := store s.data a ((buf.drop done).take chunk) }

theorem writeLoop_stop (h : buf.length ≤ done) :
    writeLoop i buf off fuel done s = (some done, s) := by
  cases fuel with
  | zero => rfl
  | succ fuel => rw [writeLoop, if_neg (Nat.not_lt.mpr h)]

theorem writeLoop_fail (h : done < buf.length)
    (e : dataOffset s i (offT (off + done)) true = (none, t)) :
    writeLoop i buf off (fuel + 1) done s = (none, t) := by
  rw [writeLoop, if_pos h]
  simp only [e]

theorem writeLoop_step {a : Int} (h : done < buf.length)
    (e : dataOffset s i (offT (off + done)) true = (some a, t)) :
    writeLoop i buf off (fuel + 1) done s =
      writeLoop i buf off fuel (done + chunkLen (offT (off + done)) (buf.length - done))
        (putChunk t a buf done (chunkLen (offT (off + done)) (buf.length - done))) := by
  rw [writeLoop, if_pos h]
  simp only [e, putChunk]

/-- Copying a chunk that does not go past the end of a block. -/
theorem Confined.putChunk {chunk : Nat} {a : Int} (ho : Owned s.toDisk) (hi : Allocated s.toDisk i)
    (hsl : sl ≠ .ind) (hne : slotVal s.toDisk i sl ≠ 0) (h₁ : slotVal s.toDisk i sl ≤ a)
    (h₂ : a + chunk ≤ slotVal s.toDisk i sl + 512) :
    Confined s.toDisk (putChunk s a buf done chunk).toDisk i := by
  refine Confined.poke ho hi hsl hne fun y hy => store_of_disjoint ?_
  rw [List.length_take]
  omega

/-- One round of the loop stays inside the file. -/
theorem writeRound_confined (buf : List UInt8) {a : Int} (ho : Owned s.toDisk) (hi : Allocated s.toDisk i)
    (e : dataOffset s i (offT (off + done)) true = (some a, t)) :
    Confined s.toDisk (putChunk t a buf done
      (chunkLen (offT (off + done)) (buf.length - done))).toDisk i := by
  obtain ⟨hc, hptr⟩ := dataOffset_confined ho hi (offT (off + done))
  rw [e] at hc hptr
  dsimp only at hc hptr
  obtain ⟨sl, hsl, hne, ha, hx⟩ := hptr a rfl
  have hle := chunkLen_le hx (buf.length - done)
  have hmod := Int.emod_nonneg (offT (off + done)) (b := 512) (by decide)
  exact hc.trans (Confined.putChunk hc.owned (hc.allocated.mpr hi) hsl hne (by omega) (by omega))

/-- The run rule of the loop: a reflexive and transitive relation that `data_offset` and every
round keep holds between the start and the end of the loop. -/
theorem writeLoop_relates {R : Fs → Fs → Prop} (hrefl : ∀ s, Owned s.toDisk → R s s)
    (htrans : ∀ s s' s'', R s s' → R s' s'' → R s s'')
    (hoffset : ∀ s x, Owned s.toDisk → Allocated s.toDisk i → R s (dataOffset s i x true).2)
    (hround : ∀ s t a (done : Nat), Owned s.toDisk → Allocated s.toDisk i →
      dataOffset s i (offT (off + done)) true = (some a, t) →
      R s (putChunk t a buf done (chunkLen (offT (off + done)) (buf.length - done))))
    (ho : Owned s.toDisk) (hi : Allocated s.toDisk i) : R s (writeLoop i buf off fuel done s).2 := by
  induction fuel generalizing s done with
  | zero => exact hrefl s ho
  | succ fuel ih =>
      by_cases hlt : done < buf.length
      · rcases e : dataOffset s i (offT (off + done)) true with ⟨- | a, s₁⟩
        · have hstep := hoffset s (offT (off + done)) ho hi
          rw [e] at hstep
          rw [writeLoop_fail hlt e]
          exact hstep
        · have hc : Confined s.toDisk _ i := writeRound_confined buf ho hi e
          rw [writeLoop_step hlt e]
          exact htrans _ _ _ (hround _ _ _ _ ho hi e) (ih hc.owned (hc.allocated.mpr hi))
      · rw [writeLoop_stop (not_lt.mp hlt)]
        exact hrefl s ho

/-- A write, however it ends, stays inside the file. -/
theorem writeLoop_confined (ho : Owned s.toDisk) (hi : Allocated s.toDisk i) :
    Confined s.toDisk (writeLoop i buf off fuel done s).2.toDisk i := by
  apply writeLoop_relates (R := fun s t => Confined s.toDisk t.toDisk i) _ _ _ _ ho hi
  · exact fun _ ho => Confined.refl ho
  · exact fun _ _ _ h h' => h.trans h'
  · exact fun _ x ho hi => (dataOffset_confined ho hi x).1
  · exact fun _ _ _ _ ho hi e => writeRound_confined buf ho hi e

end writeLoop

end SystemsPortfolio.Wfs
