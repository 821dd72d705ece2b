/-
SystemsPortfolio/Wfs/Confined.lean

Changes that stay inside one inode.

`Confined d d' i` says that between two images only the block map of inode `i`
and the blocks it owns (or comes to own, or gives back) have changed.  The
loops of WFS that touch blocks are all of this kind: `wfs_unlink` and
`wfs_rmdir` give all blocks of an inode back (`freeBlocksOf_spec`), and
`data_offset` gives it new ones (`dataOffset_cases`).
-/
import SystemsPortfolio.Wfs.Operations
import SystemsPortfolio.Wfs.Ownership

namespace SystemsPortfolio.Wfs

open ByteStore

variable {d d' d'' : Disk} {s t : Fs} {i j k : Nat} {sl tl : Slot}

/-- Only the block map of inode `i` and the blocks behind it differ. -/
structure Confined (d d' : Disk) (i : Nat) : Prop where
  owned : Owned d'
  sb : d'.sb = d.sb
  ibm : d'.ibm = d.ibm
  others : ∀ j, j ≠ i → d'.inodes j = d.inodes j
  inode : d'.inodes i = { d.inodes i with blocks := (d'.inodes i).blocks }
  same : ∀ j, j ≠ i → Allocated d j → SameBlocks d d' j

theorem Confined.allocated (h : Confined d d' i) : Allocated d' j ↔ Allocated d j := by
  simp only [Allocated, h.sb, h.ibm]

theorem Confined.refl (ho : Owned d) : Confined d d i :=
  ⟨ho, rfl, rfl, fun _ _ => rfl, rfl, fun j _ _ => SameBlocks.refl d j⟩

theorem Confined.trans (h : Confined d d' i) (h' : Confined d' d'' i) : Confined d d'' i where
  owned := h'.owned
  sb := h'.sb.trans h.sb
  ibm := h'.ibm.trans h.ibm
  others j hj := (h'.others j hj).trans (h.others j hj)
  inode := by
    rw [h'.inode, h.inode]
  same j hj ha := (h.same j hj ha).trans (h'.same j hj (h.allocated.mpr ha))

/-- No field of an inode changes but its block map. -/
theorem Confined.field {α : Type*} (h : Confined d d' i) (f : Inode → α)
    (hf : ∀ ino bs, f { ino with blocks := bs } = f ino) (j : Nat) :
    f (d'.inodes j) = f (d.inodes j) := by
  rcases eq_or_ne j i with rfl | hj
  · rw [h.inode, hf]
  · rw [h.others j hj]

theorem Confined.assign (ho : Owned s.toDisk) (h : Assignable s i sl k) :
    Confined s.toDisk (assign s i sl k).toDisk i :=
  ⟨ho.assign h, assign_sb, assign_ibm, fun _ hj => assign_inodes_ne hj, assign_inode,
    fun _ hj ha => sameBlocks_assign ho h ha hj⟩

theorem Confined.unassign (ho : Owned s.toDisk) (h : Releasable s i sl) :
    Confined s.toDisk (unassign s i sl).toDisk i :=
  ⟨ho.unassign h, unassign_sb ho h, unassign_ibm ho h, fun _ hj => unassign_inodes_ne ho h hj,
    unassign_inode ho h, fun _ hj ha => sameBlocks_unassign ho h ha hj⟩

/-- A change of the bytes of one block behind a direct slot or an indirect
entry. -/
theorem Confined.poke {m : Store} (ho : Owned s.toDisk) (hi : Allocated s.toDisk i)
    (hsl : sl ≠ .ind) (hne : slotVal s.toDisk i sl ≠ 0)
    (hw : Within s.toDisk { s with data := m }.toDisk (slotVal s.toDisk i sl)) :
    Confined s.toDisk { s with data := m }.toDisk i :=
  ⟨ho.poke hi hsl hne hw, rfl, rfl, fun _ _ => rfl, rfl,
    fun _ hj ha => ho.sameBlocks_of_within hi ha hj hne hw rfl⟩

/-! ### Giving blocks back -/

/-- One round of the freeing loops of `wfs_unlink` and `wfs_rmdir`. -/
def clearSlot (s : Fs) (i : Nat) (sl : Slot) : Fs :=
  if slotVal s.toDisk i sl ≠ 0 then unassign s i sl else s

/-- The slots `sls` of inode `i` have been cleared between `s` and `t`. -/
structure Cleared (s t : Fs) (i : Nat) (sls : List Slot) : Prop where
  confined : Confined s.toDisk t.toDisk i
  slots : ∀ tl, slotVal t.toDisk i tl = if tl ∈ sls then 0 else slotVal s.toDisk i tl

theorem Cleared.nil (ho : Owned s.toDisk) : Cleared s s i [] :=
  ⟨Confined.refl ho, fun tl => by simp⟩

theorem Cleared.step {sls : List Slot} (h : Cleared s t i sls) (hi : Allocated s.toDisk i)
    (hlast : sl = .ind → ∀ e, slotVal t.toDisk i (.entry e) = 0) :
    Cleared s (clearSlot t i sl) i (sls ++ [sl]) := by
  rw [clearSlot]
  split_ifs with hne
  · have hr : Releasable t i sl := ⟨h.confined.allocated.mpr hi, hne, hlast⟩
    refine ⟨h.confined.trans (Confined.unassign h.confined.owned hr), fun tl => ?_⟩
    rw [slotVal_unassign h.confined.owned hr, h.slots]
    by_cases htl : tl = sl
    · simp [htl]
    · simp [htl]
  · refine ⟨h.confined, fun tl => ?_⟩
    rw [h.slots]
    rcases eq_or_ne tl sl with rfl | htl
    · have hz := h.slots tl
      rw [not_not.mp hne] at hz
      simp [← hz]
    · simp [htl]

/-- A loop over slots other than the indirect one. -/
theorem Cleared.foldl {sls : List Slot} (h : Cleared s t i sls) (hi : Allocated s.toDisk i)
    (l : List Slot) (hl : Slot.ind ∉ l) :
    Cleared s (l.foldl (fun s sl => clearSlot s i sl) t) i (sls ++ l) := by
  induction l generalizing t sls with
  | nil => simpa using h
  | cons sl l ih =>
      rw [List.mem_cons, not_or] at hl
      have hstep : Cleared s (clearSlot t i sl) i (sls ++ [sl]) :=
        h.step hi fun e => absurd e.symm hl.1
      have h' := ih hstep hl.2
      rwa [List.append_assoc, List.singleton_append] at h'

theorem freeDirect_eq : freeDirect s i =
    ((List.finRange 6).map Slot.direct).foldl (fun s sl => clearSlot s i sl) s := by
  rw [freeDirect, List.foldl_map, ← List.map_coe_finRange_eq_range, List.foldl_map]
  rfl

theorem freeBlock_inodes (v : Int) : (freeBlock s v).inodes = s.inodes := by
  rw [freeBlock]
  dsimp only
  split_ifs <;> rfl

/-- One round of the loop over the entries of the indirect block at `indOff`. -/
def clearEntryAt (indOff : Int) (s : Fs) (j : Nat) : Fs :=
  if loadInt s.data (indOff + 8 * (j : Int)) 8 ≠ 0 then
    let s' := freeBlock s (loadInt s.data (indOff + 8 * (j : Int)) 8)
    { s' with data := storeInt s'.data (indOff + 8 * (j : Int)) 8 0 }
  else s

theorem clearEntryAt_inodes (indOff : Int) (j : Nat) :
    (clearEntryAt indOff s j).inodes = s.inodes := by
  rw [clearEntryAt]
  split_ifs
  · exact freeBlock_inodes _
  · rfl

theorem clearEntryAt_eq {indOff : Int} (hind : (s.inodes i).blocks 7 = indOff) (hne : indOff ≠ 0)
    (e : Fin 64) : clearEntryAt indOff s e = clearSlot s i (.entry e) := by
  have hval : slotVal s.toDisk i (.entry e) = loadInt s.data (indOff + 8 * (e : Nat)) 8 := by
    simp only [slotVal, hind, if_neg hne]
  simp only [clearEntryAt, clearSlot, unassign, setSlot, hval, freeBlock_inodes, hind]

/-- While the entries are freed the indirect block stays where it is. -/
theorem foldl_clearEntryAt {indOff : Int} (hind : (s.inodes i).blocks 7 = indOff)
    (hne : indOff ≠ 0) (l : List (Fin 64)) :
    l.foldl (fun s (e : Fin 64) => clearEntryAt indOff s e) s =
      (l.map Slot.entry).foldl (fun s sl => clearSlot s i sl) s := by
  induction l generalizing s with
  | nil => rfl
  | cons e l ih =>
      rw [List.foldl_cons, List.map_cons, List.foldl_cons, ← clearEntryAt_eq hind hne]
      exact ih (by rw [clearEntryAt_inodes, hind])

theorem freeEntries_eq {indOff : Int} (hind : (s.inodes i).blocks 7 = indOff) (hne : indOff ≠ 0) :
    freeEntries s indOff =
      ((List.finRange 64).map Slot.entry).foldl (fun s sl => clearSlot s i sl) s := by
  rw [← foldl_clearEntryAt hind hne]
  show (List.range 64).foldl (clearEntryAt indOff) s = _
  rw [← List.map_coe_finRange_eq_range, List.foldl_map]

/-- The slots the two freeing loops go through. -/
def directSlots : List Slot := (List.finRange 6).map Slot.direct

/-- The entries of the indirect block. -/
def entrySlots : List Slot := (List.finRange 64).map Slot.entry

theorem mem_directSlots (k : Fin 6) : Slot.direct k ∈ directSlots :=
  List.mem_map_of_mem (List.mem_finRange k)

theorem mem_entrySlots (e : Fin 64) : Slot.entry e ∈ entrySlots :=
  List.mem_map_of_mem (List.mem_finRange e)

theorem ind_not_mem_directSlots : Slot.ind ∉ directSlots := by
  rintro h
  obtain ⟨k, -, hk⟩ := List.mem_map.mp h
  cases hk

theorem ind_not_mem_entrySlots : Slot.ind ∉ entrySlots := by
  rintro h
  obtain ⟨e, -, he⟩ := List.mem_map.mp h
  cases he

theorem unassign_ind :
    unassign s i .ind = (freeBlock s ((s.inodes i).blocks 7)).setBlock i 7 0 := rfl

theorem freeBlocksOf_of_ind (h7 : ((freeDirect s i).inodes i).blocks 7 ≠ 0) :
    freeBlocksOf s i =
      unassign (freeEntries (freeDirect s i) (((freeDirect s i).inodes i).blocks 7)) i .ind := by
  rw [unassign_ind]
  exact if_pos h7

theorem freeBlocksOf_of_no_ind (h7 : ((freeDirect s i).inodes i).blocks 7 = 0) :
    freeBlocksOf s i = freeDirect s i :=
  if_neg (not_not.mpr h7)

/-- What the freeing code leaves behind: an inode without blocks. -/
theorem freeBlocksOf_spec (ho : Owned s.toDisk) (hi : Allocated s.toDisk i) :
    Confined s.toDisk (freeBlocksOf s i).toDisk i ∧
      ∀ sl, slotVal (freeBlocksOf s i).toDisk i sl = 0 := by
  have h₁ := (Cleared.nil (i := i) ho).foldl hi directSlots ind_not_mem_directSlots
  rw [directSlots, ← freeDirect_eq, ← directSlots, List.nil_append] at h₁
  by_cases h7 : ((freeDirect s i).inodes i).blocks 7 = 0
  · rw [freeBlocksOf_of_no_ind h7]
    refine ⟨h₁.confined, fun sl => ?_⟩
    -- without an indirect block only the direct slots could be in use
    cases sl with
    | direct k => rw [h₁.slots, if_pos (mem_directSlots k)]
    | ind => exact h7
    | entry e => simp only [slotVal, h7, if_true]
  · rw [freeBlocksOf_of_ind h7]
    generalize freeDirect s i = s₁ at h₁ h7 ⊢
    have h₂ := h₁.foldl hi entrySlots ind_not_mem_entrySlots
    rw [entrySlots, ← freeEntries_eq rfl h7, ← entrySlots] at h₂
    generalize freeEntries s₁ ((s₁.inodes i).blocks 7) = s₂ at h₂ ⊢
    have hzero : ∀ e, slotVal s₂.toDisk i (.entry e) = 0 := fun e => by
      rw [h₂.slots, if_pos (List.mem_append_right _ (mem_entrySlots e))]
    have hind : slotVal s₂.toDisk i .ind ≠ 0 := by
      have hnot : Slot.ind ∉ directSlots ++ entrySlots := by
        rw [List.mem_append, not_or]
        exact ⟨ind_not_mem_directSlots, ind_not_mem_entrySlots⟩
      have h7' : slotVal s₁.toDisk i .ind ≠ 0 := h7
      rw [h₁.slots, if_neg ind_not_mem_directSlots] at h7'
      rwa [h₂.slots, if_neg hnot]
    have h₃ : Cleared s (clearSlot s₂ i .ind) i (directSlots ++ entrySlots ++ [.ind]) :=
      h₂.step hi fun _ => hzero
    rw [clearSlot, if_pos hind] at h₃
    refine ⟨h₃.confined, fun sl => (h₃.slots sl).trans (if_pos ?_)⟩
    cases sl with
    | direct k => exact List.mem_append_left _ (List.mem_append_left _ (mem_directSlots k))
    | ind => exact List.mem_append_right _ List.mem_cons_self
    | entry e => exact List.mem_append_left _ (List.mem_append_right _ (mem_entrySlots e))

end SystemsPortfolio.Wfs
