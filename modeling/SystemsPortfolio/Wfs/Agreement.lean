/-
SystemsPortfolio/Wfs/Agreement.lean

Two file systems side by side.

`Agree H s s'` says that the two differ at most in bytes that nobody reads but the
readers of the files in `H`: everything but the data is equal, and so are all bytes
of all blocks in use except those that a file in `H` keeps its contents in.  The
blocks that are free may hold anything, because `allocate_data_block` zeroes what it
hands out.

Each way in which WFS changes who owns what keeps two file systems in agreement when
it is done to both (`Agree.assign`, `Agree.unassign`, `Agree.newInode`,
`Agree.freeInode`), and so does writing the same bytes to both, or different ones
into a file in `H` (`Agree.poke`, `closed_of_block`).
-/
import SystemsPortfolio.Wfs.Confined

namespace SystemsPortfolio.Wfs

open ByteStore

variable {H K : Nat → Prop} {d d' : Disk} {s s' t : Fs} {i j k : Nat} {sl : Slot} {x : Int}

/-! ### Bytes that may differ -/

/-- The byte at `x` belongs to no block but those that inodes in `H` keep their
contents in. -/
def Closed (H : Nat → Prop) (d : Disk) (x : Int) : Prop :=
  ∀ j sl, Allocated d j → slotVal d j sl ≠ 0 → slotVal d j sl ≤ x → x < slotVal d j sl + 512 →
    H j ∧ sl ≠ .ind

/-- A byte stays closed when no slot is filled. -/
theorem Closed.of_slots (hx : Closed H d x)
    (hslots : ∀ j sl, Allocated d' j → slotVal d' j sl ≠ 0 →
      Allocated d j ∧ slotVal d' j sl = slotVal d j sl) : Closed H d' x := by
  intro j sl hj hne h₁ h₂
  obtain ⟨hj', hv⟩ := hslots j sl hj hne
  rw [hv] at hne h₁ h₂
  exact hx j sl hj' hne h₁ h₂

/-- The contents of a file in `H` are closed. -/
theorem closed_of_block (ho : Owned d) (hi : Allocated d i) (hH : H i) (hsl : sl ≠ .ind)
    (hne : slotVal d i sl ≠ 0) (h₁ : slotVal d i sl ≤ x) (h₂ : x < slotVal d i sl + 512) :
    Closed H d x := by
  intro j tl hj hne' h₁' h₂'
  by_cases he : (i, sl) = (j, tl)
  · obtain ⟨rfl, rfl⟩ := Prod.mk.inj he
    exact ⟨hH, hsl⟩
  · have hdis := ho.disjoint hi hj he hne hne'
    omega

/-! ### Agreement -/

/-- The file systems differ only in closed bytes. -/
inductive Agree (H : Nat → Prop) (s : Fs) : Fs → Prop
  | mk (m : Store) (hm : EqOff (Closed H s.toDisk) s.data m) : Agree H s { s with data := m }

/-- So do the ones left behind, and the values returned are the same. -/
structure Agrees {α : Type*} (H : Nat → Prop) (r r' : α × Fs) : Prop where
  val : r'.1 = r.1
  fs : Agree H r.2 r'.2

theorem Agree.refl (s : Fs) : Agree H s s := .mk s.data fun _ _ => rfl

theorem Agree.sb (h : Agree H s s') : s'.sb = s.sb := by cases h; rfl

theorem Agree.ibm (h : Agree H s s') : s'.ibm = s.ibm := by cases h; rfl

theorem Agree.dbm (h : Agree H s s') : s'.dbm = s.dbm := by cases h; rfl

theorem Agree.inodes (h : Agree H s s') : s'.inodes = s.inodes := by cases h; rfl

theorem Agree.wfsError (h : Agree H s s') : s'.wfsError = s.wfsError := by cases h; rfl

theorem Agree.data (h : Agree H s s') : EqOff (Closed H s.toDisk) s.data s'.data := by
  cases h with
  | mk m hm => exact hm

/-- The indirect blocks agree, and hence the pointers. -/
theorem Agree.slotVal (h : Agree H s s') (hj : Allocated s.toDisk j) (sl : Slot) :
    slotVal s'.toDisk j sl = slotVal s.toDisk j sl := by
  refine slotVal_congr (by rw [h.inodes]) (fun h7 x h₁ h₂ => h.data x fun hx => ?_) sl
  exact (hx j .ind hj h7 h₁ h₂).2 rfl

/-- An inode that is not in `H` has the same blocks with the same bytes. -/
theorem Agree.sameBlocks (h : Agree H s s') (hj : Allocated s.toDisk j) (hH : ¬ H j) :
    SameBlocks s.toDisk s'.toDisk j := by
  refine ⟨by rw [h.inodes], fun sl x hne h₁ h₂ => h.data x fun hx => ?_⟩
  exact hH (hx j sl hj hne h₁ h₂).1

/-- Agreement outside `H` is agreement outside any larger set of files. -/
theorem Agree.mono (h : Agree H s s')
    (hHK : ∀ j sl, Allocated s.toDisk j → Wfs.slotVal s.toDisk j sl ≠ 0 → H j → K j) : Agree K s s' := by
  obtain ⟨m, hm⟩ := h
  refine .mk m (hm.mono fun x hx j sl hj hne h₁ h₂ => ?_)
  obtain ⟨hH, hsl⟩ := hx j sl hj hne h₁ h₂
  exact ⟨hHK j sl hj hne hH, hsl⟩

theorem Agree.setError (h : Agree H s s') (v : Int) :
    Agree H { s with wfsError := v } { s' with wfsError := v } := by
  obtain ⟨m, hm⟩ := h
  exact .mk m hm

/-! ### Inodes -/

section inodes

variable {ino : Inode}

theorem Agree.setInode (h : Agree H s s') (hb : ino.blocks = (s.inodes i).blocks) :
    Agree H (s.setInode i ino) (s'.setInode i ino) := by
  obtain ⟨m, hm⟩ := h
  refine .mk m (hm.mono fun x hx => hx.of_slots fun j tl hj _ => ⟨hj, ?_⟩)
  exact (sameBlocks_setInode hb j).slotVal tl

theorem Agree.newInode (h : Agree H s s') (hi : i < s.sb.numInodes) (ino : Inode)
    (hb : ino.blocks = fun _ => 0) : Agree H (newInode s i ino) (newInode s' i ino) := by
  obtain ⟨m, hm⟩ := h
  refine .mk m (hm.mono fun x hx => hx.of_slots fun j tl hj hne => ?_)
  rcases eq_or_ne j i with rfl | hji
  · exact absurd (slotVal_newInode hb tl) hne
  · refine ⟨((allocated_newInode hi).mp hj).resolve_left hji, ?_⟩
    exact (sameBlocks_newInode hji).slotVal tl

theorem Agree.freeInode (h : Agree H s s') (i : Nat) :
    Agree H (freeInode s i) (freeInode s' i) := by
  obtain ⟨m, hm⟩ := h
  refine .mk m (hm.mono fun x hx => hx.of_slots fun j tl hj hne => ?_)
  rcases eq_or_ne j i with rfl | hji
  · -- the slot is zeroed
    refine absurd ?_ hne
    cases tl <;> simp [Wfs.slotVal, Wfs.freeInode, Inode.zero]
  · have hino : (Wfs.freeInode s i).inodes j = s.inodes j := Fs.setInode_ne hji
    refine ⟨⟨hj.1, ?_⟩, slotVal_congr (congrArg Inode.blocks hino) (fun _ _ _ _ => rfl) tl⟩
    have htest := hj.2
    rw [Wfs.freeInode, Fs.setInode_ibm, bitmapTest_eq, freeBitmap_eq, WordSet.test_erase,
      Bool.and_eq_true, ← bitmapTest_eq] at htest
    exact htest.2

end inodes

/-! ### Blocks -/

/-- The same free block is given to the same slot.  It is zeroed in both. -/
theorem Agree.assign (h : Agree H s s') (ho : Owned s.toDisk) (ha : Assignable s i sl k) :
    Agree H (assign s i sl k) (assign s' i sl k) := by
  obtain ⟨m, hm⟩ := h
  have hnew : ∀ x, Closed H s.toDisk x ∧ (x < blockAddr s.toDisk k ∨ blockAddr s.toDisk k + 512 ≤ x) →
      Closed H (Wfs.assign s i sl k).toDisk x := by
    rintro x ⟨hx, hout⟩ j tl hj hne h₁ h₂
    rw [allocated_assign] at hj
    rcases eq_or_ne j i with rfl | hji
    · rw [slotVal_assign ho ha] at hne h₁ h₂
      split_ifs at hne h₁ h₂
      · omega
      · exact hx j tl hj hne h₁ h₂
    · rw [(sameBlocks_assign ho ha hj hji).slotVal] at hne h₁ h₂
      exact hx j tl hj hne h₁ h₂
  have hfill := hm.fill_inside (blockAddr s.toDisk k) 512 0
  cases sl with
  | direct b => exact .mk _ (hfill.mono hnew)
  | ind => exact .mk _ (hfill.mono hnew)
  | entry e => exact .mk _ ((hfill.storeInt _ _ _).mono hnew)

/-- The same slot is cleared and its block freed. -/
theorem Agree.unassign (h : Agree H s s') (ho : Owned s.toDisk) (hr : Releasable s i sl) :
    Agree H (unassign s i sl) (unassign s' i sl) := by
  have hslots := slotVal_unassign ho hr
  have hsame : ∀ j, Allocated s.toDisk j → j ≠ i → SameBlocks s.toDisk (Wfs.unassign s i sl).toDisk j :=
    fun j hj hji => sameBlocks_unassign ho hr hj hji
  have halloc : ∀ j, Allocated (Wfs.unassign s i sl).toDisk j ↔ Allocated s.toDisk j := fun j => by
    simp only [Allocated, unassign_sb ho hr, unassign_ibm ho hr]
  have hold : ∀ x, Closed H s.toDisk x → Closed H (Wfs.unassign s i sl).toDisk x := by
    refine fun x hx => hx.of_slots fun j tl hj hne => ⟨(halloc j).mp hj, ?_⟩
    rcases eq_or_ne j i with rfl | hji
    · rw [hslots] at hne ⊢
      split_ifs at hne ⊢
      · exact absurd rfl hne
      · rfl
    · exact (hsame j ((halloc j).mp hj) hji).slotVal tl
  obtain ⟨k, hk, hv, -, heq⟩ := unassign_eq ho hr
  have heq' : Wfs.unassign s' i sl = setSlot (dropBlock s' k) i sl 0 := by
    have hsb := h.sb
    have haddr : blockAddr s.toDisk k = blockAddr s'.toDisk k := by rw [blockAddr, blockAddr, hsb]
    rw [Wfs.unassign, h.slotVal hr.alloc, hv, haddr, freeBlock_eq]
    · rw [hsb]
      exact ho.sbOk
    · rw [hsb]
      exact hk
  rw [heq] at hold ⊢
  rw [heq']
  obtain ⟨m, hm⟩ := h
  have hfill := hm.fill (blockAddr s.toDisk k) 512 0
  cases sl with
  | direct b => exact .mk _ (hfill.mono hold)
  | ind => exact .mk _ (hfill.mono hold)
  | entry e => exact .mk _ ((hfill.storeInt _ _ _).mono hold)

/-- Bytes are written into a block behind a direct slot or an indirect entry. -/
theorem Agree.poke {m m' : Store} (h : Agree H s s') (ho : Owned s.toDisk) (hi : Allocated s.toDisk i)
    (hsl : sl ≠ .ind) (hne : Wfs.slotVal s.toDisk i sl ≠ 0)
    (hw : Within s.toDisk { s with data := m }.toDisk (Wfs.slotVal s.toDisk i sl))
    (hm : EqOff (Closed H s.toDisk) m m') :
    Agree H { s with data := m } { s' with data := m' } := by
  cases h
  refine .mk _ (hm.mono fun x hx => hx.of_slots fun j tl hj _ => ⟨hj, ?_⟩)
  exact ho.slotVal_poke hi hsl hne hw hj tl

end SystemsPortfolio.Wfs
