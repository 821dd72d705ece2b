/-
SystemsPortfolio/Wfs/TwoRuns.lean

The functions of WFS on two file systems in agreement.

None of them looks at a byte that may differ: names and entries are in directories,
pointers in inodes and indirect blocks, and both bitmaps are equal.  So each returns
the same value in both and leaves them in agreement.  The contents of a file in `H`
are copied to the caller by `wfs_read` only (`readLoop_agree`), and `wfs_write` may
put different bytes there (`writeLoop_agree`).
-/
import SystemsPortfolio.Wfs.Agreement
import SystemsPortfolio.Wfs.FileRuns

namespace SystemsPortfolio.Wfs

open ByteStore

variable {H : Nat → Prop} {s s' : Fs} {i p : Nat} {sl : Slot} {name : List UInt8} {now : Int}

theorem Agree.errorCode (h : Agree H s s') : errorCode s' = errorCode s := by
  rw [Wfs.errorCode, Wfs.errorCode, h.wfsError]

/-! ### Blocks -/

/-- Both runs have no block left, or are handed the same one. -/
theorem allocateDataBlock_agree (h : Agree H s s') (hok : s.sb.Ok) :
    (allocateDataBlock s = (0, { s with wfsError := -ENOSPC }) ∧
      allocateDataBlock s' = (0, { s' with wfsError := -ENOSPC })) ∨
    ∃ k < s.sb.numDataBlocks, bitmapTest k s.dbm = false ∧
      allocateDataBlock s = (blockAddr s.toDisk k, takeBlock s k) ∧
      allocateDataBlock s' = (blockAddr s'.toDisk k, takeBlock s' k) := by
  obtain ⟨m, -⟩ := h
  rcases allocateDataBlock_data hok with ⟨e, -⟩ | ⟨k, hk, hfree, e⟩
  · exact Or.inl ⟨e s.data, e m⟩
  · exact Or.inr ⟨k, hk, hfree, e s.data, e m⟩

theorem Agree.blockAddr (h : Agree H s s') (k : Nat) :
    blockAddr s'.toDisk k = blockAddr s.toDisk k := by
  rw [Wfs.blockAddr, Wfs.blockAddr, h.sb]

theorem growDir_agree (h : Agree H s s') (ho : Owned s.toDisk) (hp : Allocated s.toDisk p)
    (b : Fin 6) : Agrees H (growDir s p b) (growDir s' p b) := by
  rw [growDir, growDir, h.inodes]
  by_cases h0 : (s.inodes p).blocks b = 0
  · rw [if_pos h0, if_pos h0]
    rcases allocateDataBlock_agree h ho.sbOk with ⟨e, e'⟩ | ⟨k, hk, hfree, e, e'⟩
    · simp only [e, e', if_true]
      exact ⟨rfl, h.setError _⟩
    · have ha : Assignable s p (.direct b) k := ⟨hp, h0, by simp, hk, hfree⟩
      have hne := ho.sbOk.blockAddr_ne_zero k
      have hne' : blockAddr s'.toDisk k ≠ 0 := by
        rw [h.blockAddr]
        exact hne
      simp only [e, e', if_neg hne, if_neg hne', refill_takeBlock]
      exact ⟨rfl, h.assign ho ha⟩
  · rw [if_neg h0, if_neg h0]
    exact ⟨rfl, h⟩

theorem directBlock_agree (h : Agree H s s') (ho : Owned s.toDisk) (hi : Allocated s.toDisk i)
    (b : Fin 6) (alloc : Bool) : Agrees H (directBlock s i b alloc) (directBlock s' i b alloc) := by
  rw [directBlock, directBlock, h.inodes]
  by_cases h0 : (s.inodes i).blocks b = 0 ∧ alloc = true
  · rw [if_pos h0, if_pos h0]
    rcases allocateDataBlock_agree h ho.sbOk with ⟨e, e'⟩ | ⟨k, hk, hfree, e, e'⟩
    · simp only [e, e', if_true]
      exact ⟨rfl, h.setError _⟩
    · have ha : Assignable s i (.direct b) k := ⟨hi, h0.1, by simp, hk, hfree⟩
      have hne := ho.sbOk.blockAddr_ne_zero k
      have hne' : blockAddr s'.toDisk k ≠ 0 := by
        rw [h.blockAddr]
        exact hne
      have hassign := h.assign ho ha
      simp only [e, e', if_neg hne, if_neg hne']
      exact ⟨congrArg (fun f : Nat → Inode => (f i).blocks b) hassign.inodes, hassign⟩
  · rw [if_neg h0, if_neg h0]
    exact ⟨rfl, h⟩

/-- An entry of the indirect block that is or becomes filled. -/
theorem indirectEntry_agree (h : Agree H s s') (ho : Owned s.toDisk) (hi : Allocated s.toDisk i)
    (h7 : (s.inodes i).blocks 7 ≠ 0) (e : Fin 64) (alloc : Bool) :
    Agrees H (indirectEntry s ((s.inodes i).blocks 7) e alloc)
      (indirectEntry s' ((s.inodes i).blocks 7) e alloc) := by
  have he := e.isLt
  have hval : slotVal s.toDisk i (.entry e) =
      loadInt s.data ((s.inodes i).blocks 7 + 8 * (e : Nat)) 8 := if_neg h7
  have hval' : loadInt s'.data ((s.inodes i).blocks 7 + 8 * (e : Nat)) 8 =
      slotVal s.toDisk i (.entry e) := by
    rw [← h.slotVal hi (.entry e)]
    simp only [slotVal, h.inodes, if_neg h7]
  rw [indirectEntry, indirectEntry, if_neg (Nat.not_le.mpr he), if_neg (Nat.not_le.mpr he), hval',
    ← hval]
  by_cases h0 : slotVal s.toDisk i (.entry e) = 0 ∧ alloc = true
  · rw [if_pos h0, if_pos h0]
    rcases allocateDataBlock_agree h ho.sbOk with ⟨e₁, e₁'⟩ | ⟨k, hk, hfree, e₁, e₁'⟩
    · simp only [e₁, e₁', if_true]
      exact ⟨rfl, h.setError _⟩
    · have ha : Assignable s i (.entry e) k := ⟨hi, h0.1, fun _ _ => h7, hk, hfree⟩
      have hne := ho.sbOk.blockAddr_ne_zero k
      have hassign := h.assign ho ha
      simp only [e₁, e₁', h.blockAddr, if_neg hne, loadInt_storeInt_same]
      obtain ⟨m, -⟩ := h
      exact ⟨rfl, hassign⟩
  · rw [if_neg h0, if_neg h0]
    exact ⟨rfl, h⟩

theorem indirectBlock_agree (h : Agree H s s') (ho : Owned s.toDisk) (hi : Allocated s.toDisk i)
    (e : Fin 64) (alloc : Bool) :
    Agrees H (indirectBlock s i e alloc) (indirectBlock s' i e alloc) := by
  rw [indirectBlock, indirectBlock, h.inodes]
  dsimp only
  by_cases h7 : (s.inodes i).blocks 7 = 0
  · by_cases hal : alloc = true
    · -- the indirect block comes first
      have hc : (s.inodes i).blocks 7 = 0 ∧ alloc = true := ⟨h7, hal⟩
      rw [if_pos hc, if_pos hc]
      rcases allocateDataBlock_agree h ho.sbOk with ⟨e₁, e₁'⟩ | ⟨k, hk, hfree, e₁, e₁'⟩
      · simp only [e₁, e₁', if_true]
        exact ⟨rfl, h.setError _⟩
      · have ha : Assignable s i .ind k := ⟨hi, h7, by simp, hk, hfree⟩
        have hne := ho.sbOk.blockAddr_ne_zero k
        have hne' : blockAddr s'.toDisk k ≠ 0 := by
          rw [h.blockAddr]
          exact hne
        have hind : ((assign s i .ind k).inodes i).blocks 7 = blockAddr s.toDisk k :=
          (slotVal_assign ho ha .ind).trans (if_pos rfl)
        have hentry := indirectEntry_agree (h.assign ho ha) (ho.assign ha) (allocated_assign.mpr hi)
          (by rw [hind]; exact hne) e alloc
        rw [hind] at hentry
        simp only [e₁, e₁', if_neg hne, if_neg hne', refill_takeBlock]
        rw [h.blockAddr]
        obtain ⟨m, -⟩ := h
        exact hentry
    · simp only [h7, hal, if_true]
      exact ⟨rfl, h⟩
  · simp only [h7, false_and, if_false]
    exact indirectEntry_agree h ho hi h7 e alloc

/-- `data_offset` finds, or allocates, the same block. -/
theorem dataOffset_agree (h : Agree H s s') (ho : Owned s.toDisk) (hi : Allocated s.toDisk i)
    (x : Int) (alloc : Bool) : Agrees H (dataOffset s i x alloc) (dataOffset s' i x alloc) := by
  rw [dataOffset, dataOffset]
  by_cases hneg : x < 0
  · rw [if_pos hneg, if_pos hneg]
    exact ⟨rfl, h.setError _⟩
  rw [if_neg hneg, if_neg hneg]
  dsimp only
  by_cases hlarge : 70 ≤ (x / 512).toNat
  · rw [if_pos hlarge, if_pos hlarge]
    exact ⟨rfl, h.setError _⟩
  rw [if_neg hlarge, if_neg hlarge]
  -- what the two cases of the code have in common
  have hend : ∀ r r' : Int × Fs, Agrees H r r' →
      Agrees H (if r.1 = 0 then (none, r.2) else (some (r.1 + x % 512), r.2))
        (if r'.1 = 0 then (none, r'.2) else (some (r'.1 + x % 512), r'.2)) := by
    intro r r' hr
    rw [hr.val]
    split_ifs
    · exact ⟨rfl, hr.fs⟩
    · exact ⟨rfl, hr.fs⟩
  by_cases h6 : (x / 512).toNat < 6
  · simp only [if_pos h6]
    exact hend _ _ (directBlock_agree h ho hi ⟨_, h6⟩ alloc)
  · simp only [if_neg h6]
    exact hend _ _ (indirectBlock_agree h ho hi ⟨(x / 512).toNat - 6, by omega⟩ alloc)

/-! ### Freeing -/

theorem clearSlot_agree (h : Agree H s s') (ho : Owned s.toDisk) (hi : Allocated s.toDisk i)
    (hlast : sl = .ind → ∀ e, slotVal s.toDisk i (.entry e) = 0) :
    Agree H (clearSlot s i sl) (clearSlot s' i sl) := by
  rw [clearSlot, clearSlot, h.slotVal hi]
  split_ifs with hne
  · exact h.unassign ho ⟨hi, hne, hlast⟩
  · exact h

theorem foldl_clearSlot_agree (h : Agree H s s') (ho : Owned s.toDisk) (hi : Allocated s.toDisk i)
    (l : List Slot) (hl : Slot.ind ∉ l) :
    Agree H (l.foldl (fun s sl => clearSlot s i sl) s) (l.foldl (fun s sl => clearSlot s i sl) s') := by
  induction l generalizing s s' with
  | nil => exact h
  | cons sl l ih =>
      rw [List.mem_cons, not_or] at hl
      have hnot : sl = .ind → ∀ e, slotVal s.toDisk i (.entry e) = 0 := fun e => absurd e.symm hl.1
      have hc := ((Cleared.nil (i := i) ho).step hi hnot).confined
      exact ih (clearSlot_agree h ho hi hnot) hc.owned (hc.allocated.mpr hi) hl.2

theorem freeBlocksOf_agree (h : Agree H s s') (ho : Owned s.toDisk) (hi : Allocated s.toDisk i) :
    Agree H (freeBlocksOf s i) (freeBlocksOf s' i) := by
  have h₁ := foldl_clearSlot_agree h ho hi directSlots ind_not_mem_directSlots
  have hc₁ := ((Cleared.nil (i := i) ho).foldl hi directSlots ind_not_mem_directSlots).confined
  rw [directSlots, ← freeDirect_eq, ← freeDirect_eq] at h₁
  rw [directSlots, ← freeDirect_eq] at hc₁
  by_cases h7 : ((freeDirect s i).inodes i).blocks 7 = 0
  · rw [freeBlocksOf_of_no_ind h7, freeBlocksOf_of_no_ind (by rw [h₁.inodes]; exact h7)]
    exact h₁
  · rw [freeBlocksOf_of_ind h7, freeBlocksOf_of_ind (by rw [h₁.inodes]; exact h7), h₁.inodes]
    generalize freeDirect s i = t at h₁ hc₁ h7 ⊢
    generalize freeDirect s' i = t' at h₁ ⊢
    have hi₁ := hc₁.allocated.mpr hi
    have h₂ := foldl_clearSlot_agree h₁ hc₁.owned hi₁ entrySlots ind_not_mem_entrySlots
    have hc₂ := (Cleared.nil (i := i) hc₁.owned).foldl hi₁ entrySlots ind_not_mem_entrySlots
    rw [entrySlots, ← freeEntries_eq rfl h7, ← freeEntries_eq (by rw [h₁.inodes]) h7] at h₂
    rw [entrySlots, ← freeEntries_eq rfl h7, ← entrySlots, List.nil_append] at hc₂
    refine h₂.unassign hc₂.confined.owned ⟨hc₂.confined.allocated.mpr hi₁, ?_, fun _ e => ?_⟩
    · rw [hc₂.slots, if_neg ind_not_mem_entrySlots]
      exact h7
    · rw [hc₂.slots, if_pos (mem_entrySlots e)]

/-! ### Reading and writing -/

section contents

variable {off : Int} {fuel done : Nat} {buf buf' : List UInt8}

/-- A chunk of `buf` in one run, of `buf'` in the other. -/
theorem putChunk_agree {chunk : Nat} {a : Int} (h : Agree H s s') (ho : Owned s.toDisk)
    (hi : Allocated s.toDisk i) (hsl : sl ≠ .ind) (hne : slotVal s.toDisk i sl ≠ 0)
    (h₁ : slotVal s.toDisk i sl ≤ a) (h₂ : a + chunk ≤ slotVal s.toDisk i sl + 512)
    (hlen : buf'.length = buf.length) (hbuf : buf' = buf ∨ H i) :
    Agree H (putChunk s a buf done chunk) (putChunk s' a buf' done chunk) := by
  have hlen' : ((buf'.drop done).take chunk).length = ((buf.drop done).take chunk).length := by
    rw [List.length_take, List.length_take, List.length_drop, List.length_drop, hlen]
  have hle : ((buf.drop done).take chunk).length ≤ chunk := by
    rw [List.length_take]
    omega
  refine h.poke ho hi hsl hne (fun y hy => store_of_disjoint (by omega)) ?_
  rcases hbuf with rfl | hH
  · exact h.data.store a _
  · refine h.data.store_of_length hlen' fun x hx hx' => ?_
    exact closed_of_block ho hi hH hsl hne (by omega) (by omega)

/-- Two writes of the same length to the same place.  The bytes may differ if the
file is in `H`. -/
theorem writeLoop_agree (h : Agree H s s') (ho : Owned s.toDisk) (hi : Allocated s.toDisk i)
    (hlen : buf'.length = buf.length) (hbuf : buf' = buf ∨ H i) (off : Int) (fuel done : Nat) :
    Agrees H (writeLoop i buf off fuel done s) (writeLoop i buf' off fuel done s') := by
  induction fuel generalizing s s' done with
  | zero => exact ⟨rfl, h⟩
  | succ fuel ih =>
      by_cases hlt : done < buf.length
      · have hr := dataOffset_agree h ho hi (offT (off + done)) true
        obtain ⟨hc, hptr⟩ := dataOffset_confined ho hi (offT (off + done))
        have hlt' : done < buf'.length := by omega
        rcases e : dataOffset s i (offT (off + done)) true with ⟨- | a, t⟩
        · rcases e' : dataOffset s' i (offT (off + done)) true with ⟨ptr', t'⟩
          rw [e, e'] at hr
          obtain rfl : ptr' = none := hr.val
          rw [writeLoop_fail hlt e, writeLoop_fail hlt' e']
          exact ⟨rfl, hr.fs⟩
        · rcases e' : dataOffset s' i (offT (off + done)) true with ⟨ptr', t'⟩
          rw [e, e'] at hr
          obtain rfl : ptr' = some a := hr.val
          rw [e] at hc hptr
          dsimp only at hc hptr
          obtain ⟨sl, hsl, hne, ha, hx⟩ := hptr a rfl
          have hle := chunkLen_le hx (buf.length - done)
          have hmod := Int.emod_nonneg (offT (off + done)) (b := 512) (by decide)
          have hi₁ := hc.allocated.mpr hi
          rw [writeLoop_step hlt e, writeLoop_step hlt' e', hlen]
          have hput : Confined t.toDisk (putChunk t a buf done
              (chunkLen (offT (off + done)) (buf.length - done))).toDisk i :=
            Confined.putChunk hc.owned hi₁ hsl hne (by omega) (by omega)
          refine ih ?_ hput.owned (hput.allocated.mpr hi₁) _
          exact putChunk_agree hr.fs hc.owned hi₁ hsl hne (by omega) (by omega) hlen hbuf
      · rw [writeLoop_stop (not_lt.mp hlt), writeLoop_stop (by omega)]
        exact ⟨rfl, h⟩

/-- An address that `data_offset` finds without allocation. -/
theorem dataOffset_false_eq_some {x a : Int} (h : (dataOffset s i x false).1 = some a) :
    ∃ sl, sl ≠ .ind ∧ slotVal s.toDisk i sl ≠ 0 ∧ a = slotVal s.toDisk i sl + x % 512 ∧ 0 ≤ x := by
  by_cases hneg : x < 0
  · rw [dataOffset, if_pos hneg] at h
    cases h
  · obtain ⟨n, rfl⟩ := Int.eq_ofNat_of_zero_le (not_lt.mp hneg)
    by_cases hn : n / 512 < 70
    · rw [dataOffset_false hn] at h
      dsimp only at h
      split_ifs at h with h0
      exact ⟨_, leaf_ne_ind _, h0, by rw [← Option.some.inj h]; simp, by omega⟩
    · rw [dataOffset_of_ge (not_lt.mp hn)] at h
      cases h

/-- What one round of the loop of `wfs_read` copies. -/
def chunkBytes (m : Store) (ptr : Option Int) (chunk : Nat) : List UInt8 :=
  match ptr with
  | none => List.replicate chunk 0
  | some a => load m a chunk

theorem length_chunkBytes (m : Store) (ptr : Option Int) (chunk : Nat) :
    (chunkBytes m ptr chunk).length = chunk := by
  cases ptr with
  | none => exact List.length_replicate
  | some a => exact length_load m a chunk

theorem readLoop_stop {toRead : Nat} (h : toRead ≤ done) :
    readLoop i off toRead fuel done s = ([], s) := by
  cases fuel with
  | zero => rfl
  | succ fuel => rw [readLoop, if_neg (Nat.not_lt.mpr h)]

theorem readLoop_step {toRead : Nat} {ptr : Option Int} {t : Fs} (h : done < toRead)
    (e : dataOffset s i (offT (off + done)) false = (ptr, t)) :
    readLoop i off toRead (fuel + 1) done s =
      (chunkBytes t.data ptr (chunkLen (offT (off + done)) (toRead - done)) ++
        (readLoop i off toRead fuel (done + chunkLen (offT (off + done)) (toRead - done)) t).1,
       (readLoop i off toRead fuel (done + chunkLen (offT (off + done)) (toRead - done)) t).2) := by
  rw [readLoop, if_pos h]
  simp only [e]
  cases ptr <;> rfl

/-- Two reads deliver the same number of bytes, and the same bytes unless the file
is in `H`. -/
theorem readLoop_agree (h : Agree H s s') (ho : Owned s.toDisk) (hi : Allocated s.toDisk i)
    (off : Int) (toRead fuel done : Nat) :
    Agree H (readLoop i off toRead fuel done s).2 (readLoop i off toRead fuel done s').2 ∧
      (readLoop i off toRead fuel done s').1.length = (readLoop i off toRead fuel done s).1.length ∧
      (¬ H i → (readLoop i off toRead fuel done s').1 = (readLoop i off toRead fuel done s).1) := by
  induction fuel generalizing s s' done with
  | zero => exact ⟨h, rfl, fun _ => rfl⟩
  | succ fuel ih =>
      by_cases hlt : done < toRead
      · have hr := dataOffset_agree h ho hi (offT (off + done)) false
        have hdisk := dataOffset_false_toDisk (s := s) (i := i) (offT (off + done))
        rcases e : dataOffset s i (offT (off + done)) false with ⟨ptr, t⟩
        rcases e' : dataOffset s' i (offT (off + done)) false with ⟨ptr', t'⟩
        rw [e, e'] at hr
        rw [e] at hdisk
        dsimp only at hdisk
        obtain ⟨hptr, hfs⟩ := hr
        dsimp only at hptr hfs
        rw [readLoop_step hlt e, readLoop_step hlt e', hptr]
        have ho₁ : Owned t.toDisk := by rwa [hdisk]
        have hi₁ : Allocated t.toDisk i := by rwa [hdisk]
        generalize hc : chunkLen (offT (off + done)) (toRead - done) = c
        obtain ⟨hrest, hlen, hbytes⟩ := ih hfs ho₁ hi₁ (done + c)
        refine ⟨hrest, ?_, fun hH => ?_⟩
        · rw [List.length_append, List.length_append, length_chunkBytes, length_chunkBytes, hlen]
        · rw [hbytes hH]
          -- the chunk lies in one block of the file
          cases ptr with
          | none => rfl
          | some a =>
              obtain ⟨sl, -, hne, ha, hx⟩ := dataOffset_false_eq_some (congrArg Prod.fst e)
              have hle := chunkLen_le hx (toRead - done)
              have hmod := Int.emod_nonneg (offT (off + done)) (b := 512) (by decide)
              rw [← hdisk] at hne ha
              have hload : load t'.data a c = load t.data a c := load_congr fun j hj =>
                (hfs.sameBlocks hi₁ hH).data sl _ hne (by omega) (by omega)
              rw [chunkBytes, chunkBytes, hload]
      · rw [readLoop_stop (not_lt.mp hlt), readLoop_stop (not_lt.mp hlt)]
        exact ⟨h, rfl, fun _ => rfl⟩

end contents

/-! ### Directories -/

section directories

variable {idx : Nat} {num : Int}

theorem dentryToNum_agree (h : Agree H s s') (hp : Allocated s.toDisk p) (hH : ¬ H p)
    (name : List UInt8) : dentryToNum s' name p = dentryToNum s name p :=
  dentryToNum_frame (h.sameBlocks hp hH) (by rw [h.inodes])

theorem writeEntry_agree (h : Agree H s s') (ho : Owned s.toDisk) (hp : Allocated s.toDisk p)
    (hidx : idx < 96) (hb : (s.inodes p).blocks (idx / 16) ≠ 0) :
    Agree H (writeEntry s p idx num name now) (writeEntry s' p idx num name now) := by
  have hsl : Slot.direct ⟨idx / 16, by omega⟩ ≠ .ind := by simp
  have hk : Pokes s.toDisk (writeEntry s p idx num name now).toDisk p idx := pokes_writeEntry
  have hd : EqOff (Closed H s.toDisk) (writeEntry s p idx num name now).data
      (storeInt (store s'.data (entryAddr s.toDisk p idx) (nameField name))
        (entryAddr s.toDisk p idx + 28) 4 num) := (h.data.store _ _).storeInt _ _ _
  have hpoke := h.poke ho hp hsl hb hk.within hd
  obtain ⟨m, -⟩ := h
  exact hpoke.setInode rfl

/-- Clearing the first byte of a name that is empty already changes nothing. -/
theorem clear_first (m : Store) (a : Int) : (if m a ≠ 0 then store m a [0] else m) = store m a [0] := by
  split_ifs with h0
  · rfl
  · funext x
    by_cases hx : x = a
    · subst hx
      rw [not_not.mp h0]
      simp [store]
    · exact (store_of_disjoint (by simp; omega)).symm

theorem clearEntry_eq : clearEntry s p idx now = Fs.setInode
    { s with
      data := store (storeInt s.data (entryAddr s.toDisk p idx + 28) 4 0) (entryAddr s.toDisk p idx) [0] }
    p (wfsUpdateTimes (s.inodes p) now false true true) := by
  rw [clearEntry]
  simp only [clear_first]

theorem clearEntry_agree (h : Agree H s s') (ho : Owned s.toDisk) (hp : Allocated s.toDisk p)
    (hidx : idx < 96) (hb : (s.inodes p).blocks (idx / 16) ≠ 0) (now : Int) :
    Agree H (clearEntry s p idx now) (clearEntry s' p idx now) := by
  have hsl : Slot.direct ⟨idx / 16, by omega⟩ ≠ .ind := by simp
  have hk : Pokes s.toDisk (clearEntry s p idx now).toDisk p idx := pokes_clearEntry
  have hd := (h.data.storeInt (entryAddr s.toDisk p idx + 28) 4 0).store (entryAddr s.toDisk p idx) [0]
  rw [clearEntry_eq] at hk ⊢
  rw [clearEntry_eq]
  have hpoke := h.poke ho hp hsl hb hk.within hd
  obtain ⟨m, -⟩ := h
  exact hpoke.setInode rfl

/-- With room for the entry, the block of the entry is there. -/
theorem growDir_true {t : Fs} (ho : Owned s.toDisk) (hp : Allocated s.toDisk p) {b : Fin 6}
    (e : growDir s p b = (true, t)) :
    Confined s.toDisk t.toDisk p ∧ (t.inodes p).blocks b ≠ 0 := by
  rcases growDir_cases ho hp b with ⟨hne, e'⟩ | ⟨-, -, e'⟩ | ⟨k, ha, e'⟩
  · obtain ⟨-, rfl⟩ := Prod.mk.inj (e.symm.trans e')
    exact ⟨Confined.refl ho, hne⟩
  · cases e.symm.trans e'
  · obtain ⟨-, rfl⟩ := Prod.mk.inj (e.symm.trans e')
    exact ⟨Confined.assign ho ha, assign_block_ne_zero ho ha⟩

theorem addDentryLoop_agree (h : Agree H s s') (ho : Owned s.toDisk) (hp : Allocated s.toDisk p)
    (hH : ¬ H p) (l : List Nat) (hl : ∀ idx ∈ l, idx < 96) :
    Agrees H (addDentryLoop s p num name now l) (addDentryLoop s' p num name now l) := by
  induction l generalizing s s' with
  | nil => exact ⟨rfl, h⟩
  | cons idx l ih =>
      have hidx := hl idx List.mem_cons_self
      have hb : idx / 16 < 6 := by omega
      have hr := growDir_agree h ho hp ⟨idx / 16, hb⟩
      dsimp only at hr
      rcases e : growDir s p (idx / 16) with ⟨- | -, t⟩
      · rcases e' : growDir s' p (idx / 16) with ⟨b', t'⟩
        rw [e, e'] at hr
        obtain rfl : b' = false := hr.val
        rw [addDentryLoop_fail e, addDentryLoop_fail e']
        exact ⟨hr.fs.errorCode, hr.fs⟩
      · rcases e' : growDir s' p (idx / 16) with ⟨b', t'⟩
        rw [e, e'] at hr
        obtain rfl : b' = true := hr.val
        have hfs : Agree H t t' := hr.fs
        obtain ⟨hc, hne⟩ := growDir_true (b := ⟨idx / 16, hb⟩) ho hp e
        have hp₁ := hc.allocated.mpr hp
        have hentry := (hfs.sameBlocks hp₁ hH).sameEntry hidx
        have hfree : entryFree t'.toDisk p idx = entryFree t.toDisk p idx := by
          rw [entryFree, entryFree, hentry.num hne, hentry.first hne]
        rw [addDentryLoop_step e, addDentryLoop_step e', hfree]
        split_ifs
        · exact ⟨rfl, writeEntry_agree hfs hc.owned hp₁ hidx hne⟩
        · exact ih hfs hc.owned hp₁ fun x hx => hl x (List.mem_cons_of_mem _ hx)

theorem addDentry_agree (h : Agree H s s') (ho : Owned s.toDisk) (hp : Allocated s.toDisk p)
    (hH : ¬ H p) (num : Int) (name : List UInt8) (now : Int) :
    Agrees H (addDentry s p num name now) (addDentry s' p num name now) := by
  rw [addDentry, addDentry, h.inodes, dentryToNum_agree h hp hH]
  dsimp only
  split_ifs
  · exact ⟨rfl, h⟩
  · exact ⟨rfl, h⟩
  · exact ⟨rfl, h⟩
  · exact addDentryLoop_agree h ho hp hH _ fun _ hx => List.mem_range.mp hx

end directories

end SystemsPortfolio.Wfs
