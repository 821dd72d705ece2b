/-
SystemsPortfolio/Wfs/Entries.lean

The live entries of a directory.

`liveEntry d p idx` is the name and the inode number held by entry `idx` of
inode `p`, if the entry is in use.  The raw bytes behind it are looked at only
here: the rest of the development knows that an untouched directory keeps its
live entries (`liveEntry_frame`), that `writeEntry` puts one entry there, and
that `clearEntry` takes one away.
-/
import SystemsPortfolio.Wfs.Directory
import SystemsPortfolio.Wfs.Ownership

namespace SystemsPortfolio.Wfs

open ByteStore

variable {d d' : Disk} {s : Fs} {p idx idx' : Nat}

/-- The name and the inode number of an entry in use. -/
def liveEntry (d : Disk) (p idx : Nat) : Option (List UInt8 × Int) :=
  if hasEntry d p idx && !entryFree d p idx then
    some ((entryName d p idx).takeWhile (· ≠ 0), entryNum d p idx)
  else none

/-! ### What an entry depends on -/

/-- Two images agree on entry `idx` of inode `p`: on the pointer to its block
and, if there is one, on the 32 bytes of the entry. -/
structure SameEntry (d d' : Disk) (p idx : Nat) : Prop where
  block : (d'.inodes p).blocks (idx / 16) = (d.inodes p).blocks (idx / 16)
  data : (d.inodes p).blocks (idx / 16) ≠ 0 → ∀ x, entryAddr d p idx ≤ x →
    x < entryAddr d p idx + 32 → d'.data x = d.data x

theorem SameEntry.addr (h : SameEntry d d' p idx) : entryAddr d' p idx = entryAddr d p idx := by
  rw [entryAddr, entryAddr, h.block]

theorem SameEntry.hasEntry (h : SameEntry d d' p idx) : hasEntry d' p idx = hasEntry d p idx := by
  rw [Wfs.hasEntry, Wfs.hasEntry, h.block]

theorem SameEntry.num (h : SameEntry d d' p idx) (hb : (d.inodes p).blocks (idx / 16) ≠ 0) :
    entryNum d' p idx = entryNum d p idx := by
  rw [entryNum, entryNum, h.addr]
  exact loadInt_congr fun j hj => h.data hb _ (by omega) (by omega)

theorem SameEntry.name (h : SameEntry d d' p idx) (hb : (d.inodes p).blocks (idx / 16) ≠ 0) :
    entryName d' p idx = entryName d p idx := by
  rw [entryName, entryName, h.addr]
  exact load_congr fun j hj => h.data hb _ (by omega) (by omega)

theorem SameEntry.first (h : SameEntry d d' p idx) (hb : (d.inodes p).blocks (idx / 16) ≠ 0) :
    d'.data (entryAddr d' p idx) = d.data (entryAddr d p idx) := by
  rw [h.addr]
  exact h.data hb _ (by omega) (by omega)

theorem SameEntry.liveEntry (h : SameEntry d d' p idx) :
    liveEntry d' p idx = liveEntry d p idx := by
  rw [Wfs.liveEntry, Wfs.liveEntry, h.hasEntry]
  by_cases hb : (d.inodes p).blocks (idx / 16) = 0
  · simp [Wfs.hasEntry, hb]
  · rw [entryFree, entryFree, h.num hb, h.name hb, h.first hb]

theorem SameBlocks.sameEntry (h : SameBlocks d d' p) (hidx : idx < 96) :
    SameEntry d d' p idx := by
  refine ⟨by rw [h.blocks], fun hb x h₁ h₂ => ?_⟩
  have hk : idx / 16 < 6 := by omega
  have haddr : entryAddr d p idx = (d.inodes p).blocks (idx / 16) + (idx % 16 : Nat) * 32 := rfl
  exact h.data (.direct ⟨idx / 16, hk⟩) x hb (by simp only [Wfs.slotVal]; omega)
    (by simp only [Wfs.slotVal]; omega)

/-- An untouched directory keeps its live entries. -/
theorem liveEntry_frame (h : SameBlocks d d' p) (hidx : idx < 96) :
    liveEntry d' p idx = liveEntry d p idx := (h.sameEntry hidx).liveEntry

theorem liveEntry_eq_some {name : List UInt8} {num : Int}
    (h : liveEntry d p idx = some (name, num)) :
    (d.inodes p).blocks (idx / 16) ≠ 0 ∧ entryNum d p idx = num ∧ num ≠ 0 ∧
      d.data (entryAddr d p idx) ≠ 0 ∧ (entryName d p idx).takeWhile (· ≠ 0) = name := by
  rw [liveEntry] at h
  split_ifs at h with hc
  obtain ⟨rfl, rfl⟩ := Prod.mk.inj (Option.some.inj h)
  simp only [hasEntry, entryFree, Bool.and_eq_true, decide_eq_true_eq, Bool.not_eq_true',
    decide_eq_false_iff_not, not_or] at hc
  exact ⟨hc.1, rfl, hc.2.1, hc.2.2, rfl⟩

theorem liveEntry_of_block_eq_zero (h : (d.inodes p).blocks (idx / 16) = 0) :
    liveEntry d p idx = none := by
  simp [liveEntry, hasEntry, h]

theorem liveEntry_isSome_iff :
    (liveEntry d p idx).isSome = (hasEntry d p idx && !entryFree d p idx) := by
  rw [liveEntry]
  cases hasEntry d p idx && !entryFree d p idx <;> rfl

/-- Two entries of one directory do not overlap: they lie in different places of
one block, or in different blocks. -/
theorem Owned.entries_disjoint (ho : Owned d) (hp : Allocated d p) (hidx : idx < 96)
    (hidx' : idx' < 96) (hne : idx' ≠ idx) (hb : (d.inodes p).blocks (idx / 16) ≠ 0)
    (hb' : (d.inodes p).blocks (idx' / 16) ≠ 0) :
    entryAddr d p idx' + 32 ≤ entryAddr d p idx ∨ entryAddr d p idx + 32 ≤ entryAddr d p idx' := by
  rw [entryAddr, entryAddr]
  by_cases hblk : idx' / 16 = idx / 16
  · rw [hblk]
    omega
  · have hk : idx / 16 < 6 := by omega
    have hk' : idx' / 16 < 6 := by omega
    have hdis := @Owned.disjoint d p p (.direct ⟨idx / 16, hk⟩) (.direct ⟨idx' / 16, hk'⟩) ho hp hp
      (fun e => hblk (by simpa using (Prod.mk.inj e).2.symm)) hb hb'
    simp only [slotVal] at hdis
    omega

/-- A change inside one entry leaves the other entries of the directory alone. -/
theorem Owned.sameEntry_of_ne (ho : Owned d) (hp : Allocated d p) (hidx : idx < 96)
    (hidx' : idx' < 96) (hne : idx' ≠ idx) (hb : (d.inodes p).blocks (idx / 16) ≠ 0)
    (hdata : ∀ x, x < entryAddr d p idx ∨ entryAddr d p idx + 32 ≤ x → d'.data x = d.data x)
    (hblocks : (d'.inodes p).blocks = (d.inodes p).blocks) : SameEntry d d' p idx' := by
  refine ⟨by rw [hblocks], fun hb' x h₁ h₂ => hdata x ?_⟩
  have := ho.entries_disjoint hp hidx hidx' hne hb hb'
  omega

/-- An entry with a number has a NUL-terminated, non-empty name. -/
def EntryOk (d : Disk) (p idx : Nat) : Prop :=
  (d.inodes p).blocks (idx / 16) ≠ 0 → entryNum d p idx ≠ 0 →
    0 ≤ entryNum d p idx ∧ d.data (entryAddr d p idx) ≠ 0 ∧ 0 ∈ entryName d p idx

theorem SameEntry.entryOk (h : SameEntry d d' p idx) (hok : EntryOk d p idx) :
    EntryOk d' p idx := by
  intro hb
  rw [h.block] at hb
  rw [h.num hb, h.first hb, h.name hb]
  exact hok hb

theorem entryOk_of_num_eq_zero (h : entryNum d p idx = 0) : EntryOk d p idx :=
  fun _ hne => absurd h hne

/-! ### A new directory block -/

section assign

variable {b : Fin 6} {k : Nat}

theorem assign_block_ne_zero (ho : Owned s.toDisk) (h : Assignable s p (.direct b) k) :
    ((assign s p (.direct b) k).inodes p).blocks b ≠ 0 := by
  have hv : ((assign s p (.direct b) k).inodes p).blocks b = blockAddr s.toDisk k :=
    (slotVal_assign ho h (.direct b)).trans (if_pos rfl)
  rw [hv]
  exact ho.sbOk.blockAddr_ne_zero k

theorem entryNum_assign (ho : Owned s.toDisk) (h : Assignable s p (.direct b) k)
    (hb : idx / 16 = b) : entryNum (assign s p (.direct b) k).toDisk p idx = 0 := by
  have hblock : ((assign s p (.direct b) k).inodes p).blocks (idx / 16) = blockAddr s.toDisk k := by
    rw [hb]
    exact (slotVal_assign ho h (.direct b)).trans (if_pos rfl)
  rw [entryNum, entryAddr, hblock]
  apply loadInt_eq_zero
  intro j hj
  exact assign_data_new ho h (by omega) (by omega)

theorem sameEntry_assign (ho : Owned s.toDisk) (h : Assignable s p (.direct b) k) (hidx : idx < 96)
    (hb : idx / 16 ≠ b) : SameEntry s.toDisk (assign s p (.direct b) k).toDisk p idx := by
  have hk : idx / 16 < 6 := by omega
  have hne : Slot.direct ⟨idx / 16, hk⟩ ≠ .direct b := by
    intro e
    cases e
    exact hb rfl
  refine ⟨(slotVal_assign ho h (.direct ⟨idx / 16, hk⟩)).trans (if_neg hne), fun h0 x h₁ h₂ => ?_⟩
  have haddr : entryAddr s.toDisk p idx = (s.inodes p).blocks (idx / 16) + (idx % 16 : Nat) * 32 := rfl
  exact @assign_data_old _ p k _ (.direct ⟨idx / 16, hk⟩) ho h (by simp) h0 x
    (by simp only [slotVal]; omega) (by simp only [slotVal]; omega)

/-- A new block brings no live entry. -/
theorem liveEntry_assign (ho : Owned s.toDisk) (h : Assignable s p (.direct b) k) (hidx : idx < 96) :
    liveEntry (assign s p (.direct b) k).toDisk p idx = liveEntry s.toDisk p idx := by
  by_cases hb : idx / 16 = b
  · have h0 : (s.inodes p).blocks (idx / 16) = 0 := by
      rw [hb]
      exact h.empty
    rw [liveEntry_of_block_eq_zero h0]
    simp [liveEntry, entryFree, entryNum_assign ho h hb]
  · exact (sameEntry_assign ho h hidx hb).liveEntry

theorem entryOk_assign (ho : Owned s.toDisk) (h : Assignable s p (.direct b) k) (hidx : idx < 96)
    (hok : EntryOk s.toDisk p idx) : EntryOk (assign s p (.direct b) k).toDisk p idx := by
  by_cases hb : idx / 16 = b
  · exact entryOk_of_num_eq_zero (entryNum_assign ho h hb)
  · exact (sameEntry_assign ho h hidx hb).entryOk hok

end assign

/-! ### Writing an entry -/

theorem length_nameField (name : List UInt8) : (nameField name).length = 28 := by
  simp only [nameField, List.length_append, List.length_take, List.length_replicate]
  omega

/-- Up to its first NUL the name field holds the name. -/
theorem takeWhile_nameField {name : List UInt8} (hlen : name.length < 28)
    (hnul : ∀ c ∈ name, c ≠ 0) : (nameField name).takeWhile (· ≠ 0) = name := by
  have htake : name.take 27 = name := List.take_of_length_le (by omega)
  rw [nameField, htake, List.takeWhile_append_of_pos (by simpa using hnul)]
  rcases e : 28 - name.length with - | n
  · simp
  · simp [List.replicate_succ]

section writeEntry

variable {num now : Int} {name : List UInt8}

theorem writeEntry_data_of_disjoint {x : Int}
    (hx : x < entryAddr s.toDisk p idx ∨ entryAddr s.toDisk p idx + 32 ≤ x) :
    (writeEntry s p idx num name now).data x = s.data x := by
  show storeInt (store s.data _ (nameField name)) _ 4 num x = s.data x
  rw [storeInt_of_disjoint (by omega), store_of_disjoint (by rw [length_nameField]; omega)]

theorem writeEntry_inodes_ne {j : Nat} (h : j ≠ p) :
    (writeEntry s p idx num name now).inodes j = s.inodes j := Fs.setInode_ne h

theorem writeEntry_inode : (writeEntry s p idx num name now).inodes p =
    wfsUpdateTimes { s.inodes p with
      size := if ((idx : Int) + 1) * 32 > (s.inodes p).size then ((idx : Int) + 1) * 32
        else (s.inodes p).size } now false true true := Fs.setInode_self

theorem writeEntry_blocks (j : Nat) :
    ((writeEntry s p idx num name now).inodes j).blocks = (s.inodes j).blocks := by
  rcases eq_or_ne j p with rfl | h
  · rw [writeEntry_inode]
    rfl
  · rw [writeEntry_inodes_ne h]

theorem entryAddr_writeEntry (j idx' : Nat) :
    entryAddr (writeEntry s p idx num name now).toDisk j idx' = entryAddr s.toDisk j idx' := by
  rw [entryAddr, entryAddr, writeEntry_blocks]

theorem entryName_writeEntry :
    entryName (writeEntry s p idx num name now).toDisk p idx = nameField name := by
  rw [entryName, entryAddr_writeEntry]
  show load (storeInt (store s.data _ (nameField name)) _ 4 num) _ 28 = _
  have h : load (store s.data (entryAddr s.toDisk p idx) (nameField name)) (entryAddr s.toDisk p idx)
      (nameField name).length = nameField name := load_store_same
  rw [length_nameField] at h
  rw [storeInt, load_store_disjoint (by omega), h]

theorem entryNum_writeEntry (hfit : Int.bmod num (256 ^ 4) = num) :
    entryNum (writeEntry s p idx num name now).toDisk p idx = num := by
  rw [entryNum, entryAddr_writeEntry]
  show loadInt (storeInt (store s.data _ (nameField name)) _ 4 num) _ 4 = num
  rw [loadInt_storeInt_same, hfit]

/-- The first byte of the name field is the first byte of the name. -/
theorem first_writeEntry (hpos : name ≠ []) (hnul : ∀ c ∈ name, c ≠ 0) :
    (writeEntry s p idx num name now).data (entryAddr s.toDisk p idx) ≠ 0 := by
  show storeInt (store s.data _ (nameField name)) _ 4 num _ ≠ 0
  rcases name with - | ⟨c, rest⟩
  · exact absurd rfl hpos
  · rw [storeInt_of_disjoint (by omega)]
    have h : store s.data (entryAddr s.toDisk p idx) (nameField (c :: rest))
        (entryAddr s.toDisk p idx + (0 : Nat)) = (nameField (c :: rest)).getD 0 0 :=
      store_of_mem (by rw [length_nameField]; omega)
    rw [show entryAddr s.toDisk p idx + ((0 : Nat) : Int) = entryAddr s.toDisk p idx by omega] at h
    rw [h]
    simpa [nameField] using hnul c List.mem_cons_self

theorem liveEntry_writeEntry (hb : (s.inodes p).blocks (idx / 16) ≠ 0) (hnum : num ≠ 0)
    (hfit : Int.bmod num (256 ^ 4) = num) (hpos : name ≠ []) (hlen : name.length < 28)
    (hnul : ∀ c ∈ name, c ≠ 0) :
    liveEntry (writeEntry s p idx num name now).toDisk p idx = some (name, num) := by
  have hfirst : (writeEntry s p idx num name now).data (entryAddr s.toDisk p idx) ≠ 0 :=
    first_writeEntry hpos hnul
  have hhas : hasEntry (writeEntry s p idx num name now).toDisk p idx = true := by
    rw [hasEntry, writeEntry_blocks]
    simpa using hb
  have hused : entryFree (writeEntry s p idx num name now).toDisk p idx = false := by
    rw [entryFree, entryNum_writeEntry hfit, entryAddr_writeEntry]
    simp [hnum, hfirst]
  rw [liveEntry, hhas, hused, entryNum_writeEntry hfit, entryName_writeEntry,
    takeWhile_nameField hlen hnul]
  rfl

theorem zero_mem_nameField (hlen : name.length < 28) : 0 ∈ nameField name := by
  have htake : name.take 27 = name := List.take_of_length_le (by omega)
  rw [nameField, htake, List.mem_append, List.mem_replicate]
  exact Or.inr ⟨by omega, rfl⟩

theorem entryOk_writeEntry (hnum : 0 ≤ num) (hfit : Int.bmod num (256 ^ 4) = num)
    (hpos : name ≠ []) (hlen : name.length < 28) (hnul : ∀ c ∈ name, c ≠ 0) :
    EntryOk (writeEntry s p idx num name now).toDisk p idx := by
  intro _ _
  rw [entryNum_writeEntry hfit, entryName_writeEntry, entryAddr_writeEntry]
  exact ⟨hnum, first_writeEntry hpos hnul, zero_mem_nameField hlen⟩

end writeEntry

/-! ### Clearing an entry -/

section clearEntry

variable {now : Int}

theorem clearEntry_data_of_disjoint {x : Int}
    (hx : x < entryAddr s.toDisk p idx ∨ entryAddr s.toDisk p idx + 32 ≤ x) :
    (clearEntry s p idx now).data x = s.data x := by
  simp only [clearEntry, Fs.setInode_data]
  split_ifs
  · rw [store_of_disjoint (by simp only [List.length_singleton]; omega),
      storeInt_of_disjoint (by omega)]
  · rw [storeInt_of_disjoint (by omega)]

theorem clearEntry_inodes_ne {j : Nat} (h : j ≠ p) :
    (clearEntry s p idx now).inodes j = s.inodes j := Fs.setInode_ne h

theorem clearEntry_inode : (clearEntry s p idx now).inodes p =
    wfsUpdateTimes (s.inodes p) now false true true := Fs.setInode_self

theorem clearEntry_blocks (j : Nat) :
    ((clearEntry s p idx now).inodes j).blocks = (s.inodes j).blocks := by
  rcases eq_or_ne j p with rfl | h
  · rw [clearEntry_inode]
    rfl
  · rw [clearEntry_inodes_ne h]

theorem entryNum_clearEntry : entryNum (clearEntry s p idx now).toDisk p idx = 0 := by
  rw [entryNum, entryAddr, clearEntry_blocks]
  show loadInt (clearEntry s p idx now).data (entryAddr s.toDisk p idx + 28) 4 = 0
  have hz : loadInt (storeInt s.data (entryAddr s.toDisk p idx + 28) 4 0)
      (entryAddr s.toDisk p idx + 28) 4 = 0 := by
    rw [loadInt_storeInt_same]
    rfl
  simp only [clearEntry, Fs.setInode_data]
  split_ifs
  · refine (loadInt_congr fun j hj => ?_).trans hz
    rw [store_of_disjoint (by simp only [List.length_singleton]; omega)]
  · exact hz

theorem liveEntry_clearEntry : liveEntry (clearEntry s p idx now).toDisk p idx = none := by
  simp [liveEntry, entryFree, entryNum_clearEntry]

end clearEntry

end SystemsPortfolio.Wfs
