/-
SystemsPortfolio/Wfs/Blocks.lean

Inodes and data blocks: the bitmap allocator, `allocate_inode` and
`free_inode`, `allocate_data_block` and `free_block`, and `data_offset`, the
map from a file offset to the address of its byte.

An inode pointer of the source is the index of the inode's slot here.  A
function that may change the image takes the mounted file system and returns
its result with the new one.
-/
import SystemsPortfolio.Wfs.Disk

namespace SystemsPortfolio.Wfs

open ByteStore

/-! ### Bitmaps -/

/-- `bitmap_test`. -/
def bitmapTest (position : Nat) (bitmap : WordSet.Words) : Bool :=
  (bitmap (position / 32) >>> (position % 32)) &&& 1#32 ≠ 0#32

/-- `free_bitmap`. -/
def freeBitmap (position : Nat) (bitmap : WordSet.Words) : WordSet.Words :=
  Function.update bitmap (position / 32)
    (bitmap (position / 32) &&& ~~~(1#32 <<< (position % 32)))

/-- The inner loop of `allocate_block`: the first clear bit of a word. -/
def firstClear (region : BitVec 32) : Option Nat :=
  (List.range 32).find? fun k => (region >>> k) &&& 1#32 = 0#32

/-- The outer loop of `allocate_block`, from word `i` on with `n` words left. -/
def allocateLoop (bitmap : WordSet.Words) : Nat → Nat → Option (Nat × WordSet.Words)
  | _, 0 => none
  | i, n + 1 =>
      if bitmap i = 0xFFFFFFFF#32 then allocateLoop bitmap (i + 1) n
      else
        match firstClear (bitmap i) with
        | some k => some ((32 * i + k) % 2 ^ 32, Function.update bitmap i (bitmap i ||| (1#32 <<< k)))
        | none => allocateLoop bitmap (i + 1) n

/-- `allocate_block`: the index it returns with the new bitmap; `none` is the
result `-1`. -/
def allocateBlock (bitmap : WordSet.Words) (len : Nat) : Option (Nat × WordSet.Words) :=
  allocateLoop bitmap 0 len

theorem bitmapTest_eq (position : Nat) (bitmap : WordSet.Words) :
    bitmapTest position bitmap = WordSet.test bitmap position := by
  rw [bitmapTest, WordSet.test, WordSet.ushiftRight_and_one]
  cases (bitmap (position / 32)).getLsbD (position % 32) <;> decide

theorem freeBitmap_eq (position : Nat) (bitmap : WordSet.Words) :
    freeBitmap position bitmap = WordSet.erase bitmap position := rfl

theorem firstClear_eq_some {region : BitVec 32} {k : Nat} (h : firstClear region = some k) :
    k < 32 ∧ region.getLsbD k = false ∧ ∀ j < k, region.getLsbD j = true := by
  rw [firstClear, List.find?_range_eq_some] at h
  obtain ⟨hk, hlt, hbefore⟩ := h
  refine ⟨List.mem_range.mp hlt, ?_, fun j hj => ?_⟩
  · rw [decide_eq_true_eq, WordSet.ushiftRight_and_one] at hk
    cases e : region.getLsbD k with
    | false => rfl
    | true => rw [e] at hk; exact absurd hk (by decide)
  · have hj' := hbefore j hj
    rw [Bool.not_eq_true', decide_eq_false_iff_not, WordSet.ushiftRight_and_one] at hj'
    cases e : region.getLsbD j with
    | true => rfl
    | false => rw [e] at hj'; exact absurd rfl hj'

theorem firstClear_isSome {region : BitVec 32} (h : region ≠ 0xFFFFFFFF#32) :
    (firstClear region).isSome := by
  obtain ⟨k, hk, hclear⟩ := WordSet.exists_clear h
  rw [firstClear, List.find?_isSome]
  refine ⟨k, List.mem_range.mpr hk, ?_⟩
  rw [decide_eq_true_eq, WordSet.ushiftRight_and_one, hclear]
  rfl

/-- The loop started at word `i` finds the least clear bit from there on. -/
theorem allocateLoop_eq_some {bitmap bitmap' : WordSet.Words} {i n p : Nat}
    (hfit : 32 * (i + n) ≤ 2 ^ 32) (h : allocateLoop bitmap i n = some (p, bitmap')) :
    p < 32 * (i + n) ∧ WordSet.test bitmap p = false ∧ bitmap' = WordSet.insert bitmap p ∧
      ∀ q, 32 * i ≤ q → q < p → WordSet.test bitmap q = true := by
  induction n generalizing i with
  | zero => cases h
  | succ n ih =>
      -- a full word is skipped: every bit of it is set
      have hskip : (∀ k < 32, (bitmap i).getLsbD k = true) →
          allocateLoop bitmap (i + 1) n = some (p, bitmap') →
          p < 32 * (i + (n + 1)) ∧ WordSet.test bitmap p = false ∧
            bitmap' = WordSet.insert bitmap p ∧
            ∀ q, 32 * i ≤ q → q < p → WordSet.test bitmap q = true := by
        intro hfull h'
        obtain ⟨hp, hfree, hset, hbefore⟩ := ih (by omega) h'
        refine ⟨by omega, hfree, hset, fun q hq hqp => ?_⟩
        by_cases hw : 32 * (i + 1) ≤ q
        · exact hbefore q hw hqp
        · rw [WordSet.test, show q / 32 = i by omega]
          exact hfull _ (by omega)
      rw [allocateLoop] at h
      split at h
      · rename_i hones
        refine hskip (fun k hk => ?_) h
        rw [hones]
        interval_cases k <;> rfl
      · rename_i hones
        split at h
        · rename_i k hk
          obtain ⟨hlt, hclear, hbelow⟩ := firstClear_eq_some hk
          have hmod : (32 * i + k) % 2 ^ 32 = 32 * i + k := Nat.mod_eq_of_lt (by omega)
          rw [hmod] at h
          obtain ⟨rfl, rfl⟩ := Prod.mk.inj (Option.some.inj h)
          have hdiv : (32 * i + k) / 32 = i := by omega
          have hrem : (32 * i + k) % 32 = k := by omega
          refine ⟨by omega, ?_, ?_, fun q hq hqp => ?_⟩
          · rw [WordSet.test, hdiv, hrem]
            exact hclear
          · rw [WordSet.insert, hdiv, hrem]
          · rw [WordSet.test, show q / 32 = i by omega]
            exact hbelow _ (by omega)
        · rename_i hnone
          have := firstClear_isSome hones
          rw [hnone] at this
          cases this

theorem allocateLoop_eq_none {bitmap : WordSet.Words} {i n : Nat}
    (h : allocateLoop bitmap i n = none) :
    ∀ q, 32 * i ≤ q → q < 32 * (i + n) → WordSet.test bitmap q = true := by
  induction n generalizing i with
  | zero => intro q h₁ h₂; omega
  | succ n ih =>
      rw [allocateLoop] at h
      split at h
      · rename_i hones
        intro q h₁ h₂
        by_cases hw : 32 * (i + 1) ≤ q
        · exact ih h q hw (by omega)
        · rw [WordSet.test, show q / 32 = i by omega, hones]
          have hlt : q % 32 < 32 := by omega
          interval_cases q % 32 <;> rfl
      · rename_i hones
        have hsome := firstClear_isSome hones
        split at h
        · cases h
        · rename_i hnone
          rw [hnone] at hsome
          cases hsome

/-- The bitmap allocator takes the least clear index. -/
theorem allocateBlock_eq_some {bitmap bitmap' : WordSet.Words} {len p : Nat}
    (hfit : 32 * len ≤ 2 ^ 32) (h : allocateBlock bitmap len = some (p, bitmap')) :
    p < 32 * len ∧ WordSet.test bitmap p = false ∧ bitmap' = WordSet.insert bitmap p ∧
      ∀ q < p, WordSet.test bitmap q = true := by
  have hfit' : 32 * (0 + len) ≤ 2 ^ 32 := by omega
  obtain ⟨hp, hfree, hset, hbefore⟩ := allocateLoop_eq_some hfit' h
  exact ⟨by omega, hfree, hset, fun q hq => hbefore q (by omega) hq⟩

/-- The bitmap allocator fails only on a full bitmap. -/
theorem allocateBlock_eq_none {bitmap : WordSet.Words} {len : Nat}
    (h : allocateBlock bitmap len = none) : ∀ q < 32 * len, WordSet.test bitmap q = true :=
  fun q hq => allocateLoop_eq_none h q (by omega) (by omega)

/-! ### Inodes -/

/-- Store `ino` in slot `i` of the inode table. -/
def Fs.setInode (s : Fs) (i : Nat) (ino : Inode) : Fs :=
  { s with inodes := Function.update s.inodes i ino }

section setInode

variable {s : Fs} {i j : Nat} {ino : Inode}

@[simp] theorem Fs.setInode_sb : (s.setInode i ino).sb = s.sb := rfl

@[simp] theorem Fs.setInode_ibm : (s.setInode i ino).ibm = s.ibm := rfl

@[simp] theorem Fs.setInode_dbm : (s.setInode i ino).dbm = s.dbm := rfl

@[simp] theorem Fs.setInode_data : (s.setInode i ino).data = s.data := rfl

@[simp] theorem Fs.setInode_self : (s.setInode i ino).inodes i = ino := Function.update_self ..

theorem Fs.setInode_ne (h : j ≠ i) : (s.setInode i ino).inodes j = s.inodes j :=
  Function.update_of_ne h ..

end setInode

/-- `inode->blocks[k] = v`. -/
def Fs.setBlock (s : Fs) (i k : Nat) (v : Int) : Fs :=
  s.setInode i { s.inodes i with blocks := Function.update (s.inodes i).blocks k v }

/-- `retrieve_inode`. -/
def retrieveInode (s : Fs) (inum : Int) : Option Nat :=
  if inum < 0 ∨ s.sb.numInodes ≤ inum.toNat then none
  else if bitmapTest inum.toNat s.ibm then some inum.toNat
  else none

/-- `allocate_inode`. -/
def allocateInode (s : Fs) (now : Int) : Option Nat × Fs :=
  match allocateBlock s.ibm ((s.sb.numInodes + 31) / 32) with
  | none => (none, { s with wfsError := -ENOSPC })
  | some (idx, ibm') =>
      if s.sb.numInodes ≤ idx then (none, { s with ibm := ibm', wfsError := -ENOSPC })
      else
        let inode := wfsUpdateTimes { Inode.zero with num := idx, color := .none } now true true true
        (some idx, Fs.setInode { s with ibm := ibm' } idx inode)

/-- `free_inode`. -/
def freeInode (s : Fs) (i : Nat) : Fs :=
  let num := ((s.inodes i).num % 2 ^ 32).toNat
  Fs.setInode { s with ibm := freeBitmap num s.ibm } i Inode.zero

/-- `fillin_inode`. -/
def fillinInode (s : Fs) (i : Nat) (mode : BitVec 32) (env : Env) (now : Int) : Fs :=
  let ino := { s.inodes i with
    mode := mode
    uid := env.uid
    gid := env.gid
    size := 0
    nlinks := 1
    color := .none
    blocks := fun _ => 0 }
  s.setInode i (wfsUpdateTimes ino now true true true)

/-! ### Data blocks -/

/-- `allocate_data_block`: the byte offset of a zeroed block, or `0`. -/
def allocateDataBlock (s : Fs) : Int × Fs :=
  match allocateBlock s.dbm ((s.sb.numDataBlocks + 31) / 32) with
  | none => (0, { s with wfsError := -ENOSPC })
  | some (idx, dbm') =>
      if s.sb.numDataBlocks ≤ idx then (0, { s with dbm := dbm', wfsError := -ENOSPC })
      else
        let blkOff := s.sb.dBlocksPtr + idx * 512
        (blkOff, { s with dbm := dbm', data := fill s.data blkOff 512 0 })

/-- `free_block`. -/
def freeBlock (s : Fs) (blkOffset : Int) : Fs :=
  if blkOffset < s.sb.dBlocksPtr then s
  else
    let rel := blkOffset - s.sb.dBlocksPtr
    if rel < 0 ∨ rel % 512 ≠ 0 then s
    else
      let idx := (rel / 512 % 2 ^ 32).toNat
      if s.sb.numDataBlocks ≤ idx then s
      else { s with dbm := freeBitmap idx s.dbm, data := fill s.data blkOffset 512 0 }

/-! ### `data_offset` -/

/-- The direct case of `data_offset`: the offset of block `k < D_BLOCK`, or `0`. -/
def directBlock (s : Fs) (i k : Nat) (alloc : Bool) : Int × Fs :=
  if (s.inodes i).blocks k = 0 ∧ alloc = true then
    let (newBlk, s₁) := allocateDataBlock s
    if newBlk = 0 then (0, s₁)
    else
      let s₂ := s₁.setBlock i k newBlk
      ((s₂.inodes i).blocks k, s₂)
  else ((s.inodes i).blocks k, s)

/-- The indirect case of `data_offset` after the indirect block at `indOff` has
been found: the offset held by its entry `idx`, or `0`. -/
def indirectEntry (s : Fs) (indOff : Int) (idx : Nat) (alloc : Bool) : Int × Fs :=
  if 64 ≤ idx then (0, { s with wfsError := -ENOSPC })
  else if loadInt s.data (indOff + 8 * idx) 8 = 0 ∧ alloc = true then
    let (newBlk, s₁) := allocateDataBlock s
    if newBlk = 0 then (0, s₁)
    else
      let s₂ := { s₁ with data := storeInt s₁.data (indOff + 8 * idx) 8 newBlk }
      (loadInt s₂.data (indOff + 8 * idx) 8, s₂)
  else (loadInt s.data (indOff + 8 * idx) 8, s)

/-- The indirect case of `data_offset`: the offset held by entry `idx` of the
indirect block, or `0`. -/
def indirectBlock (s : Fs) (i idx : Nat) (alloc : Bool) : Int × Fs :=
  let indOff := (s.inodes i).blocks 7
  if indOff = 0 ∧ alloc = true then
    let (newInd, s₁) := allocateDataBlock s
    if newInd = 0 then (0, s₁)
    else
      let s₂ := s₁.setBlock i 7 newInd
      indirectEntry { s₂ with data := fill s₂.data newInd 512 0 } newInd idx alloc
  else if indOff = 0 then (0, s)
  else indirectEntry s indOff idx alloc

/-- `data_offset`: the address of the byte at `offset`, if there is a block for
it; with `alloc` missing blocks are allocated. -/
def dataOffset (s : Fs) (i : Nat) (offset : Int) (alloc : Bool) : Option Int × Fs :=
  if offset < 0 then (none, { s with wfsError := -ENOENT })
  else
    let blockIndex := (offset / 512).toNat
    let blockOffset := offset % 512
    if 70 ≤ blockIndex then (none, { s with wfsError := -ENOSPC })
    else
      let (blkOff, s') :=
        if blockIndex < 6 then directBlock s i blockIndex alloc
        else indirectBlock s i (blockIndex - 6) alloc
      if blkOff = 0 then (none, s') else (some (blkOff + blockOffset), s')

end SystemsPortfolio.Wfs
