/-
SystemsPortfolio/Wfs/Capacity.lean

What limits a file: the free blocks and the block map.

A write runs out of space only when it must.  The loop of `wfs_write` takes its blocks one by
one, the indirect block on the way; it succeeds if and only if the range fits the block map
and the free blocks suffice for all of it (`write_fits_iff`), and then it takes just as many
as were missing.

The size of a file is set after the loop, from the offset and the length alone.  A write of no
bytes never enters the loop that checks the range, and still moves the size up to its offset.
Without such writes no file outgrows its block map (`sizes_mapped_iff`).
-/
import SystemsPortfolio.Wfs.Deletion
import SystemsPortfolio.Wfs.FileRuns
import SystemsPortfolio.Wfs.Files

namespace SystemsPortfolio.Wfs

open ByteStore NameTree

variable {d : Disk} {s t u : Fs} {i j : Nat} {sl : Slot} {path : CString} {buf : List UInt8}
  {env : Env} {op : Op} {ops : List (Env × Op)}

/-! ### The bits that a write sets -/

/-- No bit of the data bitmap is cleared, and those that are set are of data blocks. -/
structure Taken (s t : Fs) : Prop where
  sb : t.sb = s.sb
  kept : ∀ k, bitmapTest k s.dbm = true → bitmapTest k t.dbm = true
  range : ∀ k, bitmapTest k s.dbm = false → bitmapTest k t.dbm = true → k < s.sb.numDataBlocks

/-- The bits that have been set between `s` and `t`. -/
def newBits (s t : Fs) : Set Nat := {k | bitmapTest k s.dbm = false ∧ bitmapTest k t.dbm = true}

theorem Taken.of_dbm (hsb : t.sb = s.sb) (hdbm : t.dbm = s.dbm) : Taken s t := by
  refine ⟨hsb, fun k hk => by rw [hdbm]; exact hk, fun k hk hk' => ?_⟩
  rw [hdbm, hk] at hk'
  cases hk'

theorem Taken.trans (h : Taken s t) (h' : Taken t u) : Taken s u := by
  refine ⟨h'.sb.trans h.sb, fun k hk => h'.kept k (h.kept k hk), fun k hk hk' => ?_⟩
  rcases e : bitmapTest k t.dbm with - | -
  · have hlt := h'.range k e hk'
    rwa [h.sb] at hlt
  · exact h.range k hk e

theorem Ensured.taken {r : Int × Fs} (h : Ensured s i sl r) : Taken s r.2 := by
  cases h with
  | had => exact .of_dbm rfl rfl
  | full => exact .of_dbm rfl rfl
  | got k ha =>
      have htest : ∀ l, bitmapTest l (assign s i sl k).dbm = (decide (l = k) || bitmapTest l s.dbm) := by
        intro l
        have hdbm : (assign s i sl k).dbm = WordSet.insert s.dbm k := setSlot_dbm
        rw [hdbm, bitmapTest_eq, bitmapTest_eq, WordSet.test_insert]
      refine ⟨assign_sb, fun l hl => ?_, fun l hl hl' => ?_⟩
      · rw [htest, hl, Bool.or_true]
      · rw [htest, hl, Bool.or_false, decide_eq_true_eq] at hl'
        rw [hl']
        exact ha.lt

theorem dataOffset_taken (ho : Owned s.toDisk) (hi : Allocated s.toDisk i) (x : Int) :
    Taken s (dataOffset s i x true).2 := by
  -- the address is made of the block's, and the state is the one that the search left
  have hend : ∀ r : Int × Fs, Taken s r.2 →
      Taken s (if r.1 = 0 then (none, r.2) else (some (r.1 + x % 512), r.2)).2 := by
    intro r hr
    split_ifs <;> exact hr
  rw [dataOffset]
  dsimp only
  by_cases hneg : x < 0
  · rw [if_pos hneg]
    exact .of_dbm rfl rfl
  · rw [if_neg hneg]
    by_cases h70 : 70 ≤ (x / 512).toNat
    · rw [if_pos h70]
      exact .of_dbm rfl rfl
    · rw [if_neg h70]
      by_cases h6 : (x / 512).toNat < 6
      · rw [if_pos h6]
        exact hend _ (directBlock_ensured ho hi ⟨(x / 512).toNat, h6⟩).taken
      · rw [if_neg h6]
        apply hend
        obtain ⟨r, hr, ⟨-, e⟩ | ⟨-, hr'⟩⟩ :=
          indirectBlock_ensured ho hi ⟨(x / 512).toNat - 6, by omega⟩
        · have h := hr.taken
          rwa [← e] at h
        · exact hr.taken.trans hr'.taken

theorem writeLoop_taken {off : Int} {fuel done : Nat} (ho : Owned s.toDisk)
    (hi : Allocated s.toDisk i) : Taken s (writeLoop i buf off fuel done s).2 := by
  apply writeLoop_relates (R := Taken) _ _ _ _ ho hi
  · exact fun _ _ => .of_dbm rfl rfl
  · exact fun _ _ _ h h' => h.trans h'
  · exact fun _ x ho hi => dataOffset_taken ho hi x
  · -- copying a chunk leaves the bitmap alone
    intro s t a done ho hi e
    have h := dataOffset_taken ho hi (offT (off + done))
    rw [e] at h
    exact h.trans (.of_dbm rfl rfl)

/-- As many free blocks go as bits are set. -/
theorem Taken.count (h : Taken s t) :
    freeBlocks s.toDisk = freeBlocks t.toDisk + (newBits s t).ncard := by
  rw [freeBlocks, freeBlocks, h.sb]
  refine countFree_clear (fun k hk => ⟨h.range k hk.1 hk.2, hk.2⟩) fun k _ => ?_
  constructor
  · intro hk
    refine ⟨h.kept k hk, fun hnew => ?_⟩
    rw [hnew.1] at hk
    cases hk
  · rintro ⟨hk, hnot⟩
    by_contra hclear
    exact hnot ⟨by simpa using hclear, hk⟩

/-- Whatever comes of it, a write clears no bit of the data bitmap. -/
theorem wfsWrite_taken (h : Base s.toDisk) (path : List UInt8) (off : Int) :
    Taken s (wfsWrite s path buf off env).2 := by
  rw [wfsWrite]
  rcases hp : getInodeFromPath s (cleanPath path) with e | i
  · exact .of_dbm rfl rfl
  dsimp only
  by_cases hd : isDir (s.inodes i).mode = true
  · rw [if_pos hd]
    exact .of_dbm rfl rfl
  · rw [if_neg hd]
    have hloop : Taken s (writeLoop i buf off buf.length 0 s).2 :=
      writeLoop_taken h.owned (getInodeFromPath_ok hp)
    rcases e : writeLoop i buf off buf.length 0 s with ⟨- | done, t⟩
    · rw [e] at hloop
      exact hloop
    · rw [e] at hloop
      exact hloop.trans (.of_dbm rfl rfl)

/-- The number of blocks that a write of `len` bytes at offset `off` has to take. -/
def writeNeed (d : Disk) (i off len : Nat) : Nat :=
  need d i (off / 512) ((off + len - 1) / 512 - off / 512 + 1)

/-- In every reachable state a write of at least one byte to a regular file succeeds if and
only if its range fits the block map and there are as many free blocks as it needs.  If it
succeeds it sets just so many bits of the data bitmap, those of data blocks, and clears none. -/
theorem write_fits_iff (hd : MkfsImage d) (hs : run (mount d) ops = s) (path : CString)
    (buf : List UInt8) (off : Nat) (env : Env) (hlen : 1 ≤ buf.length) (hoff : off < 2 ^ 63)
    (hp : getInodeFromPath s (cleanPath path.bytes) = .ok i) (hreg : isReg (s.inodes i).mode = true) :
    (0 ≤ (wfsWrite s path.bytes buf off env).1 ↔ off + buf.length ≤ 70 * 512 ∧
      writeNeed s.toDisk i off buf.length ≤ countFree s.dbm s.sb.numDataBlocks) ∧
    (0 ≤ (wfsWrite s path.bytes buf off env).1 →
      (newBits s (wfsWrite s path.bytes buf off env).2).ncard = writeNeed s.toDisk i off buf.length ∧
      (∀ k ∈ newBits s (wfsWrite s path.bytes buf off env).2, k < s.sb.numDataBlocks) ∧
      ∀ k, bitmapTest k s.dbm = true →
        bitmapTest k (wfsWrite s path.bytes buf off env).2.dbm = true) := by
  subst hs
  have hb := base_run hd ops
  generalize run (mount d) ops = s at hb hp hreg ⊢
  have htaken : Taken s (wfsWrite s path.bytes buf off env).2 := wfsWrite_taken hb path.bytes off
  have hfile := isDir_eq_false_of_isReg hreg
  rw [show countFree s.dbm s.sb.numDataBlocks = freeBlocks s.toDisk from rfl]
  rcases wfsWrite_cases hb hp hfile hoff buf env with
    ⟨t, m, hw, e⟩ | ⟨t, s', k, m, hw, hk, -, hwhy, e⟩
  · -- everything is written: the blocks reached are those of the range
    have hspan := hw.progress.span
    have hmax := hw.progress.lt
    have hcount := hw.count
    obtain rfl : m = (off + buf.length - 1) / 512 - off / 512 + 1 := by omega
    rw [show need s.toDisk i (off / 512) ((off + buf.length - 1) / 512 - off / 512 + 1) =
      writeNeed s.toDisk i off buf.length from rfl] at hcount
    rw [e] at htaken ⊢
    refine ⟨⟨fun _ => ⟨by omega, by omega⟩, fun _ => Int.natCast_nonneg _⟩,
      fun _ => ⟨?_, ?_, htaken.kept⟩⟩
    · -- the update of the inode at the end frees nothing
      have htotal : freeBlocks s.toDisk = freeBlocks t.toDisk + _ := htaken.count
      omega
    · exact fun k hk => htaken.range k hk.1 hk.2
  · -- the loop has stopped at a block of the range, which is beyond the map or costs too much
    have hneg : ¬ 0 ≤ (wfsWrite s path.bytes buf off env).1 := by
      rw [e]
      show ¬ (0 : Int) ≤ -ENOSPC
      decide
    refine ⟨⟨fun h => absurd h hneg, fun hfits => ?_⟩, fun h => absurd h hneg⟩
    have hnext := hw.progress.next hk
    have hmono : need s.toDisk i (off / 512) (m + 1) ≤ writeNeed s.toDisk i off buf.length :=
      need_mono (by omega)
    omega

/-- Make a file "/f". -/
def fileOps : List (Env × Op) := [(plainEnv, .mknod smallPath 0o100644#32)]

theorem fileOps_path :
    getInodeFromPath (run (mount smallDisk) fileOps) (cleanPath smallPath.bytes) = .ok 1 := by
  decide +kernel

/-- One byte written to the new file "/f" sets one bit. -/
theorem write_fits_iff_file :
    (newBits (run (mount smallDisk) fileOps)
      (wfsWrite (run (mount smallDisk) fileOps) smallPath.bytes [1] (0 : Nat) plainEnv).2).ncard = 1 := by
  obtain ⟨hfits, hset⟩ := write_fits_iff smallDisk_mkfs.mkfsImage rfl smallPath [1] 0 plainEnv
    (by decide) (by decide) fileOps_path (by decide +kernel)
  have hneed : writeNeed (run (mount smallDisk) fileOps).toDisk 1 0 1 = 1 := by decide +kernel
  have hok := hfits.mpr ⟨by decide, by decide +kernel⟩
  exact (hset hok).1.trans hneed

/-! ### Sizes and the block map -/

/-- The size of every regular file is within what its block map can address. -/
def SizesOk (d : Disk) : Prop :=
  ∀ i, Allocated d i → isReg (d.inodes i).mode = true → (d.inodes i).size ≤ 70 * 512

/-- A write that stores no byte, and does not fail, changes no size. -/
def KeepsSizes (s : Fs) (e : Env × Op) : Prop :=
  match e.2 with
  | .write path buf off => (wfsWrite s path.bytes buf off e.1).1 = 0 →
      ∀ i, ((wfsWrite s path.bytes buf off e.1).2.inodes i).size = (s.inodes i).size
  | _ => True

/-- The offsets that FUSE hands to `wfs_write`. -/
def Op.OffsetOk : Op → Prop
  | .write _ _ off => 0 ≤ off ∧ off < 2 ^ 63
  | _ => True

/-- No write of no bytes lies beyond the end of its file. -/
def NoEmptyGrowth (s : Fs) : Op → Prop
  | .write path buf off => buf = [] → ∀ i, getInodeFromPath s (cleanPath path.bytes) = .ok i →
      isDir (s.inodes i).mode = false → off ≤ (s.inodes i).size
  | _ => True

theorem MkfsImage.sizesOk (h : MkfsImage d) : SizesOk d := by
  intro i hi hreg
  obtain rfl := h.allocated.mp hi
  obtain ⟨env, hroot⟩ := h.root
  rw [hroot]
  show (0 : Int) ≤ 70 * 512
  decide

/-- Operations other than `wfs_write` keep the sizes. -/
theorem SizesOk.exec (hs : SizesOk s.toDisk) (h : Base s.toDisk)
    (hop : ∀ path buf off, op ≠ .write path buf off) : SizesOk (exec env op s).2.toDisk := by
  intro j hj' hreg'
  have hk : KeepsFiles s.toDisk (Wfs.exec env op s).2.toDisk := exec_keepsFiles h hop
  by_cases hj : Allocated s.toDisk j
  · have hfile : isDir (s.inodes j).mode = false := by
      rw [← hk.dir j hj hj']
      exact isDir_eq_false_of_isReg hreg'
    have hreg := (h.kind j hj).resolve_left (by simp [hfile])
    rw [hk.size j hj hj' hfile]
    exact hs j hj hreg
  · rw [(exec_new_empty h hj hj').2]
    decide

/-- A write of no bytes does nothing but set the size. -/
theorem wfsWrite_nil (hp : getInodeFromPath s (cleanPath path.bytes) = .ok i)
    (hfile : isDir (s.inodes i).mode = false) (off : Int) (env : Env) :
    wfsWrite s path.bytes [] off env =
      (0, s.setInode i (writtenInode (s.inodes i) (offT off) 0 (env.now 0))) := by
  have e : writeLoop i [] off ([] : List UInt8).length 0 s = (some 0, s) := rfl
  rw [wfsWrite_of_some hp hfile e, show off + ((0 : Nat) : Int) = off from Int.add_zero off]
  rfl

/-- What a write does to the sizes: nothing, if it fails; else that of its file is raised to the
end of the range, which is within the block map unless the range is empty. -/
theorem wfsWrite_sizes (h : Base s.toDisk) {o : Nat} (ho : o < 2 ^ 63) (path : CString)
    (buf : List UInt8) (env : Env) :
    ((wfsWrite s path.bytes buf o env).1 < 0 ∧
      ∀ j, ((wfsWrite s path.bytes buf o env).2.inodes j).size = (s.inodes j).size) ∨
    ((wfsWrite s path.bytes buf o env).1 = buf.length ∧
      (buf = [] ∨ o + buf.length ≤ 70 * 512) ∧
      ∃ i, getInodeFromPath s (cleanPath path.bytes) = .ok i ∧ isDir (s.inodes i).mode = false ∧
        ∀ j, ((wfsWrite s path.bytes buf o env).2.inodes j).size =
          if j = i then max (s.inodes i).size (o + buf.length : Nat) else (s.inodes j).size) := by
  rcases hp : getInodeFromPath s (cleanPath path.bytes) with e | i
  · have hneg := getInodeFromPath_error hp
    refine Or.inl ?_
    simp only [wfsWrite, hp]
    exact ⟨hneg, fun _ => trivial⟩
  by_cases hd : isDir (s.inodes i).mode = true
  · refine Or.inl ?_
    simp only [wfsWrite, hp, hd, if_true]
    exact ⟨by decide, fun _ => trivial⟩
  have hfile : isDir (s.inodes i).mode = false := by simpa using hd
  rcases wfsWrite_cases h hp hfile ho buf env with
    ⟨t, m, hw, e⟩ | ⟨t, s', k, m, hw, hk, hh, -, e⟩
  · have hspan := hw.progress.span
    have hmax := hw.progress.lt
    rw [e]
    refine Or.inr ⟨rfl, ?_, i, rfl, hfile, fun j => ?_⟩
    · rw [← List.length_eq_zero_iff]
      omega
    · rcases eq_or_ne j i with rfl | hji
      · rw [Fs.setInode_self, writtenInode_size, hw.confined.field Inode.size fun _ _ => rfl, if_pos rfl]
      · rw [Fs.setInode_ne hji, hw.confined.others j hji, if_neg hji]
  · rw [e]
    refine Or.inl ⟨show -ENOSPC < 0 by decide, fun j => ?_⟩
    exact (hw.confined.trans hh.confined).field Inode.size (fun _ _ => rfl) j

/-- Where the files stay files, their sizes are all that matters. -/
theorem Calm.sizesOk {d' : Disk} (hc : Calm d d')
    (hsize : ∀ j, Allocated d j → isReg (d.inodes j).mode = true → (d'.inodes j).size ≤ 70 * 512) :
    SizesOk d' := by
  intro j hj hreg
  have hj₀ := (hc.quiet.alloc j).mp hj
  rw [hc.quiet.mode j hj₀] at hreg
  exact hsize j hj₀ hreg

/-- The step lemma: an operation keeps the sizes within the block map, and stores no size without
a byte, if and only if it is no write of no bytes beyond the end of its file. -/
theorem sizesOk_exec_iff (h : Base s.toDisk) (hs : SizesOk s.toDisk) (hop : op.OffsetOk) :
    (SizesOk (exec env op s).2.toDisk ∧ KeepsSizes s (env, op)) ↔ NoEmptyGrowth s op := by
  cases op with
  | write path buf off =>
      obtain ⟨o, rfl⟩ := Int.eq_ofNat_of_zero_le hop.1
      have ho : o < 2 ^ 63 := by
        have hlt := hop.2
        omega
      constructor
      · rintro ⟨-, hkeep⟩ rfl i hp hfile
        have e := wfsWrite_nil hp hfile o env
        have hsame := hkeep (by rw [e]) i
        rw [e, Fs.setInode_self, writtenInode_size, offT,
          Int.bmod_eq_of_le (by omega) (by omega)] at hsame
        omega
      · intro hno
        have hcalm : Calm s.toDisk (wfsWrite s path.bytes buf o env).2.toDisk := wfsWrite_calm h
        rcases wfsWrite_sizes h ho path buf env with
          ⟨hneg, hsame⟩ | ⟨hret, hfits, i, hp, hfile, hsize⟩
        · refine ⟨hcalm.sizesOk fun j hj hreg => ?_, fun h0 => absurd h0 (ne_of_lt hneg)⟩
          rw [hsame j]
          exact hs j hj hreg
        -- an empty range ends within the file, any other within the block map
        have hmax : buf = [] → max (s.inodes i).size (o + buf.length : Nat) = (s.inodes i).size := by
          rintro rfl
          exact max_eq_left (hno rfl i hp hfile)
        refine ⟨hcalm.sizesOk fun j hj hreg => ?_, fun h0 j => ?_⟩
        · have hold := hs j hj hreg
          rw [hsize j]
          split_ifs with hji
          · subst hji
            rcases hfits with hnil | hfits
            · rw [hmax hnil]
              exact hold
            · omega
          · exact hold
        · have hnil : buf = [] := by
            have h0' : (wfsWrite s path.bytes buf o env).1 = 0 := h0
            rw [← List.length_eq_zero_iff]
            omega
          rw [hsize j]
          split_ifs with hji
          · rw [hmax hnil, hji]
          · rfl
  | _ => exact ⟨fun _ => trivial, fun _ => ⟨hs.exec h (by simp), trivial⟩⟩

/-- In the runs from an image of `mkfs` every file stays within its block map, and no write that
stores no byte changes a size, if and only if no write of no bytes lies beyond the end of its
file. -/
theorem sizes_mapped_iff (hd : MkfsImage d) (ops : List (Env × Op))
    (hops : ∀ e ∈ ops, Op.OffsetOk e.2) :
    ((∀ pre, pre <+: ops → SizesOk (run (mount d) pre).toDisk) ∧
      ∀ pre e, pre ++ [e] <+: ops → KeepsSizes (run (mount d) pre) e) ↔
    Meets NoEmptyGrowth (mount d) ops := by
  have hiff := meets_steps_iff (B := fun t => Base t.toDisk) (P := fun t => SizesOk t.toDisk)
    (Q := KeepsSizes) (C := NoEmptyGrowth) (s := mount d)
    (fun _ op _ ht => (exec_effect ht op).base ht) hd.base hd.sizesOk ops
    fun e he t ht hs => sizesOk_exec_iff ht hs (hops e he)
  exact hiff.symm

/-- An empty write at the start of the new file "/f" does no harm. -/
theorem sizes_mapped_iff_empty :
    SizesOk (run (mount smallDisk) (fileOps ++ [(plainEnv, .write smallPath [] 0)])).toDisk := by
  have hmeets : Meets NoEmptyGrowth (mount smallDisk)
      (fileOps ++ [(plainEnv, .write smallPath [] 0)]) := by
    refine ⟨trivial, fun _ i hi _ => ?_, trivial⟩
    obtain rfl : 1 = i := Except.ok.inj (fileOps_path.symm.trans hi)
    decide +kernel
  have hops : ∀ e ∈ fileOps ++ [(plainEnv, Op.write smallPath [] 0)], Op.OffsetOk e.2 := by
    intro e he
    rcases List.mem_append.mp he with he | he
    · rw [List.mem_singleton.mp he]
      trivial
    · rw [List.mem_singleton.mp he]
      exact ⟨by decide, by decide⟩
  exact ((sizes_mapped_iff smallDisk_mkfs.mkfsImage _ hops).mpr hmeets).1 _ (List.prefix_refl _)

/-- A write of no bytes at offset 40000 succeeds, and the empty file has a size that no block map
can hold. -/
theorem empty_write_grows :
    (wfsWrite (run (mount smallDisk) fileOps) smallPath.bytes [] 40000 plainEnv).1 = 0 ∧
      ((run (mount smallDisk) fileOps).inodes 1).size = 0 ∧
      ((wfsWrite (run (mount smallDisk) fileOps) smallPath.bytes [] 40000 plainEnv).2.inodes 1).size =
        40000 ∧
      ¬ SizesOk (run (mount smallDisk) (fileOps ++ [(plainEnv, .write smallPath [] 40000)])).toDisk := by
  have e := wfsWrite_nil fileOps_path (by decide +kernel) 40000 plainEnv
  have hsize : ((wfsWrite (run (mount smallDisk) fileOps) smallPath.bytes [] 40000 plainEnv).2.inodes
      1).size = 40000 := by
    rw [e]
    decide +kernel
  refine ⟨by rw [e], by decide +kernel, hsize, fun hs => ?_⟩
  rw [run_append] at hs
  have hle := hs 1 (by decide +kernel) (by decide +kernel)
  rw [show ((run (run (mount smallDisk) fileOps) [(plainEnv, .write smallPath [] 40000)]).inodes 1).size =
    40000 from hsize] at hle
  exact absurd hle (by decide)

end SystemsPortfolio.Wfs
