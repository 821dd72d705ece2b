/-
SystemsPortfolio/Wfs/Disk.lean

The disk image of WFS (`wfs.h`) and the image `mkfs` writes (`mkfs.c`).

The source maps the image into memory and reaches everything by pointer
arithmetic.  The model keeps the five regions of the image apart:

    superblock | inode bitmap | data bitmap | inode table | data blocks

The first four are values of their own; the data blocks are a flat store of
bytes addressed by the *absolute* byte offset in the image, so that
`(char *)mregion + off` of the source is the address `off` here and the
pointer arithmetic of `data_offset`, of the directory code and of the
indirect block is kept as it stands.  The sizes of the source:

    BLOCK_SIZE 512   sizeof(struct wfs_sb)      48   D_BLOCK    6
    MAX_NAME    28   sizeof(struct wfs_dentry)  32   IND_BLOCK  7
                     sizeof(off_t)               8   N_BLOCKS   8

`setup_sb` computes in `int`.  Its arithmetic wraps here (`cInt`), and
`SetupNoOverflow` says for which arguments no signed overflow happens.  An
overflowing call has no defined behaviour, and `wfsMkfs` gives no image for
it; on every other accepted call the regions are disjoint and in order
(`setupSb_layout`), which is what keeping them apart rests on.
-/
import SystemsPortfolio.Lib.ByteStore
import SystemsPortfolio.Lib.WordSet

namespace SystemsPortfolio.Wfs

open ByteStore

/-! ### Error numbers -/

abbrev EPERM : Int := 1
abbrev ENOENT : Int := 2
abbrev EBUSY : Int := 16
abbrev EEXIST : Int := 17
abbrev ENOTDIR : Int := 20
abbrev EISDIR : Int := 21
abbrev EINVAL : Int := 22
abbrev ENOSPC : Int := 28
abbrev ERANGE : Int := 34
abbrev ENAMETOOLONG : Int := 36
abbrev ENOTEMPTY : Int := 39
abbrev ENOTSUP : Int := 95

/-! ### On-disk structures -/

/-- `struct wfs_sb`. -/
structure Sb where
  numInodes : Nat
  numDataBlocks : Nat
  iBitmapPtr : Int
  dBitmapPtr : Int
  iBlocksPtr : Int
  dBlocksPtr : Int
  deriving DecidableEq, Repr

/-- `wfs_color_t`, less its limit marker. -/
inductive Color
  | none | red | green | blue | yellow | magenta | cyan | white | black | orange | purple | gray
  deriving DecidableEq, Repr

/-- `struct wfs_inode`.  Of `blocks` only the indices below `N_BLOCKS` are
ever used: `0..5` are the direct blocks, `7` is the indirect block. -/
structure Inode where
  num : Int
  mode : BitVec 32
  uid : BitVec 32
  gid : BitVec 32
  size : Int
  nlinks : Int
  atim : Int
  mtim : Int
  ctim : Int
  color : Color
  blocks : Nat → Int

/-- An inode slot after `memset(inode, 0, sizeof(struct wfs_inode))`. -/
def Inode.zero : Inode where
  num := 0
  mode := 0
  uid := 0
  gid := 0
  size := 0
  nlinks := 0
  atim := 0
  mtim := 0
  ctim := 0
  color := .none
  blocks := fun _ => 0

/-- The disk image, region by region. -/
structure Disk where
  sb : Sb
  ibm : WordSet.Words
  dbm : WordSet.Words
  inodes : Nat → Inode
  data : Store

/-- The mounted file system: the image and the global `wfs_error`. -/
structure Fs extends Disk where
  wfsError : Int

/-- `S_ISDIR(mode)`. -/
def isDir (mode : BitVec 32) : Bool := mode &&& 0o170000#32 = 0o040000#32

/-- `S_ISREG(mode)`. -/
def isReg (mode : BitVec 32) : Bool := mode &&& 0o170000#32 = 0o100000#32

/-- `S_ISFIFO(mode)`. -/
def isFifo (mode : BitVec 32) : Bool := mode &&& 0o170000#32 = 0o010000#32

theorem isDir_dirMode (mode : BitVec 32) : isDir (0o040000#32 ||| (mode &&& 0o777#32)) = true := by
  have h : mode &&& 0o777#32 &&& 0o170000#32 = 0#32 := by
    rw [BitVec.and_assoc]
    simp
  unfold isDir
  rw [BitVec.and_comm, BitVec.and_or_distrib_left, BitVec.and_comm _ (mode &&& _), h]
  decide

theorem isReg_regMode (mode : BitVec 32) : isReg (0o100000#32 ||| (mode &&& 0o777#32)) = true := by
  have h : mode &&& 0o777#32 &&& 0o170000#32 = 0#32 := by
    rw [BitVec.and_assoc]
    simp
  unfold isReg
  rw [BitVec.and_comm, BitVec.and_or_distrib_left, BitVec.and_comm _ (mode &&& _), h]
  decide

theorem isDir_eq_false_of_isReg {mode : BitVec 32} (h : isReg mode = true) : isDir mode = false := by
  unfold isReg at h
  unfold isDir
  rw [of_decide_eq_true h]
  decide

/-- What an operation gets from its surroundings: the value of `time(NULL)` at
each place that asks for it, the caller's ids, and whether the calling
process is `ls`. -/
structure Env where
  now : Nat → Int
  uid : BitVec 32
  gid : BitVec 32
  isLs : Bool

/-- `wfs_update_times` with the current time `now`. -/
def wfsUpdateTimes (ino : Inode) (now : Int) (updateAtime updateMtime updateCtime : Bool) : Inode :=
  { ino with
    atim := if updateAtime then now else ino.atim
    mtim := if updateMtime then now else ino.mtim
    ctim := if updateCtime then now else ino.ctim }

/-! ### `mkfs` -/

/-- An `int` result, with wrap-around. -/
def cInt (x : Int) : Int := Int.bmod x (2 ^ 32)

/-- Conversion to `size_t`. -/
def sizeT (x : Int) : Nat := (x % 2 ^ 64).toNat

/-- `roundup`. -/
def roundup (num factor : Int) : Int :=
  if num.tmod factor = 0 then num else cInt (num + (factor - num.tmod factor))

/-- `setup_sb`: the superblock, and whether the layout is accepted. -/
def setupSb (inodes blocks : Int) (sz : Nat) : Sb × Bool :=
  let inodes := roundup inodes 32
  let blocks := roundup blocks 32
  let iBitmapPtr : Int := 48
  let dBitmapPtr := iBitmapPtr + inodes.tdiv 8
  let iBlocksPtr := dBitmapPtr + blocks.tdiv 8
  let dBlocksPtr := iBlocksPtr + cInt (inodes * 512)
  let need := (sizeT iBlocksPtr + sizeT inodes * 512 + sizeT blocks * 512) % 2 ^ 64
  ({ numInodes := sizeT inodes
     numDataBlocks := sizeT blocks
     iBitmapPtr, dBitmapPtr, iBlocksPtr, dBlocksPtr }, decide (need < sz))

/-- No `int` operation of `setup_sb` overflows: the two `roundup`s stay within
`INT_MAX` and so does the size of the inode table. -/
def SetupNoOverflow (inodes blocks : Int) : Prop :=
  inodes ≤ 2147483616 ∧ blocks ≤ 2147483616 ∧ roundup inodes 32 * 512 ≤ 2147483647

instance (inodes blocks : Int) : Decidable (SetupNoOverflow inodes blocks) :=
  inferInstanceAs (Decidable (_ ∧ _ ∧ _))

/-- The root inode `wfs_mkfs` writes. -/
def rootInode (env : Env) : Inode :=
  { Inode.zero with
    num := 0
    mode := 0o040000#32 ||| 0o700#32
    uid := env.uid
    gid := env.gid
    size := 0
    nlinks := 1
    color := .none
    atim := env.now 0
    mtim := env.now 0
    ctim := env.now 0 }

/-- `wfs_mkfs` (with the argument check of its `main`) on an image that holds
`img`: the superblock, the first word of the inode bitmap and the root inode
are written, the rest of the image is left as it is. -/
def wfsMkfs (img : Disk) (inodes blocks : Int) (sz : Nat) (env : Env) : Option Disk :=
  if 0 < inodes ∧ 0 < blocks ∧ SetupNoOverflow inodes blocks then
    match setupSb inodes blocks sz with
    | (_, false) => none
    | (sb, true) =>
        some { img with
          sb := sb
          ibm := Function.update img.ibm 0 1#32
          inodes := Function.update img.inodes 0 (rootInode env) }
  else none

/-- An image made by `mkfs` on a disk whose bitmaps were zero.  The inode table
and the data blocks may hold anything. -/
def MkfsImage (d : Disk) : Prop :=
  ∃ img inodes blocks sz env, (∀ w, img.ibm w = 0#32) ∧ (∀ w, img.dbm w = 0#32) ∧
    wfsMkfs img inodes blocks sz env = some d

/-- An image made by `mkfs` on a disk of zeros, as the comment in `wfs_mkfs`
asks of the script that creates it. -/
def ZeroedMkfsImage (d : Disk) : Prop :=
  ∃ img inodes blocks sz env, (∀ w, img.ibm w = 0#32) ∧ (∀ w, img.dbm w = 0#32) ∧
    (∀ i, img.inodes i = Inode.zero) ∧ (∀ x, img.data x = 0) ∧
    wfsMkfs img inodes blocks sz env = some d

theorem ZeroedMkfsImage.mkfsImage {d : Disk} (h : ZeroedMkfsImage d) : MkfsImage d := by
  obtain ⟨img, inodes, blocks, sz, env, hi, hd, -, -, hm⟩ := h
  exact ⟨img, inodes, blocks, sz, env, hi, hd, hm⟩

/-! ### The layout of an `mkfs` image -/

theorem roundup_spec {n : Int} (h₁ : 0 < n) (h₂ : n ≤ 2147483616) :
    ∃ k : Int, roundup n 32 = 32 * k ∧ n ≤ roundup n 32 ∧ roundup n 32 < n + 32 ∧
      roundup n 32 ≤ 2147483616 := by
  have hmod : n.tmod 32 = n % 32 := Int.tmod_eq_emod_of_nonneg (by omega)
  unfold roundup
  rw [hmod]
  by_cases h : n % 32 = 0
  · rw [if_pos h]
    exact ⟨n / 32, by omega, by omega, by omega, by omega⟩
  · rw [if_neg h]
    have hfit : cInt (n + (32 - n % 32)) = n + (32 - n % 32) := by
      unfold cInt
      rw [Int.bmod_eq_of_le] <;> omega
    rw [hfit]
    exact ⟨n / 32 + 1, by omega, by omega, by omega, by omega⟩

/-- The facts about a superblock that the rest of the development uses: both
counts are positive multiples of 32 that fit in an `int`, and the data region
is inside what an `off_t` can address. -/
structure Sb.Ok (sb : Sb) : Prop where
  inodes_pos : 0 < sb.numInodes
  inodes_mod : sb.numInodes % 32 = 0
  inodes_lt : sb.numInodes < 2 ^ 31
  blocks_mod : sb.numDataBlocks % 32 = 0
  blocks_lt : sb.numDataBlocks < 2 ^ 31
  ptr_pos : 0 < sb.dBlocksPtr
  ptr_lt : sb.dBlocksPtr < 2 ^ 40

/-- The regions, with the counts and offsets stored in the superblock, follow
one another without overlap inside an image of `sz` bytes. -/
structure Sb.Layout (sb : Sb) (sz : Nat) : Prop where
  ibitmap : (48 : Int) ≤ sb.iBitmapPtr
  dbitmap : sb.iBitmapPtr + sb.numInodes / 8 ≤ sb.dBitmapPtr
  itable : sb.dBitmapPtr + sb.numDataBlocks / 8 ≤ sb.iBlocksPtr
  dblocks : sb.iBlocksPtr + sb.numInodes * 512 ≤ sb.dBlocksPtr
  size : sb.dBlocksPtr + sb.numDataBlocks * 512 ≤ sz

theorem sizeT_of_nonneg {x : Int} (h₁ : 0 ≤ x) (h₂ : x < 2 ^ 64) : (sizeT x : Int) = x := by
  unfold sizeT
  rw [Int.emod_eq_of_lt h₁ h₂, Int.toNat_of_nonneg h₁]

theorem setupSb_layout {inodes blocks : Int} {sz : Nat} {sb : Sb} (hi : 0 < inodes)
    (hb : 0 < blocks) (ho : SetupNoOverflow inodes blocks)
    (h : setupSb inodes blocks sz = (sb, true)) : sb.Ok ∧ sb.Layout sz := by
  obtain ⟨hi', hb', hprod⟩ := ho
  obtain ⟨k, hk, hle, hlt, hmax⟩ := roundup_spec hi hi'
  obtain ⟨l, hl, hle', hlt', hmax'⟩ := roundup_spec hb hb'
  unfold setupSb at h
  -- with the rounded counts in range, no conversion to `size_t` or `int` changes a value
  generalize roundup inodes 32 = I at *
  generalize roundup blocks 32 = B at *
  have hI : (sizeT I : Int) = I := sizeT_of_nonneg (by omega) (by omega)
  have hB : (sizeT B : Int) = B := sizeT_of_nonneg (by omega) (by omega)
  have hdI : I.tdiv 8 = I / 8 := Int.tdiv_eq_ediv_of_nonneg (by omega)
  have hdB : B.tdiv 8 = B / 8 := Int.tdiv_eq_ediv_of_nonneg (by omega)
  have hprod' : cInt (I * 512) = I * 512 := by
    unfold cInt
    rw [Int.bmod_eq_of_le] <;> omega
  have hptr : (sizeT (48 + I / 8 + B / 8) : Int) = 48 + I / 8 + B / 8 :=
    sizeT_of_nonneg (by omega) (by omega)
  simp only [hdI, hdB, hprod', Prod.mk.injEq, decide_eq_true_eq] at h
  obtain ⟨rfl, hneed⟩ := h
  have hmod : (sizeT (48 + I / 8 + B / 8) + sizeT I * 512 + sizeT B * 512) % 2 ^ 64
      = sizeT (48 + I / 8 + B / 8) + sizeT I * 512 + sizeT B * 512 :=
    Nat.mod_eq_of_lt (by omega)
  rw [hmod] at hneed
  refine ⟨⟨?_, ?_, ?_, ?_, ?_, ?_, ?_⟩, ⟨?_, ?_, ?_, ?_, ?_⟩⟩ <;> simp only [] <;> omega

/-- What `wfs_mkfs` leaves behind when it succeeds. -/
theorem wfsMkfs_eq_some {img d : Disk} {inodes blocks : Int} {sz : Nat} {env : Env}
    (h : wfsMkfs img inodes blocks sz env = some d) :
    d.sb.Ok ∧ d.sb.Layout sz ∧ d.ibm = Function.update img.ibm 0 1#32 ∧ d.dbm = img.dbm ∧
      d.inodes = Function.update img.inodes 0 (rootInode env) ∧ d.data = img.data := by
  unfold wfsMkfs at h
  by_cases hc : 0 < inodes ∧ 0 < blocks ∧ SetupNoOverflow inodes blocks
  · rw [if_pos hc] at h
    obtain ⟨hi, hb, ho⟩ := hc
    rcases hs : setupSb inodes blocks sz with ⟨sb, ok⟩
    rw [hs] at h
    cases ok with
    | false => cases h
    | true =>
        obtain rfl := Option.some.inj h
        obtain ⟨hok, hlay⟩ := setupSb_layout hi hb ho hs
        exact ⟨hok, hlay, rfl, rfl, rfl, rfl⟩
  · rw [if_neg hc] at h
    cases h

end SystemsPortfolio.Wfs
