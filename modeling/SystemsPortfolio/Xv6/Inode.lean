/-
SystemsPortfolio/Xv6/Inode.lean

The contents of files in `fs.c`: the allocator for blocks, the block map of an inode with its
twelve direct blocks and the indirect block, and `readi`, `writei` and `itrunc` over them.

The volume is what the log and the buffer cache show of the disk: the free map, the inodes and
the data blocks.  A process that works on an inode holds its lock, so an inode has at most one
operation under way; the operations of different inodes take turns, one block at a time, and
meet in the free map.  The map of a volume of up to 4096 blocks, such as the one that `mkfs`
makes, is in one buffer, so a search in it is one step.
-/
import SystemsPortfolio.Lib.ByteStore
import SystemsPortfolio.Lib.Transition
import Mathlib.Logic.Function.Basic

namespace SystemsPortfolio.Xv6

open ByteStore

/-! ### The volume -/

/-- `BSIZE` -/
def bsize : Nat := 512

/-- `NDIRECT` -/
def ndirect : Nat := 12

/-- `NINDIRECT` -/
def nindirect : Nat := 128

/-- `MAXFILE` -/
def maxfile : Nat := ndirect + nindirect

/-- The size and the block addresses of an inode. -/
structure FsInode where
  size : Nat
  addrs : Nat → Nat

/-- The operation that the holder of an inode's lock is in. -/
inductive FsOp
  | idle
  /-- in `readi` from offset `off` on: `left` bytes are to come, `got` are there -/
  | reading (off left : Nat) (got : List UInt8)
  /-- in `writei`: `src` goes to offset `off` -/
  | writing (off : Nat) (src : List UInt8)
  /-- in `itrunc`, before slot `k` of the block map -/
  | freeing (k : Nat)

inductive FsPanic
  | outOfBlocks
  | freeingFree
  | outOfRange
  deriving DecidableEq, Repr

/-- The volume, the cached inodes beside those on the disk, and the operations. -/
structure FsState where
  used : Nat → Bool
  data : Nat → Store
  inode : Nat → FsInode
  dinode : Nat → FsInode
  op : Nat → FsOp
  panicked : Option FsPanic

/-- Entry `j` of an indirect block. -/
def word (blk : Store) (j : Nat) : Nat := decode (load blk (4 * j) 4)

def setWord (blk : Store) (j v : Nat) : Store := store blk (4 * j) (encode 4 v)

namespace FsState

variable (s : FsState)

def panic (e : FsPanic) : FsState := { s with panicked := some e }

def setOp (i : Nat) (o : FsOp) : FsState := { s with op := Function.update s.op i o }

def setInode (i : Nat) (x : FsInode) : FsState := { s with inode := Function.update s.inode i x }

def setData (b : Nat) (x : Store) : FsState := { s with data := Function.update s.data b x }

/-- `iupdate` -/
def iupdate (i : Nat) : FsState := { s with dinode := Function.update s.dinode i (s.inode i) }

/-- `balloc`, on a volume of `sz` blocks: the first block that is free, marked and cleared. -/
def balloc (sz : Nat) : Except FsPanic (Nat × FsState) :=
  match (List.range sz).find? fun b => !s.used b with
  | none => .error .outOfBlocks
  | some b =>
      .ok (b, { s with used := Function.update s.used b true }.setData b (fill (s.data b) 0 bsize 0))

/-- `bfree` -/
def bfree (b : Nat) : FsState :=
  if s.used b then { s with used := Function.update s.used b false } else s.panic .freeingFree

/-! ### The block map -/

/-- Slot `k` of the block map: the direct blocks, at `ndirect` the indirect block, and then its
entries. -/
def slot (i k : Nat) : Nat :=
  if k ≤ ndirect then (s.inode i).addrs k
  else if (s.inode i).addrs ndirect = 0 then 0
  else word (s.data ((s.inode i).addrs ndirect)) (k - (ndirect + 1))

def setSlot (i k b : Nat) : FsState :=
  if k ≤ ndirect then
    s.setInode i { s.inode i with addrs := Function.update (s.inode i).addrs k b }
  else
    s.setData ((s.inode i).addrs ndirect)
      (setWord (s.data ((s.inode i).addrs ndirect)) (k - (ndirect + 1)) b)

/-- The block in a slot, allocated if there is none. -/
def slotAlloc (sz i k : Nat) : Except FsPanic (Nat × FsState) :=
  if s.slot i k = 0 then
    match s.balloc sz with
    | .error e => .error e
    | .ok (b, s') => .ok (b, s'.setSlot i k b)
  else .ok (s.slot i k, s)

/-- `bmap` -/
def bmap (sz i bn : Nat) : Except FsPanic (Nat × FsState) :=
  if bn < ndirect then s.slotAlloc sz i bn
  else if bn - ndirect < nindirect then
    match s.slotAlloc sz i ndirect with
    | .error e => .error e
    | .ok (_, s') => s'.slotAlloc sz i (ndirect + 1 + (bn - ndirect))
  else .error .outOfRange

/-! ### Reading, writing and truncating -/

/-- One turn of the loop of `writei`. -/
def writeBlock (sz i off : Nat) (src : List UInt8) : FsState :=
  match s.bmap sz i (off / bsize) with
  | .error e => s.panic e
  | .ok (b, s') =>
      let m := min src.length (bsize - off % bsize)
      (s'.setData b (store (s'.data b) ((off % bsize : Nat) : Int) (src.take m))).setOp i
        (.writing (off + m) (src.drop m))

/-- The end of `writei`. -/
def writeEnd (i off : Nat) : FsState :=
  if (s.inode i).size < off then
    ((s.setInode i { s.inode i with size := off }).iupdate i).setOp i .idle
  else s.setOp i .idle

/-- One turn of the loop of `readi`, which began at `off`. -/
def readBlock (sz i off left : Nat) (got : List UInt8) : FsState :=
  match s.bmap sz i ((off + got.length) / bsize) with
  | .error e => s.panic e
  | .ok (b, s') =>
      let m := min left (bsize - (off + got.length) % bsize)
      s'.setOp i (.reading off (left - m)
        (got ++ load (s'.data b) (((off + got.length) % bsize : Nat) : Int) m))

/-- The end of `itrunc`. -/
def truncEnd (i : Nat) : FsState :=
  ((s.setInode i { s.inode i with size := 0 }).iupdate i).setOp i .idle

/-- One step of `itrunc`. -/
def freeSlot (i k : Nat) : FsState :=
  if k < ndirect then
    if s.slot i k = 0 then s.setOp i (.freeing (k + 1))
    else ((s.bfree (s.slot i k)).setSlot i k 0).setOp i (.freeing (k + 1))
  else if k = ndirect then
    if s.slot i k = 0 then s.truncEnd i else s.setOp i (.freeing (k + 1))
  else if k ≤ ndirect + nindirect then
    if s.slot i k = 0 then s.setOp i (.freeing (k + 1))
    else (s.bfree (s.slot i k)).setOp i (.freeing (k + 1))
  else ((s.bfree (s.slot i ndirect)).setSlot i ndirect 0).truncEnd i

end FsState

/-- What a step does to a file. -/
inductive FileAct
  | write (i off : Nat) (bytes : List UInt8)
  | truncate (i : Nat)

/-- The file that it is done to. -/
def FileAct.inode : FileAct → Nat
  | write i _ _ => i
  | truncate i => i

/-- A turn of the loop of `writei` puts the bytes that fit into the block at `off`, unless `bmap`
panics. -/
def FsState.written (s : FsState) (sz i off : Nat) (src : List UInt8) : Option FileAct :=
  match s.bmap sz i (off / bsize) with
  | .error _ => none
  | .ok _ => some (.write i off (src.take (min src.length (bsize - off % bsize))))

/-- One step for some inode, on a volume of `sz` blocks, with what it does to the file.  `readi` and
`writei` turn down offsets behind the end, sums that wrap around, and writes beyond the largest
file. -/
inductive FsStep (sz : Nat) : Option FileAct → FsState → FsState → Prop
  | readi (s : FsState) (i off n : Nat) (h : s.op i = .idle) (hk : s.panicked = none)
      (hoff : off ≤ (s.inode i).size) (hn : n < 4294967296) (hsum : off ≤ (off + n) % 4294967296) :
      FsStep sz none s (s.setOp i (.reading off (min n ((s.inode i).size - off)) []))
  | readBlock (s : FsState) (i off left : Nat) (got : List UInt8)
      (h : s.op i = .reading off left got) (hleft : 0 < left) (hk : s.panicked = none) :
      FsStep sz none s (s.readBlock sz i off left got)
  | readEnd (s : FsState) (i off : Nat) (got : List UInt8) (h : s.op i = .reading off 0 got)
      (hk : s.panicked = none) : FsStep sz none s (s.setOp i .idle)
  | writei (s : FsState) (i off : Nat) (src : List UInt8) (h : s.op i = .idle)
      (hk : s.panicked = none) (hoff : off ≤ (s.inode i).size)
      (hn : src.length < 4294967296) (hsum : off ≤ (off + src.length) % 4294967296)
      (hmax : (off + src.length) % 4294967296 ≤ maxfile * bsize) :
      FsStep sz none s (s.setOp i (.writing off src))
  | writeBlock (s : FsState) (i off : Nat) (src : List UInt8) (h : s.op i = .writing off src)
      (hsrc : src ≠ []) (hk : s.panicked = none) :
      FsStep sz (s.written sz i off src) s (s.writeBlock sz i off src)
  | writeEnd (s : FsState) (i off : Nat) (h : s.op i = .writing off []) (hk : s.panicked = none) :
      FsStep sz none s (s.writeEnd i off)
  | itrunc (s : FsState) (i : Nat) (h : s.op i = .idle) (hk : s.panicked = none) :
      FsStep sz (some (.truncate i)) s (s.setOp i (.freeing 0))
  | freeSlot (s : FsState) (i k : Nat) (h : s.op i = .freeing k) (hk : s.panicked = none) :
      FsStep sz none s (s.freeSlot i k)

end SystemsPortfolio.Xv6
