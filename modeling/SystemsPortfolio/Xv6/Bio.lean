/-
SystemsPortfolio/Xv6/Bio.lean

The buffer cache of `bio.c` over the disk driver of `ide.c`.

A process gets a locked buffer for a block from `bread`, may change its contents, marks it
(`log_write`) or writes it (`bwrite`), and gives it back with `brelse`.  `bget` runs under
`bcache.lock`, the sleep lock of the buffer is taken afterwards; a buffer that has to be
read or written is put into the queue of the driver, whose interrupt handler serves the
first buffer and starts the next one.  A step of `BioStep` is what happens under one
spinlock.

The sleep lock of a buffer is its holder.  The disk controller has the request it was last
given by `idestart`, and an interrupt comes when that request is done.
-/
import SystemsPortfolio.Lib.CacheView
import SystemsPortfolio.Xv6.Log

namespace SystemsPortfolio.Xv6

open Transition

/-- Device and block number. -/
abbrev BlockId := Nat × Nat

/-- `struct buf`, without the links of the two lists. -/
structure Buf (ι : Type) where
  key : BlockId
  valid : Bool
  dirty : Bool
  lock : Option ι
  refcnt : Nat
  data : Block

/-- Where a process is: in its own code, in the loop of `acquiresleep` or asleep there, in
`bread` with the buffer locked, in the loop of `iderw` or asleep there, or in `brelse` with
the buffer unlocked. -/
inductive BioProc (β : Type)
  | run
  | acquiring (b : β)
  | lockSleep (b : β)
  | reading (b : β)
  | waiting (b : β)
  | ioSleep (b : β)
  | releasing (b : β)
deriving DecidableEq

/-- What the disk controller has been told to do. -/
inductive Request
  | read (a : BlockId)
  | write (a : BlockId) (data : Block)

/-- The panics of the two files. -/
inductive BioPanic
  | noBuffers
  | bwrite
  | brelse
  | notLocked
  | nothingToDo
  | noDisk
  | blockno
deriving DecidableEq

/-- The buffers `β`, the list of `bcache.head`, `idequeue`, the controller, the disks, and the
processes `ι`.  A buffer is touched if its holder has changed it since it was last marked or
written. -/
structure BioState (ι β : Type) where
  buf : β → Buf ι
  order : List β
  queue : List β
  ctl : Option Request
  disk : BlockId → Block
  proc : ι → BioProc β
  touched : β → Bool
  panicked : Option BioPanic

namespace BioState

variable {ι β : Type} [DecidableEq ι] [DecidableEq β]

def setProc (s : BioState ι β) (t : ι) (p : BioProc β) : BioState ι β :=
  { s with proc := Function.update s.proc t p }

def setBuf (s : BioState ι β) (b : β) (x : Buf ι) : BioState ι β :=
  { s with buf := Function.update s.buf b x }

def panic (s : BioState ι β) (p : BioPanic) : BioState ι β := { s with panicked := some p }

/-- Is the block already cached? -/
def cached (s : BioState ι β) (a : BlockId) : Option β :=
  s.order.find? fun b => (s.buf b).key = a

/-- The buffer to recycle, searched from the end of the list. -/
def unused (s : BioState ι β) : Option β :=
  s.order.reverse.find? fun b => (s.buf b).refcnt = 0 ∧ (s.buf b).dirty = false

/-- `bget` up to the release of `bcache.lock`. -/
def bget (s : BioState ι β) (t : ι) (a : BlockId) : BioState ι β :=
  match s.cached a with
  | some b =>
      (s.setBuf b { s.buf b with refcnt := (s.buf b).refcnt + 1 }).setProc t (.acquiring b)
  | none =>
      match s.unused with
      | some b =>
          (s.setBuf b { s.buf b with key := a, valid := false, dirty := false, refcnt := 1 }).setProc
            t (.acquiring b)
      | none => s.panic .noBuffers

/-- One pass of the loop of `acquiresleep`. -/
def acquiresleep (s : BioState ι β) (t : ι) (b : β) : BioState ι β :=
  if (s.buf b).lock.isSome then s.setProc t (.lockSleep b)
  else (s.setBuf b { s.buf b with lock := some t }).setProc t (.reading b)

/-- The sector that `idestart` addresses: `dev & 1` selects the disk. -/
def sector (a : BlockId) : BlockId := (a.1 % 2, a.2)

def idestart (s : BioState ι β) (b : β) : BioState ι β :=
  if fsSize ≤ (s.buf b).key.2 then s.panic .blockno
  else { s with ctl := some (if (s.buf b).dirty then .write (sector (s.buf b).key) (s.buf b).data
                             else .read (sector (s.buf b).key)) }

/-- A buffer is put at the end of the queue. -/
def enqueue (s : BioState ι β) (t : ι) (b : β) : BioState ι β :=
  ({ s with queue := s.queue ++ [b] } : BioState ι β).setProc t (.waiting b)

/-- `iderw` up to the loop that waits. -/
def iderw (havedisk1 : Bool) (s : BioState ι β) (t : ι) (b : β) : BioState ι β :=
  if (s.buf b).lock ≠ some t then s.panic .notLocked
  else if (s.buf b).valid = true ∧ (s.buf b).dirty = false then s.panic .nothingToDo
  else if (s.buf b).key.1 ≠ 0 ∧ havedisk1 = false then s.panic .noDisk
  else if (s.enqueue t b).queue.head? = some b then (s.enqueue t b).idestart b
  else s.enqueue t b

/-- One pass of the loop of `iderw`. -/
def iowait (s : BioState ι β) (t : ι) (b : β) : BioState ι β :=
  if (s.buf b).valid = true ∧ (s.buf b).dirty = false then s.setProc t .run
  else s.setProc t (.ioSleep b)

/-- `bread` with the buffer from `bget`. -/
def bread (havedisk1 : Bool) (s : BioState ι β) (t : ι) (b : β) : BioState ι β :=
  if (s.buf b).valid then s.setProc t .run else s.iderw havedisk1 t b

/-- The holder changes the contents. -/
def modify (s : BioState ι β) (b : β) (data : Block) : BioState ι β :=
  { s.setBuf b { s.buf b with data := data } with touched := Function.update s.touched b true }

/-- `b->flags |= B_DIRTY`, as `log_write` and `bwrite` do. -/
def mark (s : BioState ι β) (b : β) : BioState ι β :=
  { s.setBuf b { s.buf b with dirty := true } with touched := Function.update s.touched b false }

def bwrite (havedisk1 : Bool) (s : BioState ι β) (t : ι) (b : β) : BioState ι β :=
  if (s.buf b).lock ≠ some t then s.panic .bwrite else (s.mark b).iderw havedisk1 t b

/-- `brelse` up to `releasesleep`, which wakes those who wait for the lock. -/
def brelse (s : BioState ι β) (t : ι) (b : β) : BioState ι β :=
  if (s.buf b).lock ≠ some t then s.panic .brelse
  else
    { s.setBuf b { s.buf b with lock := none } with
      proc := fun u => if u = t then .releasing b
        else if s.proc u = .lockSleep b then .acquiring b else s.proc u }

/-- The rest of `brelse`: a buffer that nobody uses goes to the front of the list. -/
def unref (s : BioState ι β) (t : ι) (b : β) : BioState ι β :=
  let s' := (s.setBuf b { s.buf b with refcnt := (s.buf b).refcnt - 1 }).setProc t .run
  if (s.buf b).refcnt - 1 = 0 then { s' with order := b :: s.order.erase b } else s'

/-- What the disk does for the controller. -/
def served (s : BioState ι β) : BlockId → Block :=
  match s.ctl with
  | some (.write a data) => Function.update s.disk a data
  | _ => s.disk

/-- What `insl` finds at the controller. -/
def found (s : BioState ι β) (old : Block) : Block :=
  match s.ctl with
  | some (.read a) => s.disk a
  | _ => old

/-- The interrupt handler takes the first buffer from the queue, after the disk has done its
request; `ok` is the result of `idewait(1)`. -/
def serve (s : BioState ι β) (b : β) (rest : List β) (ok : Bool) : BioState ι β :=
  { s.setBuf b { s.buf b with
      data := if (s.buf b).dirty = false ∧ ok = true then s.found (s.buf b).data else (s.buf b).data
      valid := true
      dirty := false } with
    disk := s.served
    queue := rest
    ctl := none
    -- `wakeup(b)`
    proc := fun u => if s.proc u = .ioSleep b then .waiting b else s.proc u }

/-- The interrupt handler. -/
def ideintr (s : BioState ι β) (ok : Bool) : BioState ι β :=
  match s.queue with
  | [] => s
  | b :: rest =>
      match rest with
      | [] => s.serve b [] ok
      | b' :: rest' => (s.serve b (b' :: rest') ok).idestart b'

end BioState

/-! ### Steps -/

/-- What a process does to a block, as the others see it. -/
inductive BlockAct (ι : Type)
  | take (t : ι) (a : BlockId)
  | write (t : ι) (a : BlockId) (data : Block)
  | give (t : ι) (a : BlockId)

section steps

variable {ι β : Type} [DecidableEq ι] [DecidableEq β]

/-- A pass of the loop of `acquiresleep` takes the block if nobody has it. -/
def BioState.taking (s : BioState ι β) (t : ι) (b : β) : Option (BlockAct ι) :=
  if (s.buf b).lock.isSome then none else some (.take t (s.buf b).key)

/-- One step, with what it does to a block.  Processes use the buffers they have got from `bread`,
ask for blocks of the two disks only, and give no buffer back that they have changed without
marking it.  If not `reliable`, the disk may fail to read. -/
inductive BioStep (havedisk1 : Bool) (reliable : Prop) :
    Option (BlockAct ι) → BioState ι β → BioState ι β → Prop
  | bget (s : BioState ι β) (t : ι) (a : BlockId) (hp : s.proc t = .run) (ha : a.1 < 2)
      (hk : s.panicked = none) : BioStep havedisk1 reliable none s (s.bget t a)
  | acquiresleep (s : BioState ι β) (t : ι) (b : β) (hp : s.proc t = .acquiring b)
      (hk : s.panicked = none) :
      BioStep havedisk1 reliable (s.taking t b) s (s.acquiresleep t b)
  | bread (s : BioState ι β) (t : ι) (b : β) (hp : s.proc t = .reading b)
      (hk : s.panicked = none) : BioStep havedisk1 reliable none s (s.bread havedisk1 t b)
  | iowait (s : BioState ι β) (t : ι) (b : β) (hp : s.proc t = .waiting b)
      (hk : s.panicked = none) : BioStep havedisk1 reliable none s (s.iowait t b)
  | modify (s : BioState ι β) (t : ι) (b : β) (data : Block) (hp : s.proc t = .run)
      (hl : (s.buf b).lock = some t) (hk : s.panicked = none) :
      BioStep havedisk1 reliable (some (.write t (s.buf b).key data)) s (s.modify b data)
  | mark (s : BioState ι β) (t : ι) (b : β) (hp : s.proc t = .run)
      (hl : (s.buf b).lock = some t) (hk : s.panicked = none) :
      BioStep havedisk1 reliable none s (s.mark b)
  | bwrite (s : BioState ι β) (t : ι) (b : β) (hp : s.proc t = .run)
      (hl : (s.buf b).lock = some t) (hk : s.panicked = none) :
      BioStep havedisk1 reliable none s (s.bwrite havedisk1 t b)
  | brelse (s : BioState ι β) (t : ι) (b : β) (hp : s.proc t = .run)
      (hl : (s.buf b).lock = some t) (ht : s.touched b = false) (hk : s.panicked = none) :
      BioStep havedisk1 reliable (some (.give t (s.buf b).key)) s (s.brelse t b)
  | unref (s : BioState ι β) (t : ι) (b : β) (hp : s.proc t = .releasing b)
      (hk : s.panicked = none) : BioStep havedisk1 reliable none s (s.unref t b)
  | ideintr (s : BioState ι β) (ok : Bool) (hok : reliable → ok = true) (hk : s.panicked = none) :
      BioStep havedisk1 reliable none s (s.ideintr ok)

/-- The buffers after `binit`, which all have the number of block zero of device zero. -/
def bioMachine (havedisk1 : Bool) (reliable : Prop) :
    Labelled (BioState ι β) (Option (BlockAct ι)) where
  init s := (∀ b, ∃ data, s.buf b = ⟨(0, 0), false, false, none, 0, data⟩) ∧ s.order.Nodup ∧
    (∀ b, b ∈ s.order) ∧ s.queue = [] ∧ s.ctl = none ∧ (∀ t, s.proc t = .run) ∧
    (∀ b, s.touched b = false) ∧ s.panicked = none
  step := BioStep havedisk1 reliable

/-- The same without the labels. -/
def bioSystem (havedisk1 : Bool) (reliable : Prop) : System (BioState ι β) :=
  (bioMachine havedisk1 reliable).system

end steps

end SystemsPortfolio.Xv6
