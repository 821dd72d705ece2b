/-
SystemsPortfolio/Xv6/Log.lean

The file system log of `log.c`: operations of many processes, their common commit,
crashes and recovery.

File system calls run between `begin_op` and `end_op` and change blocks in the buffer
cache; `log_write` lists each changed block in the header `log.lh`.  The last call to
end commits: it copies the listed blocks to the log, writes the header, installs the
copies at their homes and clears the header, one block write after the other.  After a
crash `recover_from_log` repeats the installation.  A step of `LogStep` is what happens
between two points where another process can run or the machine can stop; the write of
one block is atomic, as that of a disk sector is.

`cache b` stands for what a process that reads block `b` gets to see: the buffer if the
block is cached, the disk if not.  Blocks listed in `log.lh` are marked dirty and stay in
the cache.
-/
import SystemsPortfolio.Lib.ByteStore
import SystemsPortfolio.Lib.RedoLog
import SystemsPortfolio.Lib.Transition
import Mathlib.Algebra.BigOperators.Group.Finset.Basic
import Mathlib.Data.Fintype.Basic

namespace SystemsPortfolio.Xv6

open ByteStore RedoLog Transition

/-- The bytes of a block, by their offset. -/
abbrev Block := Store

/-- `MAXOPBLOCKS`. -/
def maxOpBlocks : Nat := 10

/-- `LOGSIZE`. -/
def logSize : Nat := 30

/-- `FSSIZE`: `idestart` panics for blocks beyond it. -/
def fsSize : Nat := 1000

/-! ### The header block -/

/-- `hb->block[i] = ..` for the entries from `i` on. -/
def storeEntries (blk : Block) (i : Nat) : List Nat → Block
  | [] => blk
  | b :: lh => storeEntries (storeInt blk (4 + 4 * (i : Int)) 4 b) (i + 1) lh

/-- What `write_head` makes of the header block: `hb->n` and the first `n` entries. -/
def headerBlock (blk : Block) (lh : List Nat) : Block :=
  storeEntries (storeInt blk 0 4 lh.length) 0 lh

/-- What `read_head` takes from the header block. -/
def readHeader (blk : Block) : List Nat :=
  (List.range (loadInt blk 0 4).toNat).map fun i : Nat => (loadInt blk (4 + 4 * (i : Int)) 4).toNat

theorem loadInt_storeEntries_lt {blk : Block} {i : Nat} {lh : List Nat} {a : Int}
    (h : a + 4 ≤ 4 + 4 * (i : Int)) : loadInt (storeEntries blk i lh) a 4 = loadInt blk a 4 := by
  induction lh generalizing blk i with
  | nil => rfl
  | cons b lh ih =>
      rw [storeEntries, ih (by push_cast; omega)]
      exact loadInt_storeInt_disjoint (Or.inl h)

theorem loadInt_storeEntries {blk : Block} {i : Nat} {lh : List Nat} (hlh : ∀ b ∈ lh, b < 2 ^ 31)
    {j : Nat} (hj : j < lh.length) :
    loadInt (storeEntries blk i lh) (4 + 4 * ((i + j : Nat) : Int)) 4 = lh[j] := by
  induction lh generalizing blk i j with
  | nil => cases hj
  | cons b lh ih =>
      rw [storeEntries]
      rcases j with - | j
      · have hb : b < 2 ^ 31 := hlh b List.mem_cons_self
        show loadInt _ (4 + 4 * (i : Int)) 4 = (b : Int)
        rw [loadInt_storeEntries_lt (by push_cast; omega), loadInt_storeInt_same,
          Int.bmod_eq_of_le] <;> omega
      · have hrest := @ih (storeInt blk (4 + 4 * (i : Int)) 4 b) (i + 1)
          (fun c hc => hlh c (List.mem_cons_of_mem _ hc)) j (by simpa using hj)
        rw [List.getElem_cons_succ, ← hrest]
        congr 2
        omega

/-- What is written into the header is read back from it. -/
theorem readHeader_headerBlock (blk : Block) {lh : List Nat} (hlen : lh.length ≤ logSize)
    (hlh : ∀ b ∈ lh, b < fsSize) : readHeader (headerBlock blk lh) = lh := by
  have hlt : ∀ b ∈ lh, b < 2 ^ 31 := fun b hb => (hlh b hb).trans (by decide)
  have hn : loadInt (headerBlock blk lh) 0 4 = lh.length := by
    have : logSize = 30 := rfl
    rw [headerBlock, loadInt_storeEntries_lt (by decide), loadInt_storeInt_same,
      Int.bmod_eq_of_le] <;> omega
  rw [readHeader, hn, Int.toNat_natCast]
  refine List.ext_getElem (by simp) fun j hj hj' => ?_
  rw [List.getElem_map, List.getElem_range, headerBlock]
  have hentry := @loadInt_storeEntries (storeInt blk 0 4 lh.length) 0 lh hlt j hj'
  rw [Nat.zero_add] at hentry
  rw [hentry, Int.toNat_natCast]

/-! ### States -/

/-- What a process is doing with the log: nothing, the loop of `begin_op`, sleeping on the
log's channel, between `begin_op` and `end_op` having changed the blocks `w`, within a
`log_write` whose checks have passed, or in `commit`. -/
inductive LogProc
  | idle
  | begin
  | asleep
  | inOp (w : List Nat)
  | logging (w : List Nat) (b : Nat) (data : Block)
  | commit

/-- The block writes that are left to do, of a commit or of recovery. -/
inductive Task
  | none
  | writeLog (tail : Nat)
  | writeHead
  | install (tail : Nat)
  | clear
  | done
  | readHead
  | reinstall (tail : Nat)
  | reclear
deriving DecidableEq

/-- Recovery has not finished. -/
def Task.recovering : Task → Bool
  | .readHead | .reinstall _ | .reclear => true
  | _ => false

/-- The disk, the cache, `struct log`, and the processes `ι`. -/
structure LogState (ι : Type) where
  disk : Nat → Block
  cache : Nat → Block
  lh : List Nat
  outstanding : Nat
  committing : Bool
  task : Task
  proc : ι → LogProc
  panicked : Bool

namespace LogState

variable {ι : Type}

/-- A block of the cache is changed and written to the disk. -/
def bwrite (s : LogState ι) (b : Nat) (data : Block) : LogState ι :=
  { s with cache := Function.update s.cache b data, disk := Function.update s.disk b data }

/-- `wakeup(&log)`. -/
def wakeup (s : LogState ι) : LogState ι :=
  { s with proc := fun t => match s.proc t with
      | .asleep => .begin
      | p => p }

/-- `begin_op` has to wait. -/
def mustWait (s : LogState ι) : Prop :=
  s.committing = true ∨ logSize < s.lh.length + (s.outstanding + 1) * maxOpBlocks

instance (s : LogState ι) : Decidable s.mustWait := inferInstanceAs (Decidable (_ ∨ _))

/-- One pass of the loop of `begin_op`. -/
def beginOp [DecidableEq ι] (s : LogState ι) (t : ι) : LogState ι :=
  if s.mustWait then { s with proc := Function.update s.proc t .asleep }
  else { s with
    outstanding := s.outstanding + 1
    proc := Function.update s.proc t (.inOp []) }

/-- The checks at the head of `log_write`, which are made without the lock. -/
def logCheck [DecidableEq ι] (size : Nat) (s : LogState ι) (t : ι) (w : List Nat) (b : Nat)
    (data : Block) : LogState ι :=
  if logSize ≤ s.lh.length ∨ size - 1 ≤ s.lh.length ∨ s.outstanding < 1 then
    { s with panicked := true }
  else { s with proc := Function.update s.proc t (.logging w b data) }

/-- The rest of `log_write`: the block is listed, unless it is there already. -/
def logWrite [DecidableEq ι] (s : LogState ι) (t : ι) (w : List Nat) (b : Nat) (data : Block) :
    LogState ι :=
  { s with
    cache := Function.update s.cache b data
    lh := absorb s.lh b
    proc := Function.update s.proc t (.inOp (absorb w b)) }

/-- `end_op` up to the release of the lock. -/
def endOp [DecidableEq ι] (s : LogState ι) (t : ι) : LogState ι :=
  if s.committing then { s with panicked := true }
  else if s.outstanding - 1 = 0 then
    { s with
      outstanding := s.outstanding - 1
      committing := true
      -- `commit` does nothing for an empty header
      task := if s.lh = [] then .done else .writeLog 0
      proc := Function.update s.proc t .commit }
  else wakeup { s with
    outstanding := s.outstanding - 1
    proc := Function.update s.proc t .idle }

/-- The next block write of a commit or of recovery. -/
def work (start : Nat) (s : LogState ι) : LogState ι :=
  match s.task with
  | .none | .done => s
  | .writeLog tail =>
      if tail < s.lh.length then
        { s.bwrite (start + tail + 1) (s.cache (s.lh.getD tail 0)) with task := .writeLog (tail + 1) }
      else { s with task := .writeHead }
  | .writeHead => { s.bwrite start (headerBlock (s.cache start) s.lh) with task := .install 0 }
  | .install tail =>
      if tail < s.lh.length then
        { s.bwrite (s.lh.getD tail 0) (s.cache (start + tail + 1)) with task := .install (tail + 1) }
      else { s with lh := [], task := .clear }
  | .clear => { s.bwrite start (headerBlock (s.cache start) s.lh) with task := .done }
  | .readHead => { s with lh := readHeader (s.cache start), task := .reinstall 0 }
  | .reinstall tail =>
      if tail < s.lh.length then
        { s.bwrite (s.lh.getD tail 0) (s.cache (start + tail + 1)) with task := .reinstall (tail + 1) }
      else { s with lh := [], task := .reclear }
  | .reclear => { s.bwrite start (headerBlock (s.cache start) s.lh) with task := .none }

/-- The end of `end_op` after a commit. -/
def endCommit [DecidableEq ι] (s : LogState ι) (t : ι) : LogState ι :=
  wakeup { s with
    committing := false
    task := .none
    proc := Function.update s.proc t .idle }

/-- The machine stops and starts again: what was in memory is lost. -/
def crash (s : LogState ι) : LogState ι where
  disk := s.disk
  cache := s.disk
  lh := []
  outstanding := 0
  committing := false
  task := .readHead
  proc := fun _ => .idle
  panicked := false

end LogState

/-! ### Steps -/

/-- What is seen of a step: an operation begins, writes a block or ends, what the operations have
written is committed, or the machine stops. -/
inductive LogAct (ι : Type)
  | begin (t : ι)
  | write (t : ι) (b : Nat) (data : Block)
  | finish (t : ι)
  | commit
  | crash

variable {ι : Type} [DecidableEq ι]

/-- A pass of the loop of `begin_op` begins the operation if it need not wait. -/
def LogState.beginning (s : LogState ι) (t : ι) : Option (LogAct ι) :=
  if s.mustWait then none else some (.begin t)

/-- The write of the header is the commit. -/
def Task.act (ι : Type) : Task → Option (LogAct ι)
  | .writeHead => Option.some .commit
  | .none | .writeLog _ | .install _ | .clear | .done | .readHead | .reinstall _ | .reclear =>
      Option.none

/-- One step, with a log of `size` blocks from block `start` on, of operations that change at
most `k` different blocks each, none of them in the log. -/
inductive LogStep (start size k : Nat) : Option (LogAct ι) → LogState ι → LogState ι → Prop
  | call (s : LogState ι) (t : ι) (hp : s.proc t = .idle) (ht : s.task.recovering = false)
      (hk : s.panicked = false) :
      LogStep start size k none s { s with proc := Function.update s.proc t .begin }
  | beginOp (s : LogState ι) (t : ι) (hp : s.proc t = .begin) (hk : s.panicked = false) :
      LogStep start size k (s.beginning t) s (s.beginOp t)
  | logCheck (s : LogState ι) (t : ι) (w : List Nat) (b : Nat) (data : Block)
      (hp : s.proc t = .inOp w) (hw : (absorb w b).length ≤ k) (hb : ¬ Region start size b)
      (hfs : b < fsSize) (hk : s.panicked = false) :
      LogStep start size k none s (s.logCheck size t w b data)
  | logWrite (s : LogState ι) (t : ι) (w : List Nat) (b : Nat) (data : Block)
      (hp : s.proc t = .logging w b data) (hk : s.panicked = false) :
      LogStep start size k (some (.write t b data)) s (s.logWrite t w b data)
  | endOp (s : LogState ι) (t : ι) (w : List Nat) (hp : s.proc t = .inOp w)
      (hk : s.panicked = false) : LogStep start size k (some (.finish t)) s (s.endOp t)
  | work (s : LogState ι) (ht : s.task ≠ .none ∧ s.task ≠ .done) (hk : s.panicked = false) :
      LogStep start size k (s.task.act ι) s (s.work start)
  | endCommit (s : LogState ι) (t : ι) (hp : s.proc t = .commit) (ht : s.task = .done)
      (hk : s.panicked = false) : LogStep start size k none s (s.endCommit t)
  | crash (s : LogState ι) : LogStep start size k (some .crash) s s.crash

/-- The machine is switched on with a disk whose log is empty, as `mkfs` leaves it. -/
def logMachine (start size k : Nat) : Labelled (LogState ι) (Option (LogAct ι)) where
  init s := ∃ s₀ : LogState ι, readHeader (s₀.disk start) = [] ∧ s = s₀.crash
  step := LogStep start size k

/-- The same without the labels. -/
def logSystem (start size k : Nat) : System (LogState ι) := (logMachine start size k).system

end SystemsPortfolio.Xv6
