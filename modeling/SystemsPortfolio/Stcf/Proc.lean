/-
SystemsPortfolio/Stcf/Proc.lean

The process table of the xv6 kernel with the STCF scheduler (`proc.c`, and the calls
of `sysproc.c` and `trap.c` that act on the table), for the build with `STCF` defined.

A process slot keeps the fields the scheduler and the life cycle of a process read;
memory, files and names are left out.  Time is the 32-bit counter `ticks`, and
`t_remain`, `t_last_scheduled` and `sleepticks` are 32-bit values that wrap, as do pids:
`nextpid` is an `int` that is only ever counted up.  Each function below is what one CPU does between taking `ptable.lock` and giving it back,
or passing it on through `sched`, and is one step.  A function that ends in `sched`
leaves its CPU without a process; the CPU gets one again from `dispatch`, and what the
process does first then, while the lock is still held, belongs to that step.
-/
import Mathlib.Data.List.FinRange
import Mathlib.Logic.Function.Basic

namespace SystemsPortfolio.Stcf

/-! ### Processes -/

/-- `NPROC`. -/
abbrev nproc : Nat := 64

/-- A slot of the process table. -/
abbrev Slot := Fin nproc

/-- `STCF_INIT_REMAIN`. -/
def stcfInitRemain : BitVec 32 := 0x7fffffff#32

/-- `enum procstate`. -/
inductive ProcState
  | unused
  | embryo
  | sleeping
  | runnable
  | running
  | zombie
  deriving DecidableEq, Repr

/-- What a process sleeps on: the tick counter, a process, or another kernel object. -/
inductive Chan
  | ticks
  | proc (i : Slot)
  | other (n : Nat)
  deriving DecidableEq, Repr

/-- `struct proc`; a null pointer is `none`. -/
structure Proc where
  state : ProcState
  pid : BitVec 32
  parent : Option Slot
  chan : Option Chan
  killed : Bool
  nclone : BitVec 32
  sleepticks : BitVec 32
  tRemain : BitVec 32
  tLastScheduled : BitVec 32
  skipOnce : Bool
  deriving DecidableEq, Repr

/-- A slot of the zeroed table. -/
def zeroProc : Proc :=
  { state := .unused, pid := 0, parent := none, chan := none, killed := false, nclone := 0,
    sleepticks := 0, tRemain := 0, tLastScheduled := 0, skipOnce := false }

/-- The table with the globals of `proc.c`, the tick counter, and for each CPU the
process it runs. -/
structure Kernel (C : Type*) where
  proc : Slot → Proc
  nextpid : BitVec 32
  initproc : Slot
  skipTarget : Option Slot
  ticks : BitVec 32
  cpu : C → Option Slot

variable {C : Type*} [DecidableEq C]

/-- Overwrite one slot. -/
def Kernel.setProc (k : Kernel C) (i : Slot) (p : Proc) : Kernel C :=
  { k with proc := Function.update k.proc i p }

/-! ### Accounting -/

/-- `stcf_account_before_switch`, with the result of `ticks_now`. -/
def stcfAccountBeforeSwitch (now : BitVec 32) (p : Proc) : Proc :=
  if 0 ≤ p.tLastScheduled.toInt then
    { p with tRemain := p.tRemain - (now - p.tLastScheduled) }
  else p

/-- The charge, the new state and `sched`: the common end of `yield`, `sleep` and
`exit`.  The CPU goes back to `scheduler`, which clears its process. -/
def Kernel.switchOut (k : Kernel C) (c : C) (cur : Slot) (st : ProcState) : Kernel C :=
  { k.setProc cur { stcfAccountBeforeSwitch k.ticks (k.proc cur) with state := st } with
    cpu := Function.update k.cpu c none }

/-- `yield` by the process `cur` of CPU `c`. -/
def Kernel.yield (k : Kernel C) (c : C) (cur : Slot) : Kernel C :=
  k.switchOut c cur .runnable

/-- `sleep` on `chan`, up to the switch; clearing `chan` again is part of `dispatch`. -/
def Kernel.sleep (k : Kernel C) (c : C) (cur : Slot) (chan : Option Chan) : Kernel C :=
  (k.setProc cur { k.proc cur with chan := chan }).switchOut c cur .sleeping

/-! ### Waking -/

/-- The loop body of `wakeup1`. -/
def wakeProc (chan : Option Chan) (p : Proc) : Proc :=
  if p.state = .sleeping ∧ p.chan = chan then { p with state := .runnable } else p

/-- `wakeup1`. -/
def wakeup1 (chan : Option Chan) (proc : Slot → Proc) : Slot → Proc :=
  fun i => wakeProc chan (proc i)

/-- `wakeup`. -/
def Kernel.wakeup (k : Kernel C) (chan : Option Chan) : Kernel C :=
  { k with proc := wakeup1 chan k.proc }

/-- The loop body of `sleep_proc_notify`. -/
def notifyProc (p : Proc) : Proc :=
  if p.state = .sleeping ∧ p.chan = some .ticks then
    if p.sleepticks = 0 then { p with state := .runnable }
    else { p with sleepticks := p.sleepticks - 1 }
  else p

/-- The timer interrupt on CPU 0: `ticks++` and `sleep_proc_notify`. -/
def Kernel.tick (k : Kernel C) : Kernel C :=
  { k with ticks := k.ticks + 1, proc := fun i => notifyProc (k.proc i) }

/-- `kill`: the first slot with this pid. -/
def Kernel.kill (k : Kernel C) (pid : BitVec 32) : Int × Kernel C :=
  match (List.finRange nproc).find? fun i => (k.proc i).pid = pid with
  | some i =>
      let p := { k.proc i with killed := true }
      (0, k.setProc i (if p.state = .sleeping then { p with state := .runnable } else p))
  | none => (-1, k)

/-! ### The life cycle -/

/-- `allocproc`; `kallocOk` says whether `kalloc` finds a page for the kernel stack. -/
def Kernel.allocproc (k : Kernel C) (kallocOk : Bool) : Option Slot × Kernel C :=
  match (List.finRange nproc).find? fun i => (k.proc i).state = .unused with
  | none => (none, k)
  | some i =>
      let p := { k.proc i with
        state := .embryo, pid := k.nextpid, nclone := 0, sleepticks := -1, chan := none }
      let k := { k with nextpid := k.nextpid + 1 }
      if kallocOk then
        (some i, k.setProc i { p with
          tRemain := stcfInitRemain, tLastScheduled := -1, skipOnce := false })
      else (none, k.setProc i { p with state := .unused })

/-- The part of `fork` between `allocproc` and `yield`. -/
def Kernel.forkChild (k : Kernel C) (cur i : Slot) : Kernel C :=
  k.setProc i { k.proc i with
    parent := some cur, tRemain := (k.proc cur).tRemain, tLastScheduled := -1,
    skipOnce := false, state := .runnable }

/-- The end of `fork` when `copyuvm` fails. -/
def Kernel.dropChild (k : Kernel C) (i : Slot) : Kernel C :=
  k.setProc i { k.proc i with state := .unused }

/-- `fork` by the process `cur` of CPU `c`; `copyOk` says whether `copyuvm` succeeds. -/
def Kernel.fork (k : Kernel C) (c : C) (cur : Slot) (kallocOk copyOk : Bool) :
    BitVec 32 × Kernel C :=
  match k.allocproc kallocOk with
  | (none, k) => (-1, k)
  | (some i, k) =>
      if copyOk then ((k.proc i).pid, (k.forkChild cur i).yield c cur) else (-1, k.dropChild i)

/-- The part of `clone` after `allocproc`. -/
def Kernel.cloneChild (k : Kernel C) (cur i : Slot) : Kernel C :=
  let k := k.setProc cur { k.proc cur with nclone := (k.proc cur).nclone + 1 }
  k.setProc i { k.proc i with
    chan := none, parent := some cur, nclone := (k.proc i).nclone + 1, state := .runnable }

/-- `clone` by the process `cur`. -/
def Kernel.clone (k : Kernel C) (cur : Slot) (kallocOk : Bool) : BitVec 32 × Kernel C :=
  match k.allocproc kallocOk with
  | (none, k) => (-1, k)
  | (some i, k) => ((k.proc i).pid, k.cloneChild cur i)

/-- The loop body of `exit` that hands the children of `cur` to `initproc`. -/
def adoptChild (cur initproc : Slot) (proc : Slot → Proc) (i : Slot) : Slot → Proc :=
  if (proc i).parent = some cur then
    let proc := Function.update proc i { proc i with parent := some initproc }
    if (proc i).state = .zombie then wakeup1 (some (.proc initproc)) proc else proc
  else proc

/-- `exit` by the process `cur` of CPU `c`; `none` is the panic of `initproc`. -/
def Kernel.exit (k : Kernel C) (c : C) (cur : Slot) : Option (Kernel C) :=
  if cur = k.initproc then none
  else
    let proc := wakeup1 ((k.proc cur).parent.map .proc) k.proc
    let proc := (List.finRange nproc).foldl (adoptChild cur k.initproc) proc
    some (({ k with proc := proc } : Kernel C).switchOut c cur .zombie)

/-- One round of the loop of `wait` by `cur`: the pid of a child it has freed, -1, or
`none` when it goes to sleep on itself. -/
def Kernel.wait (k : Kernel C) (c : C) (cur : Slot) : Option (BitVec 32) × Kernel C :=
  match (List.finRange nproc).find? fun i =>
      (k.proc i).parent = some cur ∧ (k.proc i).state = .zombie with
  | some i =>
      (some (k.proc i).pid, k.setProc i { k.proc i with
        pid := 0, parent := none, killed := false, state := .unused })
  | none =>
      if (∀ i, (k.proc i).parent ≠ some cur) ∨ (k.proc cur).killed then (some (-1), k)
      else (none, k.sleep c cur (some (.proc cur)))

/-! ### The scheduler -/

/-- The comparison of the picker: less time left, then the higher pid, both as an `int`. -/
def better (p best : Proc) : Bool :=
  p.tRemain.slt best.tRemain || (p.tRemain == best.tRemain && best.pid.slt p.pid)

/-- The loop body of a pass: slot `i` against the best so far. -/
def consider (proc : Slot → Proc) (eligible : Slot → Bool) (best : Option Slot) (i : Slot) :
    Option Slot :=
  if eligible i then
    match best with
    | none => some i
    | some b => if better (proc i) (proc b) then some i else some b
  else best

/-- One pass over the table for the best of the eligible slots. -/
def scan (proc : Slot → Proc) (eligible : Slot → Bool) : Option Slot :=
  (List.finRange nproc).foldl (consider proc eligible) none

/-- The two passes of `scheduler`: without the processes to be skipped, then with all. -/
def Kernel.pick (k : Kernel C) : Option Slot :=
  match scan k.proc fun i => (k.proc i).state = .runnable
      ∧ ¬ ((k.proc i).skipOnce = true ∨ k.skipTarget = some i) with
  | some b => some b
  | none => scan k.proc fun i => (k.proc i).state = .runnable

/-- The skip is used up when another process than its target is chosen. -/
def Kernel.consumeSkip (k : Kernel C) (b : Slot) : Kernel C :=
  match k.skipTarget with
  | some s =>
      if b ≠ s then
        { k.setProc s { k.proc s with skipOnce := false } with skipTarget := none }
      else k
  | none => k

/-- A round of `scheduler` on CPU `c`, up to the switch into the chosen process.  One
that comes back from `sleep` clears its `chan` before it gives up the lock; the `chan`
of any other is null already. -/
def Kernel.dispatch (k : Kernel C) (c : C) : Kernel C :=
  match k.pick with
  | none => k
  | some b =>
      let k := k.consumeSkip b
      { k.setProc b { k.proc b with
          state := .running, tLastScheduled := k.ticks, chan := none } with
        cpu := Function.update k.cpu c (some b) }

/-! ### System calls of the scheduler -/

/-- `sys_give_cpu`. -/
def Kernel.giveCpu (k : Kernel C) (c : C) (cur : Slot) : Kernel C :=
  let k := k.setProc cur { k.proc cur with skipOnce := true }
  ({ k with skipTarget := some cur } : Kernel C).yield c cur

/-- One round of the loop of `sys_sleep(n)` called at tick `ticks0`: the value it
returns, or `none` when it goes to sleep.  `tickslock` keeps the timer out until then. -/
def Kernel.sysSleepRound (k : Kernel C) (c : C) (cur : Slot) (ticks0 n : BitVec 32) :
    Option Int × Kernel C :=
  if k.ticks - ticks0 < n then
    if (k.proc cur).killed then (some (-1), k) else (none, k.sleep c cur (some .ticks))
  else (some 0, k.setProc cur { k.proc cur with sleepticks := -1 })

/-- `sys_sleep` up to its first `sleep`; each return from `sleep` is another round. -/
def Kernel.sysSleep (k : Kernel C) (c : C) (cur : Slot) (n : BitVec 32) :
    Option Int × Kernel C :=
  if n = 0 then (some 0, k.yield c cur)
  else (k.setProc cur { k.proc cur with sleepticks := n }).sysSleepRound c cur k.ticks n

/-! ### Runs -/

/-- The kernel before its first process: a zeroed table and idle CPUs. -/
def zeroKernel (C : Type*) : Kernel C :=
  { proc := fun _ => zeroProc, nextpid := 1, initproc := 0, skipTarget := none, ticks := 0,
    cpu := fun _ => none }

/-- `userinit`. -/
def Kernel.userinit (k : Kernel C) : Kernel C :=
  match k.allocproc true with
  | (none, k) => k
  | (some i, k) =>
      { k.setProc i { k.proc i with
          state := .runnable, tRemain := stcfInitRemain, tLastScheduled := -1,
          skipOnce := false } with
        initproc := i }

/-- One step of the kernel: a round of the scheduler on an idle CPU, a call by the
process of a CPU, or a wake-up, kill or tick from anywhere. -/
inductive Step : Kernel C → Kernel C → Prop
  | dispatch (k : Kernel C) (c : C) (h : k.cpu c = none) : Step k (k.dispatch c)
  | yield (k : Kernel C) (c : C) (cur : Slot) (h : k.cpu c = some cur) : Step k (k.yield c cur)
  | sleep (k : Kernel C) (c : C) (cur : Slot) (chan : Option Chan) (h : k.cpu c = some cur) :
      Step k (k.sleep c cur chan)
  | exit (k k' : Kernel C) (c : C) (cur : Slot) (h : k.cpu c = some cur)
      (hk : k.exit c cur = some k') : Step k k'
  | wakeup (k : Kernel C) (chan : Option Chan) : Step k (k.wakeup chan)
  | kill (k : Kernel C) (pid : BitVec 32) : Step k (k.kill pid).2
  | fork (k : Kernel C) (c : C) (cur : Slot) (kallocOk copyOk : Bool)
      (h : k.cpu c = some cur) : Step k (k.fork c cur kallocOk copyOk).2
  | clone (k : Kernel C) (c : C) (cur : Slot) (kallocOk : Bool) (h : k.cpu c = some cur) :
      Step k (k.clone cur kallocOk).2
  | wait (k : Kernel C) (c : C) (cur : Slot) (h : k.cpu c = some cur) :
      Step k (k.wait c cur).2
  | tick (k : Kernel C) : Step k k.tick
  | giveCpu (k : Kernel C) (c : C) (cur : Slot) (h : k.cpu c = some cur) :
      Step k (k.giveCpu c cur)
  | sysSleep (k : Kernel C) (c : C) (cur : Slot) (n : BitVec 32) (h : k.cpu c = some cur) :
      Step k (k.sysSleep c cur n).2
  | sysSleepRound (k : Kernel C) (c : C) (cur : Slot) (ticks0 n : BitVec 32)
      (h : k.cpu c = some cur) : Step k (k.sysSleepRound c cur ticks0 n).2

end SystemsPortfolio.Stcf
