/-
SystemsPortfolio/Stcf/Preemption.lean

The timer interrupt and the running process.

In the STCF build `trap` ends without the `yield` of the round-robin build: a tick charges
nobody and takes no decision, and the process of the CPU goes on until it gives the CPU up
by itself.  So a process that becomes runnable during a slice waits for its end, however
short it is.  What does hold at every tick is the choice made at the start of the slice:
a process that was passed over then, and has waited since, is not shorter than the running
one is now.

The calls `remain` and `exec2`, with which a process sets its own `t_remain`, belong to the
runs here.  They give up the CPU only when the time goes up.
-/
import SystemsPortfolio.Stcf.Moves

namespace SystemsPortfolio.Stcf

variable {C : Type*} [DecidableEq C]

/-! ### Setting the remaining time -/

/-- The common part of `sys_remain` and `sys_exec2`. -/
def Kernel.setRemain (k : Kernel C) (c : C) (cur : Slot) (t : BitVec 32) : Kernel C :=
  let old := (k.proc cur).tRemain
  let k := k.setProc cur { k.proc cur with tRemain := t }
  if old.slt t then k.yield c cur else k

/-- `sys_remain`; `none` is an argument that `argint` cannot fetch. -/
def Kernel.sysRemain (k : Kernel C) (c : C) (cur : Slot) (newTime : Option (BitVec 32)) :
    Int × Kernel C :=
  match newTime with
  | none => (-1, k)
  | some t => if t.toInt ≤ 0 then (-1, k) else (0, k.setRemain c cur t)

/-- `sys_exec2` up to its `exec`, which it reaches when it returns no value; `argsOk` says
whether the path and the arguments can be fetched. -/
def Kernel.sysExec2 (k : Kernel C) (c : C) (cur : Slot) (timeToComplete : Option (BitVec 32))
    (argsOk : Bool) : Option Int × Kernel C :=
  match timeToComplete with
  | none => (some (-1), k)
  | some t =>
      if t.toInt ≤ 0 then (some (-1), k)
      else if argsOk then (none, k.setRemain c cur t)
      else (some (-1), k)

/-- A step of the kernel, or one of the two calls. -/
inductive HintStep : Kernel C → Kernel C → Prop
  | step (k k' : Kernel C) (h : Step k k') : HintStep k k'
  | sysRemain (k : Kernel C) (c : C) (cur : Slot) (t : Option (BitVec 32))
      (h : k.cpu c = some cur) : HintStep k (k.sysRemain c cur t).2
  | sysExec2 (k : Kernel C) (c : C) (cur : Slot) (t : Option (BitVec 32)) (argsOk : Bool)
      (h : k.cpu c = some cur) : HintStep k (k.sysExec2 c cur t argsOk).2

/-- The kernel with the calls that set `t_remain`. -/
def hinted (C : Type*) [DecidableEq C] : Transition.System (Kernel C) where
  init k := k = (zeroKernel C).userinit
  step := HintStep

variable {k k' k₁ k₂ : Kernel C} {c d : C} {b q cur : Slot}

theorem sysRemain_cases (k : Kernel C) (c : C) (cur : Slot) (t : Option (BitVec 32)) :
    (k.sysRemain c cur t).2 = k ∨ ∃ t', (k.sysRemain c cur t).2 = k.setRemain c cur t' := by
  rcases t with - | t
  · exact .inl rfl
  rw [Kernel.sysRemain]
  split
  · exact .inl rfl
  · exact .inr ⟨t, rfl⟩

theorem sysExec2_cases (k : Kernel C) (c : C) (cur : Slot) (t : Option (BitVec 32))
    (argsOk : Bool) : (k.sysExec2 c cur t argsOk).2 = k
      ∨ ∃ t', (k.sysExec2 c cur t argsOk).2 = k.setRemain c cur t' := by
  rcases t with - | t
  · exact .inl rfl
  rw [Kernel.sysExec2]
  split
  · exact .inl rfl
  · split
    · exact .inr ⟨t, rfl⟩
    · exact .inl rfl

/-- Beside the steps known already there is only `setRemain`. -/
theorem hintStep_cases (h : HintStep k k') : Step k k' ∨ k' = k
    ∨ ∃ c cur t, k.cpu c = some cur ∧ k' = k.setRemain c cur t := by
  cases h with
  | step _ h => exact .inl h
  | sysRemain c cur t h =>
      refine .inr ((sysRemain_cases k c cur t).imp id ?_)
      rintro ⟨t', e⟩
      exact ⟨c, cur, t', h, e⟩
  | sysExec2 c cur t argsOk h =>
      refine .inr ((sysExec2_cases k c cur t argsOk).imp id ?_)
      rintro ⟨t', e⟩
      exact ⟨c, cur, t', h, e⟩

theorem setRemain_ticks (k : Kernel C) (c : C) (cur : Slot) (t : BitVec 32) :
    (k.setRemain c cur t).ticks = k.ticks := by
  rw [Kernel.setRemain]
  dsimp only
  split <;> rfl

/-- `setRemain` touches the slot of its caller alone, and either ends its slice or lowers
its time. -/
theorem setRemain_cases (k : Kernel C) (c : C) (cur : Slot) (t : BitVec 32) :
    (∀ i, i ≠ cur → (k.setRemain c cur t).proc i = k.proc i)
      ∧ ((k.setRemain c cur t).cpu = Function.update k.cpu c none
        ∨ (k.setRemain c cur t).cpu = k.cpu ∧ t.toInt ≤ (k.proc cur).tRemain.toInt
          ∧ (k.setRemain c cur t).proc cur = { k.proc cur with tRemain := t }) := by
  rw [Kernel.setRemain]
  dsimp only
  split
  · refine ⟨fun i hi => ?_, .inl rfl⟩
    rw [Kernel.yield, switchOut_proc_of_ne _ hi, setProc_of_ne _ hi]
  · next h =>
      refine ⟨fun i hi => setProc_of_ne _ hi _, .inr ⟨rfl, ?_, setProc_self ..⟩⟩
      simpa [BitVec.slt] using h

omit [DecidableEq C] in
theorem cpuOk_setTime {t : BitVec 32} (h : CpuOk k) :
    CpuOk (k.setProc cur { k.proc cur with tRemain := t }) :=
  h.of_running rfl fun j hj => by
    rcases eq_or_ne j cur with rfl | hne
    · rw [setProc_self]
      exact hj
    · rw [setProc_of_ne _ hne]
      exact hj

theorem cpuOk_setRemain (h : CpuOk k) (hc : k.cpu c = some cur) (t : BitVec 32) :
    CpuOk (k.setRemain c cur t) := by
  rw [Kernel.setRemain]
  dsimp only
  split
  · exact cpuOk_step (cpuOk_setTime h) (.yield _ c cur hc)
  · exact cpuOk_setTime h

theorem cpuOk_hintStep (hk : CpuOk k) (hs : HintStep k k') : CpuOk k' := by
  rcases hintStep_cases hs with hs | rfl | ⟨c, cur, t, hc, rfl⟩
  · exact cpuOk_step hk hs
  · exact hk
  · exact cpuOk_setRemain hk hc t

theorem cpuOk_hinted (h : (hinted C).Reachable k) : CpuOk k := by
  refine h.invariant ?_ fun _ _ _ => cpuOk_hintStep
  rintro k rfl
  exact cpuOk_userinit

/-! ### A slice -/

/-- The process of a CPU keeps its time as long as it stays there, or lowers it. -/
theorem remain_running (hk : CpuOk k) (hs : HintStep k k') (hb : k.cpu c = some b)
    (hb' : k'.cpu c = some b) : (k'.proc b).tRemain.toInt ≤ (k.proc b).tRemain.toInt := by
  rcases hintStep_cases hs with hs | rfl | ⟨d, cur, t, hd, rfl⟩
  · rw [(running_kept hk hs hb hb').1]
  · exact le_rfl
  · obtain ⟨hother, hcur⟩ := setRemain_cases k d cur t
    rcases eq_or_ne b cur with rfl | hne
    · rcases hcur with hcpu | ⟨-, hle, hproc⟩
      · rw [hcpu, hk.inj c d b hb hd, Function.update_self] at hb'
        exact absurd hb' (by simp)
      · rw [hproc]
        exact hle
    · rw [hother b hne]

/-- A process that waits for a CPU keeps its time. -/
theorem remain_runnable (hk : CpuOk k) (hs : HintStep k k')
    (hq : (k.proc q).state = .runnable) : (k'.proc q).tRemain = (k.proc q).tRemain := by
  have hquiet (h : Quiet (k.proc q) (k'.proc q)) : (k'.proc q).tRemain = (k.proc q).tRemain := by
    cases h with
    | nudge h => exact h.remain
    | create h | free h | idle h => exact absurd (hq.symm.trans h) (by decide)
  have hne {d : C} {cur : Slot} (hd : k.cpu d = some cur) : q ≠ cur := by
    rintro rfl
    exact absurd (hq.symm.trans (hk.running d q hd)) (by decide)
  rcases hintStep_cases hs with hs | rfl | ⟨d, cur, t, hd, rfl⟩
  · rcases step_effect hk hs with ⟨-, -, h⟩ | ⟨d, cur, hd, -, -, -, h⟩ | ⟨d, i, -, -, -, hi, h⟩
    · exact hquiet (h q)
    · exact hquiet (h q (hne hd))
    · rcases eq_or_ne q i with rfl | hqi
      · exact hi.remain
      · exact hquiet (h q hqi)
  · rfl
  · rw [(setRemain_cases k d cur t).1 q (hne hd)]

/-- What a decision has found out is still true at the end of an interval in which the
chosen process runs and the other one waits. -/
theorem slice_kept (hk : (hinted C).Reachable k)
    (hle : (k.proc b).tRemain.toInt ≤ (k.proc q).tRemain.toInt)
    (hr : (hinted C).While (fun u => u.cpu c = some b ∧ (u.proc q).state = .runnable) k k₁)
    (hb₁ : k₁.cpu c = some b) :
    (k₁.proc b).tRemain.toInt ≤ (k₁.proc q).tRemain.toInt := by
  refine hr.invariant (Q := fun u => u.cpu c = some b →
    (u.proc b).tRemain.toInt ≤ (u.proc q).tRemain.toInt) ?_ hk (fun _ => hle) hb₁
  rintro u v hu ⟨hub, huq⟩ hle hs hvb
  have hok := cpuOk_hinted hu
  rw [remain_runnable hok hs huq]
  exact (remain_running hok hs hub hvb).trans (hle hub)

/-! ### The timer interrupt -/

/-- `trap` on a timer interrupt on CPU `c`: CPU 0 counts the tick.  `none` is the `exit` of
a killed process that was in user space, from which `trap` does not return.  The second
test for it at the end of `trap` finds what the first has found, since the `yield` between
them is compiled out. -/
def Kernel.trapTimer (k : Kernel C) (c : C) (cpu0 user : Bool) : Option (Kernel C) :=
  let k := if cpu0 then k.tick else k
  match k.cpu c with
  | some cur => if (k.proc cur).killed && user then none else some k
  | none => some k

omit [DecidableEq C] in
/-- When `trap` returns, every process is where it was, but for the sleepers. -/
theorem trapTimer_kept {cpu0 user : Bool} (h : k.trapTimer c cpu0 user = some k') :
    k'.cpu = k.cpu ∧ ∀ i, Nudge (k.proc i) (k'.proc i) := by
  have hk' : k' = if cpu0 then k.tick else k := by
    rw [Kernel.trapTimer] at h
    generalize (if cpu0 = true then k.tick else k) = u at h
    split at h
    · split at h
      · exact absurd h (by simp)
      · exact (Option.some.inj h).symm
    · exact (Option.some.inj h).symm
  rcases cpu0 with - | -
  · obtain rfl : k' = k := hk'
    exact ⟨rfl, fun i => .refl _⟩
  · obtain rfl : k' = k.tick := hk'
    exact ⟨rfl, fun i => nudge_notifyProc _⟩

omit [DecidableEq C] in
/-- `trap` on CPU 0 returns from a process that has not been killed. -/
theorem trapTimer_of_alive (user : Bool) (hc : k.cpu c = some b)
    (hb : (k.tick.proc b).killed = false) : k.trapTimer c true user = some k.tick := by
  have hc' : k.tick.cpu c = some b := hc
  simp only [Kernel.trapTimer, if_true, hc', hb, Bool.false_and, Bool.false_eq_true, if_false]

/-- What STCF keeps without preemption: the process that a decision puts on a CPU is not
longer than any unmarked one it passes over; a timer interrupt leaves it there; and after
the interrupt, less what it has used of its slice, it is still not longer than those of
them that have waited since. -/
theorem timer_keeps_choice {cpu0 user : Bool} (h : (hinted C).Reachable k)
    (hc : k.cpu c = none) (hb : (k.dispatch c).cpu c = some b)
    (hq : (k.proc q).state = .runnable) (hm : ¬ k.Marked q) :
    (k.proc b).tRemain.toInt ≤ (k.proc q).tRemain.toInt
      ∧ ∀ k₁ k₂, (hinted C).While (fun u => u.cpu c = some b ∧ (u.proc q).state = .runnable)
          (k.dispatch c) k₁ →
        k₁.cpu c = some b → k₁.trapTimer c cpu0 user = some k₂ →
        k₂.cpu c = some b
          ∧ ¬ (k₂.proc q).tRemain.toInt < (k₂.proc b).tRemain.toInt
            - (k₂.ticks - (k₂.proc b).tLastScheduled).toNat := by
  have hpick : k.pick = some b := (dispatch_cpu_eq_pick hc).symm.trans hb
  have hle := le_of_not_better (not_better_of_pick hpick hq hm)
  refine ⟨hle, fun k₁ k₂ hr hb₁ ht => ?_⟩
  -- the decision itself changes no time
  have hstart : ((k.dispatch c).proc b).tRemain.toInt
      ≤ ((k.dispatch c).proc q).tRemain.toInt := by
    obtain ⟨-, -, hn⟩ := consumeSkip_effect k b
    have hself : ((k.dispatch c).proc b).tRemain = (k.proc b).tRemain := by
      rw [dispatch_proc_self hpick]
      exact (hn b).remain
    rcases eq_or_ne q b with rfl | hne
    · exact le_rfl
    · rw [hself, dispatch_proc_of_ne hpick hne, (hn q).remain]
      exact hle
  have hslice := slice_kept (h.next (.step _ _ (.dispatch k c hc))) hstart hr hb₁
  obtain ⟨hcpu, hn⟩ := trapTimer_kept ht
  rw [hcpu, (hn b).remain, (hn q).remain]
  exact ⟨hb₁, by omega⟩

/-! ### A run of two processes -/

/-- `init` runs for three ticks and forks, and so is the shorter of the two. -/
def forkedLate : Kernel Unit :=
  let k := (zeroKernel Unit).userinit
  ((k.dispatch ()).tick.tick.tick.fork () k.initproc true true).2

/-- `init` is put on the CPU and goes to sleep for a tick. -/
def childRuns : Kernel Unit :=
  ((forkedLate.dispatch ()).sysSleep () (zeroKernel Unit).userinit.initproc 1).2.dispatch ()

theorem forkedLate_reachable : (hinted Unit).Reachable forkedLate := by
  let k := (zeroKernel Unit).userinit
  have h₀ : (hinted Unit).Reachable k := .start rfl
  have h₁ := (((h₀.next (.step _ _ (.dispatch k () rfl))).next (.step _ _ (.tick _))).next
    (.step _ _ (.tick _))).next (.step _ _ (.tick _))
  exact h₁.next (.step _ _ (.fork _ () k.initproc true true (by decide +kernel)))

theorem childRuns_reachable : (hinted Unit).Reachable childRuns := by
  have h₁ := forkedLate_reachable.next (.step _ _ (.dispatch _ () (by decide +kernel)))
  have h₂ := h₁.next (.step _ _ (.sysSleep _ () (zeroKernel Unit).userinit.initproc 1
    (by decide +kernel)))
  exact h₂.next (.step _ _ (.dispatch _ () (by decide +kernel)))

/-- The child of `forkedLate` is passed over, and is the longer one at the next tick. -/
theorem timer_keeps_choice_forkedLate : ∃ (k' : Kernel Unit) (b q : Slot),
    (forkedLate.dispatch ()).cpu () = some b ∧ (forkedLate.proc q).state = .runnable
      ∧ ¬ forkedLate.Marked q ∧ (forkedLate.dispatch ()).trapTimer () true true = some k'
      ∧ k'.cpu () = some b
      ∧ ¬ (k'.proc q).tRemain.toInt < (k'.proc b).tRemain.toInt
        - (k'.ticks - (k'.proc b).tLastScheduled).toNat := by
  let b := ((forkedLate.dispatch ()).cpu ()).getD forkedLate.initproc
  let q := (childRuns.cpu ()).getD forkedLate.initproc
  have hb : (forkedLate.dispatch ()).cpu () = some b := by decide +kernel
  have hq : (forkedLate.proc q).state = .runnable := by decide +kernel
  have hm : ¬ forkedLate.Marked q := by decide +kernel
  have ht := trapTimer_of_alive true hb (by decide +kernel)
  refine ⟨_, b, q, hb, hq, hm, ht, ?_⟩
  exact (timer_keeps_choice forkedLate_reachable (by decide +kernel) hb hq hm).2 _ _ .refl hb ht

/-- When `init` sleeps, two ticks of its child later it is awake and has less time left than
the child, which stays on the CPU. -/
theorem woken_waits : ∃ (k k' : Kernel Unit) (b q : Slot), (hinted Unit).Reachable k
    ∧ k.trapTimer () true true = some k' ∧ k'.cpu () = some b
    ∧ (k'.proc b).state = .running ∧ (k'.proc q).state = .runnable ∧ ¬ k'.Marked q
    ∧ (k'.proc q).tRemain.toInt < (k'.proc b).tRemain.toInt
      - (k'.ticks - (k'.proc b).tLastScheduled).toNat := by
  let b := (childRuns.cpu ()).getD childRuns.initproc
  have ht := trapTimer_of_alive (k := childRuns.tick) (c := ()) (b := b) true
    (by decide +kernel) (by decide +kernel)
  refine ⟨childRuns.tick, _, b, childRuns.initproc,
    childRuns_reachable.next (.step _ _ (.tick _)), ht, ?_⟩
  decide +kernel

end SystemsPortfolio.Stcf
