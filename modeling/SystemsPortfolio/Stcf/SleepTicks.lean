/-
SystemsPortfolio/Stcf/SleepTicks.lean

When a sleeping process is woken.

Two counts go on while a process is in `sys_sleep(n)`: `sleepticks`, which starts at `n`
and which `sleep_proc_notify` counts down at every tick, and the difference of `ticks` to
the tick of the call, which the loop of `sys_sleep` compares with `n`.  The loop would end
at tick `n`.  `sleep_proc_notify` wakes a process only when it finds the count at zero, and
looks before it counts: tick `n` brings the count to zero, and tick `n + 1` wakes.

The other processes and CPUs can do nothing about it, short of a kill.  The kernel calls
`wakeup` on many channels, but on `&ticks` nowhere.
-/
import Mathlib.Data.BitVec
import SystemsPortfolio.Stcf.Slices

namespace SystemsPortfolio.Stcf

variable {C : Type*} [DecidableEq C] {k k' k₁ : Kernel C} {c : C} {i q cur : Slot}
variable {v n : BitVec 32} {m : Nat}

/-! ### A sleeper and the steps of the others -/

/-- The process sleeps on the tick counter, and its count stands at `v`. -/
structure AsleepFor (v : BitVec 32) (p : Proc) : Prop where
  state : p.state = .sleeping
  chan : p.chan = some .ticks
  count : p.sleepticks = v

theorem asleep_wakeProc {p : Proc} (h : AsleepFor v p) {chan : Option Chan}
    (hchan : chan ≠ some .ticks) : AsleepFor v (wakeProc chan p) := by
  rw [wakeProc, if_neg fun hwake => hchan (hwake.2.symm.trans h.chan)]
  exact h

theorem unmoved_asleep (v : BitVec 32) : Unmoved (AsleepFor v) where
  parent := by
    intro p parent h
    exact ⟨h.state, h.chan, h.count⟩
  wake := by
    intro p chan hchan h
    exact asleep_wakeProc h hchan

theorem asleep_exit (h : AsleepFor v (k.proc i)) (hne : i ≠ cur) (he : k.exit c cur = some k') :
    AsleepFor v (k'.proc i) := by
  obtain ⟨proc', rfl, hkeep⟩ := exit_eq_some he
  rw [switchOut_proc_of_ne _ hne]
  exact hkeep _ (unmoved_asleep v) i h

omit [DecidableEq C] in
theorem asleep_kill (h : AsleepFor v (k.proc i)) (pid : BitVec 32) :
    ((k.kill pid).2.proc i).killed = true ∨ AsleepFor v ((k.kill pid).2.proc i) := by
  rw [Kernel.kill]
  split
  · next j _ =>
      rcases eq_or_ne i j with rfl | hne
      · left
        rw [setProc_self]
        split <;> rfl
      · right
        rw [setProc_of_ne _ hne]
        exact h
  · exact .inr h

omit [DecidableEq C] in
/-- `allocproc` gives out another slot than that of a sleeper. -/
theorem asleep_allocproc (h : AsleepFor v (k.proc i)) (kallocOk : Bool) :
    AsleepFor v ((k.allocproc kallocOk).2.proc i)
      ∧ ∀ j ∈ (k.allocproc kallocOk).1, i ≠ j := by
  have hne {j : Slot} {p : Proc} {k' : Kernel C} (ht : Took j p k k') : i ≠ j := by
    rintro rfl
    exact absurd (h.state.symm.trans ht.unused) (by decide)
  have hkept {j : Slot} {p : Proc} {k' : Kernel C} (ht : Took j p k k') :
      AsleepFor v (k'.proc i) := by
    rw [ht.proc, Function.update_of_ne (hne ht)]
    exact h
  rcases allocproc_took k kallocOk with e | ⟨j, p, k', e, ht, -⟩ | ⟨j, p, k', e, ht, -⟩
  · rw [e]
    exact ⟨h, by simp⟩
  · rw [e]
    exact ⟨hkept ht, by simp⟩
  · rw [e]
    refine ⟨hkept ht, ?_⟩
    rintro _ ⟨⟩
    exact hne ht

theorem asleep_fork (h : AsleepFor v (k.proc i)) (hne : i ≠ cur) (kallocOk copyOk : Bool) :
    AsleepFor v ((k.fork c cur kallocOk copyOk).2.proc i) := by
  obtain ⟨hkept, hslot⟩ := asleep_allocproc h kallocOk
  rw [Kernel.fork]
  rcases e : k.allocproc kallocOk with ⟨- | j, k'⟩
  · rw [e] at hkept
    exact hkept
  · rw [e] at hkept hslot
    have hj : i ≠ j := hslot j rfl
    dsimp only
    split
    · rw [Kernel.yield, switchOut_proc_of_ne _ hne, Kernel.forkChild, setProc_of_ne _ hj]
      exact hkept
    · rw [Kernel.dropChild, setProc_of_ne _ hj]
      exact hkept

omit [DecidableEq C] in
theorem asleep_clone (h : AsleepFor v (k.proc i)) (hne : i ≠ cur) (kallocOk : Bool) :
    AsleepFor v ((k.clone cur kallocOk).2.proc i) := by
  obtain ⟨hkept, hslot⟩ := asleep_allocproc h kallocOk
  rw [Kernel.clone]
  rcases e : k.allocproc kallocOk with ⟨- | j, k'⟩
  · rw [e] at hkept
    exact hkept
  · rw [e] at hkept hslot
    have hj : i ≠ j := hslot j rfl
    dsimp only [Kernel.cloneChild]
    rw [setProc_of_ne _ hj, setProc_of_ne _ hne]
    exact hkept

theorem asleep_wait (h : AsleepFor v (k.proc i)) (hne : i ≠ cur) :
    AsleepFor v ((k.wait c cur).2.proc i) := by
  rw [Kernel.wait]
  split
  · next j hj =>
      have hzombie : (k.proc j).parent = some cur ∧ (k.proc j).state = .zombie := by
        simpa using List.find?_some hj
      have hij : i ≠ j := by
        rintro rfl
        exact absurd (h.state.symm.trans hzombie.2) (by decide)
      rw [setProc_of_ne _ hij]
      exact h
  · split
    · exact h
    · rw [sleep_proc_of_ne _ hne]
      exact h

theorem sysSleepRound_proc_of_ne (hne : i ≠ cur) (ticks0 n : BitVec 32) :
    (k.sysSleepRound c cur ticks0 n).2.proc i = k.proc i := by
  rw [Kernel.sysSleepRound]
  split
  · split
    · rfl
    · exact sleep_proc_of_ne _ hne
  · exact setProc_of_ne _ hne _

theorem asleep_dispatch (h : AsleepFor v (k.proc i)) (c : C) :
    AsleepFor v ((k.dispatch c).proc i) := by
  rcases hpick : k.pick with - | b
  · rw [dispatch_of_none hpick]
    exact h
  · have hne : i ≠ b := by
      rintro rfl
      exact absurd (h.state.symm.trans (pick_runnable hpick)) (by decide)
    rw [dispatch_proc_of_ne hpick hne]
    rcases consumeSkip_proc k b i with e | e <;> rw [e]
    · exact h
    · exact ⟨h.state, h.chan, h.count⟩

/-- A step other than a tick or a wake-up on `&ticks` leaves a sleeper and its count alone,
unless it is killed. -/
theorem asleep_step (hk : CpuOk k) (h : AsleepFor v (k.proc i)) (hs : HintStep k k')
    (hticks : k'.ticks = k.ticks) (hwake : k' ≠ k.wakeup (some .ticks))
    (hlive : (k'.proc i).killed = false) : AsleepFor v (k'.proc i) := by
  have hne {d : C} {q : Slot} (hd : k.cpu d = some q) : i ≠ q := by
    rintro rfl
    exact absurd (h.state.symm.trans (hk.running d i hd)) (by decide)
  rcases hintStep_cases hs with hs | rfl | ⟨d, q, t, hd, rfl⟩
  · cases hs with
    | dispatch d hd => exact asleep_dispatch h d
    | yield d q hd =>
        rw [Kernel.yield, switchOut_proc_of_ne _ (hne hd)]
        exact h
    | sleep d q chan hd =>
        rw [sleep_proc_of_ne _ (hne hd)]
        exact h
    | exit _ d q hd he => exact asleep_exit h (hne hd) he
    | wakeup chan =>
        refine asleep_wakeProc h ?_
        rintro rfl
        exact hwake rfl
    | kill pid =>
        rcases asleep_kill h pid with hkilled | hkept
        · exact absurd (hlive.symm.trans hkilled) Bool.false_ne_true
        · exact hkept
    | fork d q kallocOk copyOk hd => exact asleep_fork h (hne hd) kallocOk copyOk
    | clone d q kallocOk hd => exact asleep_clone h (hne hd) kallocOk
    | wait d q hd => exact asleep_wait h (hne hd)
    | tick =>
        -- a tick moves the counter
        have hmoved : k.ticks + 1 = k.ticks := hticks
        bv_omega
    | giveCpu d q hd =>
        rw [Kernel.giveCpu, Kernel.yield, switchOut_proc_of_ne _ (hne hd)]
        show AsleepFor v ((k.setProc q _).proc i)
        rw [setProc_of_ne _ (hne hd)]
        exact h
    | sysSleep d q n hd =>
        rw [Kernel.sysSleep]
        split
        · rw [Kernel.yield, switchOut_proc_of_ne _ (hne hd)]
          exact h
        · rw [sysSleepRound_proc_of_ne (hne hd), setProc_of_ne _ (hne hd)]
          exact h
    | sysSleepRound d q ticks0 n hd =>
        rw [sysSleepRound_proc_of_ne (hne hd)]
        exact h
  · exact h
  · rw [(setRemain_cases k d q t).1 i (hne hd)]
    exact h

/-! ### Ticks -/

theorem notifyProc_asleep {p : Proc} (h : AsleepFor v p) :
    (v = 0 ∧ (notifyProc p).state = .runnable)
      ∨ (v ≠ 0 ∧ AsleepFor (v - 1) (notifyProc p)) := by
  rw [notifyProc, if_pos ⟨h.state, h.chan⟩, h.count]
  split
  · next hv => exact .inl ⟨hv, rfl⟩
  · next hv => exact .inr ⟨hv, h.state, h.chan, rfl⟩

theorem sysSleepRound_sleeps {ticks0 : BitVec 32} (hlive : (k.proc cur).killed = false)
    (h : k.ticks - ticks0 < n) :
    k.sysSleepRound c cur ticks0 n = (none, k.sleep c cur (some .ticks)) := by
  rw [Kernel.sysSleepRound, if_pos h, hlive]
  rfl

theorem sysSleepRound_returns {ticks0 : BitVec 32} (h : ¬ k.ticks - ticks0 < n) :
    (k.sysSleepRound c cur ticks0 n).1 = some 0 := by
  rw [Kernel.sysSleepRound, if_neg h]

/-- `sys_sleep(n)` by a process that is not killed goes to sleep, with the count at `n`. -/
theorem sysSleep_sleeps (hlive : (k.proc cur).killed = false) (hn : n ≠ 0) :
    k.sysSleep c cur n
      = (none, (k.setProc cur { k.proc cur with sleepticks := n }).sleep c cur (some .ticks)) := by
  have hfirst : k.ticks - k.ticks < n := by bv_omega
  rw [Kernel.sysSleep, if_neg hn]
  refine sysSleepRound_sleeps ?_ hfirst
  rw [setProc_self]
  exact hlive

theorem asleep_sysSleep (hlive : (k.proc cur).killed = false) (hn : n ≠ 0) :
    AsleepFor n ((k.sysSleep c cur n).2.proc cur) := by
  rw [sysSleep_sleeps hlive hn]
  dsimp only
  rw [Kernel.sleep, switchOut_proc_self, setProc_self, setProc_self, stcfAccountBeforeSwitch]
  split <;> exact ⟨rfl, rfl, rfl⟩

/-! ### Runs -/

/-- The runs from `k` of any steps in which `cur` is not killed and nobody is woken on
`&ticks`, with the number of ticks. -/
inductive Waits (cur : Slot) (k : Kernel C) : Nat → Kernel C → Prop
  | start : Waits cur k 0 k
  | tick {m : Nat} {k' : Kernel C} (h : Waits cur k m k') : Waits cur k (m + 1) k'.tick
  | step {m : Nat} {k' k'' : Kernel C} (h : Waits cur k m k') (hs : HintStep k' k'')
      (hticks : k''.ticks = k'.ticks) (hwake : k'' ≠ k'.wakeup (some .ticks))
      (hlive : (k''.proc cur).killed = false) : Waits cur k m k''

theorem Waits.ticks (h : Waits cur k m k') : k'.ticks = k.ticks + BitVec.ofNat 32 m := by
  induction h with
  | start => exact (BitVec.add_zero _).symm
  | tick _ ih => exact tick_ticks ih
  | step _ _ hticks _ _ ih => rw [hticks, ih]

theorem Waits.cpuOk (hk : CpuOk k) (h : Waits cur k m k') : CpuOk k' := by
  induction h with
  | start => exact hk
  | tick _ ih => exact cpuOk_step ih (.tick _)
  | step _ hs _ _ _ ih => exact cpuOk_hintStep ih hs

/-- Up to tick `n` the process sleeps, and each tick takes one from its count. -/
theorem Waits.asleep (hk : CpuOk k) (hstart : AsleepFor n (k.proc cur)) (h : Waits cur k m k')
    (hm : m ≤ n.toNat) : AsleepFor (n - BitVec.ofNat 32 m) (k'.proc cur) := by
  induction h with
  | start => exact (BitVec.sub_zero n).symm ▸ hstart
  | @tick m k' _ ih =>
      have hlt := n.isLt
      rcases notifyProc_asleep (ih (by omega)) with ⟨hzero, -⟩ | ⟨-, hnext⟩
      · bv_omega
      · have hcount : n - BitVec.ofNat 32 m - 1 = n - BitVec.ofNat 32 (m + 1) := by bv_omega
        rw [← hcount]
        exact hnext
  | step hr hs hticks hwake hlive ih =>
      exact asleep_step (hr.cpuOk hk) (ih hm) hs hticks hwake hlive

/-- Tick `n + 1` wakes it. -/
theorem Waits.wakes (hk : CpuOk k) (hstart : AsleepFor n (k.proc cur))
    (h : Waits cur k n.toNat k') : (k'.tick.proc cur).state = .runnable := by
  have hcount : n - BitVec.ofNat 32 n.toNat = 0 := by bv_omega
  rcases notifyProc_asleep (h.asleep hk hstart le_rfl) with ⟨-, hwake⟩ | ⟨hne, -⟩
  · exact hwake
  · exact absurd hcount hne

/-- The clock can go on alone. -/
theorem waits_ticks (cur : Slot) (k : Kernel C) (m : Nat) : ∃ k', Waits cur k m k' := by
  induction m with
  | zero => exact ⟨k, .start⟩
  | succ m ih =>
      obtain ⟨k', h⟩ := ih
      exact ⟨_, h.tick⟩

/-- `sys_sleep(n)`, called by `cur` in `k`, wakes on tick `m`: in every run the process sleeps
until then, is runnable when that tick has been handled, and returns 0 from its call when it
runs again, before the counter has gone round. -/
structure WakesAt (k : Kernel C) (c : C) (cur : Slot) (n : BitVec 32) (m : Nat) : Prop where
  pos : 0 < m
  asleep : ∀ j k', j < m → Waits cur (k.sysSleep c cur n).2 j k' →
    (k'.proc cur).state = .sleeping
  wakes : ∀ j k', j + 1 = m → Waits cur (k.sysSleep c cur n).2 j k' →
    (k'.tick.proc cur).state = .runnable
  returns : ∀ j k' d, m ≤ j → j < 2 ^ 32 → Waits cur (k.sysSleep c cur n).2 j k' →
    k'.cpu d = some cur → (k'.sysSleepRound d cur k.ticks n).1 = some 0

theorem wakesAt_succ (hok : CpuOk (k.sysSleep c cur n).2)
    (hstart : AsleepFor n ((k.sysSleep c cur n).2.proc cur))
    (hticks : (k.sysSleep c cur n).2.ticks = k.ticks) : WakesAt k c cur n (n.toNat + 1) where
  pos := Nat.succ_pos _
  asleep := by
    intro j k' hj hr
    exact (hr.asleep hok hstart (Nat.le_of_lt_succ hj)).state
  wakes := by
    intro j k' hj hr
    obtain rfl := Nat.succ.inj hj
    exact hr.wakes hok hstart
  returns := by
    intro j k' d hj hlt hr _
    apply sysSleepRound_returns
    rw [hr.ticks, hticks]
    bv_omega

theorem WakesAt.eq (h : WakesAt k c cur n m) (hok : CpuOk (k.sysSleep c cur n).2)
    (hstart : AsleepFor n ((k.sysSleep c cur n).2.proc cur)) : m = n.toNat + 1 := by
  rcases Nat.lt_trichotomy m (n.toNat + 1) with hlt | heq | hgt
  · -- the count is not yet down when tick `m` comes
    obtain ⟨j, rfl⟩ := Nat.exists_eq_succ_of_ne_zero h.pos.ne'
    obtain ⟨k', hr⟩ := waits_ticks cur (k.sysSleep c cur n).2 j
    have hafter := hr.tick.asleep hok hstart (Nat.le_of_lt_succ hlt)
    exact absurd ((h.wakes j k' rfl hr).symm.trans hafter.state) (by decide)
  · exact heq
  · obtain ⟨k', hr⟩ := waits_ticks cur (k.sysSleep c cur n).2 n.toNat
    have hawake := hr.wakes hok hstart
    exact absurd ((h.asleep _ _ hgt hr.tick).symm.trans hawake) (by decide)

/-- `sys_sleep(n)` wakes on tick `n + 1` after the call, and never on tick `n`. -/
theorem sleep_wakes_late (hk : CpuOk k) (hc : k.cpu c = some cur)
    (hlive : (k.proc cur).killed = false) (hn : 0 < n.toInt) :
    ¬ WakesAt k c cur n n.toNat ∧ ∀ m, WakesAt k c cur n m ↔ m = n.toNat + 1 := by
  have hne : n ≠ 0 := by
    rintro rfl
    exact absurd hn (by decide)
  have hstart : AsleepFor n ((k.sysSleep c cur n).2.proc cur) := asleep_sysSleep hlive hne
  have hok : CpuOk (k.sysSleep c cur n).2 := cpuOk_step hk (.sysSleep k c cur n hc)
  have hticks : (k.sysSleep c cur n).2.ticks = k.ticks := by
    rw [sysSleep_sleeps hlive hne]
    rfl
  refine ⟨fun h => ?_, fun m => ⟨fun h => h.eq hok hstart, ?_⟩⟩
  · exact absurd (h.eq hok hstart) (Nat.ne_of_lt (Nat.lt_succ_self _))
  · rintro rfl
    exact wakesAt_succ hok hstart hticks

/-- `init` sleeps for one tick, and wakes on the second. -/
theorem sleep_wakes_late_one : WakesAt justDispatched () justDispatched.initproc 1 2 := by
  have hc : justDispatched.cpu () = some justDispatched.initproc := by decide +kernel
  have hlive : (justDispatched.proc justDispatched.initproc).killed = false := by decide +kernel
  have hn : 0 < (1 : BitVec 32).toInt := by decide
  have h := sleep_wakes_late (cpuOk_hinted justDispatched_reachable) hc hlive hn
  exact (h.2 2).2 rfl

/-- `init` calls `sys_sleep(1)`, one tick passes, and it is still asleep, though the loop of
`sys_sleep` would end. -/
theorem asleep_after_one_tick : ∃ (k k' : Kernel Unit) (i : Slot), (hinted Unit).Reachable k
    ∧ k.cpu () = some i ∧ (k.proc i).killed = false ∧ k.sysSleep () i 1 = (none, k')
    ∧ (k'.tick.proc i).state = .sleeping ∧ k'.tick.ticks - k.ticks = 1 := by
  let i := justDispatched.initproc
  refine ⟨justDispatched, (justDispatched.sysSleep () i 1).2, i, justDispatched_reachable,
    by decide +kernel, by decide +kernel, Prod.ext (by decide +kernel) rfl, by decide +kernel,
    by decide +kernel⟩

end SystemsPortfolio.Stcf
