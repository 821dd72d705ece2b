/-
SystemsPortfolio/Stcf/LockOrder.lean

The two spin locks `tickslock` and `ptable.lock` of the STCF kernel and the order in
which its paths take them.

The accounting of the scheduler reads the tick counter through `ticks_now`, which takes
`tickslock`, and it does so under `ptable.lock`: in `scheduler`, `yield`, `sleep` and
`exit`.  The timer interrupt goes the other way round: `trap` takes `tickslock` and calls
`sleep_proc_notify`, which takes `ptable.lock`; and `sys_sleep` calls `sleep` with
`tickslock` held.  So two CPUs can come to hold one lock each and wait for the other's,
which is shown here by a run, and they never leave that state.  It cannot happen in a
run in which no CPU opens a nest of one order while another is in a nest of the other.

Each CPU is a control-flow graph over its lock operations.  Interrupts are off while a
CPU holds a spin lock, so the timer, which only CPU 0 handles, and the wake-ups of other
interrupts come in at the points where it holds none.
-/
import SystemsPortfolio.Lib.Locks

namespace SystemsPortfolio.Stcf

open Locks

/-! ### The paths -/

/-- The two locks. -/
inductive KLock
  | tickslock
  | ptable
  deriving DecidableEq, Repr

/-- A point at which a CPU holds neither lock. -/
inductive Open
  /-- a process runs -/
  | user
  /-- the top of the loop of `scheduler` -/
  | schedTop
  /-- in `sleep`, called by `sys_sleep`, before it takes `tickslock` back -/
  | reacquire
  deriving DecidableEq, Repr

/-- Where a CPU is. -/
inductive Point
  | free (o : Open)
  /-- under `ptable.lock` only: `allocproc`, `fork`, `clone`, `wakeup`, `kill` -/
  | tableOnly (back : Open)
  /-- under `tickslock` only: `sys_uptime` -/
  | ticksOnly
  /-- `scheduler` looks for a process -/
  | schedScan
  /-- `scheduler` has one and is in `ticks_now` -/
  | schedStamp
  | schedRead
  /-- switched into the process, which still holds `ptable.lock` -/
  | resumed
  /-- the loop of `wait` -/
  | waitScan
  /-- `yield`, `sleep` and `exit` before the charge -/
  | leaving
  /-- `stcf_account_before_switch` is in `ticks_now` -/
  | leaveStamp
  | leaveRead
  /-- charged, on the way to `scheduler` through `sched` -/
  | left
  /-- the loop of `sys_sleep` -/
  | sleepTest
  /-- `sleep`, called by `sys_sleep`, before `acquire(&ptable.lock)` -/
  | sleepCall
  | sleepBoth
  /-- the timer interrupt before `sleep_proc_notify` takes `ptable.lock` -/
  | tick (back : Open)
  | notify (back : Open)
  | ticked (back : Open)
  deriving DecidableEq, Repr

/-- The lock operations of the paths; `boot` tells CPU 0, which handles the timer. -/
inductive Path (boot : Bool) : Point → Act KLock → Point → Prop
  | tableOnly (o : Open) : Path boot (.free o) (.acq .ptable) (.tableOnly o)
  | tableOnlyEnd (o : Open) : Path boot (.tableOnly o) (.rel .ptable) (.free o)
  | uptime : Path boot (.free .user) (.acq .tickslock) .ticksOnly
  | uptimeEnd : Path boot .ticksOnly (.rel .tickslock) (.free .user)
  -- scheduler
  | schedule : Path boot (.free .schedTop) (.acq .ptable) .schedScan
  | scheduleNone : Path boot .schedScan (.rel .ptable) (.free .schedTop)
  | scheduleSome : Path boot .schedScan .tau .schedStamp
  | schedStamp : Path boot .schedStamp (.acq .tickslock) .schedRead
  | schedRead : Path boot .schedRead (.rel .tickslock) .resumed
  -- back in the process: `forkret`, `yield` and `sleep` on some other lock; `sleep` in
  -- `sys_sleep`; `sleep` in `wait`
  | resume : Path boot .resumed (.rel .ptable) (.free .user)
  | resumeSleep : Path boot .resumed (.rel .ptable) (.free .reacquire)
  | resumeWait : Path boot .resumed .tau .waitScan
  -- wait
  | wait : Path boot (.free .user) (.acq .ptable) .waitScan
  | waitEnd : Path boot .waitScan (.rel .ptable) (.free .user)
  | waitSleep : Path boot .waitScan .tau .leaving
  -- yield, exit, and sleep on a lock that is neither of the two
  | leave : Path boot (.free .user) (.acq .ptable) .leaving
  | leaveCharge : Path boot .leaving .tau .leaveStamp
  | leaveNoCharge : Path boot .leaving .tau .left
  | leaveStamp : Path boot .leaveStamp (.acq .tickslock) .leaveRead
  | leaveRead : Path boot .leaveRead (.rel .tickslock) .left
  | left : Path boot .left (.rel .ptable) (.free .schedTop)
  -- sys_sleep
  | sysSleep : Path boot (.free .user) (.acq .tickslock) .sleepTest
  | reacquire : Path boot (.free .reacquire) (.acq .tickslock) .sleepTest
  | sysSleepEnd : Path boot .sleepTest (.rel .tickslock) (.free .user)
  | sleepCall : Path boot .sleepTest .tau .sleepCall
  | sleepLock : Path boot .sleepCall (.acq .ptable) .sleepBoth
  | sleepUnlock : Path boot .sleepBoth (.rel .tickslock) .leaving
  -- trap
  | timer (o : Open) (h : boot = true) : Path boot (.free o) (.acq .tickslock) (.tick o)
  | notify (o : Open) : Path boot (.tick o) (.acq .ptable) (.notify o)
  | notifyEnd (o : Open) : Path boot (.notify o) (.rel .ptable) (.ticked o)
  | timerEnd (o : Open) : Path boot (.ticked o) (.rel .tickslock) (.free o)

/-- The locks held at a point. -/
def Point.holds : Point → KLock → Bool
  | .free _, _ => false
  | .ticksOnly, l | .sleepTest, l | .sleepCall, l | .tick _, l | .ticked _, l => l == .tickslock
  | .schedRead, _ | .leaveRead, _ | .sleepBoth, _ | .notify _, _ => true
  | .tableOnly _, l | .schedScan, l | .schedStamp, l | .resumed, l | .waitScan, l
  | .leaving, l | .leaveStamp, l | .left, l => l == .ptable

/-- The lock a CPU at this point, holding the other one, spins for. -/
def Point.waits : Point → Option KLock
  | .schedStamp | .leaveStamp => some .tickslock
  | .sleepCall | .tick _ => some .ptable
  | _ => none

variable {C : Type*} [DecidableEq C]

/-- The paths of every CPU, of which `cpu0` handles the timer. -/
def kernelPaths (cpu0 : C) : Program C Point KLock where
  move c := Path (decide (c = cpu0))
  holds p l := p.holds l = true
  acq_holds := by
    rintro c p l p' h
    cases h <;> refine ⟨by simp [Point.holds], fun m => ?_⟩ <;> cases m <;> simp [Point.holds]
  rel_holds := by
    rintro c p l p' h
    cases h <;> refine ⟨by simp [Point.holds], fun m => ?_⟩ <;> cases m <;> simp [Point.holds]
  tau_holds := by
    rintro c p p' h
    cases h <;> exact fun m => by cases m <;> simp [Point.holds]

/-- The runs of the kernel over the steps that `ok` allows; every CPU starts in
`scheduler`. -/
def kernelRuns (cpu0 : C) (ok : State C Point KLock → C → Point → Prop) :
    Transition.System (State C Point KLock) :=
  runs (kernelPaths cpu0) (.free .schedTop) ok

theorem kernelRuns_owned {cpu0 : C} {ok : State C Point KLock → C → Point → Prop}
    {s : State C Point KLock} (h : (kernelRuns cpu0 ok).Reachable s) :
    Owned (kernelPaths cpu0) s :=
  owned_reachable (fun _ => Bool.false_ne_true) h

/-! ### The deadlock -/

/-- CPU `c` holds `tickslock` and spins for `ptable.lock`, and CPU `d` the other way
round. -/
def Clinch (s : State C Point KLock) (c d : C) : Prop :=
  (s.pt c).holds .tickslock = true ∧ (s.pt c).waits = some .ptable
    ∧ (s.pt d).holds .ptable = true ∧ (s.pt d).waits = some .tickslock

/-- Some two CPUs wait for each other. -/
def Deadlocked (s : State C Point KLock) : Prop :=
  ∃ c d, Clinch s c d

/-- A CPU that waits for a lock does nothing else. -/
theorem waits_move {boot : Bool} {p p' : Point} {l : KLock} {a : Act KLock}
    (hp : p.waits = some l) (h : Path boot p a p') : a = .acq l := by
  cases h <;> simp_all [Point.waits]

/-- Neither of the two ever moves again. -/
theorem clinch_stuck {cpu0 : C} {s s' : State C Point KLock} {c d : C}
    (hs : (kernelRuns cpu0 fun _ _ _ => True).Reachable s) (h : Clinch s c d)
    (hr : Relation.ReflTransGen (kernelRuns cpu0 fun _ _ _ => True).step s s') :
    s'.pt c = s.pt c ∧ s'.pt d = s.pt d := by
  suffices (kernelRuns cpu0 fun _ _ _ => True).Reachable s'
    ∧ s'.pt c = s.pt c ∧ s'.pt d = s.pt d from this.2
  induction hr with
  | refl => exact ⟨hs, rfl, rfl⟩
  | @tail s₁ s₂ _ hstep ih =>
      obtain ⟨hs₁, hc, hd⟩ := ih
      obtain ⟨e, p', -, hmove⟩ := id hstep
      -- a step of a CPU that spins for a lock finds it taken
      have hwait (x y : C) (l : KLock) (hx : (s₁.pt x).waits = some l)
          (hy : (s₁.pt y).holds l = true) : e ≠ x := by
        rintro rfl
        have hheld : s₁.held l = some y := (kernelRuns_owned hs₁ l y).2 hy
        cases hmove with
        | acq l' hm hfree =>
            obtain rfl := Act.acq.inj (waits_move hx hm)
            exact absurd (hheld.symm.trans hfree) (by simp)
        | rel l' hm => cases waits_move hx hm
        | tau hm => cases waits_move hx hm
      have hec := hwait c d .ptable (hc ▸ h.2.1) (hd ▸ h.2.2.1)
      have hed := hwait d c .tickslock (hd ▸ h.2.2.2) (hc ▸ h.1)
      refine ⟨hs₁.next hstep, ?_, ?_⟩
      · rw [hmove.pt_eq, Function.update_of_ne hec.symm, hc]
      · rw [hmove.pt_eq, Function.update_of_ne hed.symm, hd]

instance (s : State C Point KLock) (c d : C) : Decidable (Clinch s c d) :=
  inferInstanceAs (Decidable (_ ∧ _ ∧ _ ∧ _))

/-- Two CPUs: CPU 1 has taken `ptable.lock` and chosen a process to stamp, then CPU 0 has
taken `tickslock` in the timer interrupt. -/
def twoSpinning : State (Fin 2) Point KLock :=
  { pt := Function.update
      (Function.update (Function.update (fun _ => .free .schedTop) 1 .schedScan) 1 .schedStamp)
      0 (.tick .schedTop)
    held := Function.update (Function.update (fun _ => none) .ptable (some 1))
      .tickslock (some 0) }

/-- A timer interrupt on CPU 0 and a dispatch on CPU 1 deadlock. -/
theorem timer_dispatch_deadlock :
    (kernelRuns (0 : Fin 2) fun _ _ _ => True).Reachable twoSpinning ∧ Deadlocked twoSpinning := by
  refine ⟨?_, 0, 1, by decide⟩
  have h₀ : (kernelRuns (0 : Fin 2) fun _ _ _ => True).Reachable _ := .start rfl
  have h₁ := h₀.next ⟨1, .schedScan, trivial, .acq _ KLock.ptable Path.schedule rfl⟩
  have h₂ := h₁.next ⟨1, .schedStamp, trivial, .tau _ Path.scheduleSome⟩
  exact h₂.next ⟨0, .tick .schedTop, trivial,
    .acq _ KLock.tickslock (Path.timer .schedTop rfl) rfl⟩

/-! ### Runs that keep the two orders apart -/

/-- In a nest that has taken `tickslock` and may take `ptable.lock` next. -/
def Point.ticksFirst : Point → Bool
  | .tick _ | .sleepTest | .sleepCall => true
  | _ => false

/-- In a nest that has taken `ptable.lock` and may take `tickslock` next. -/
def Point.tableFirst : Point → Bool
  | .schedScan | .schedStamp | .resumed | .waitScan | .leaving | .leaveStamp => true
  | _ => false

/-- CPU `c`, holding neither lock, opens a nest of one order only while no CPU is in a
nest of the other order. -/
def KeepsApart (s : State C Point KLock) (c : C) (p' : Point) : Prop :=
  (∃ o, s.pt c = .free o) →
    (p'.ticksFirst = true → ∀ d, (s.pt d).tableFirst = false)
      ∧ (p'.tableFirst = true → ∀ d, (s.pt d).ticksFirst = false)

/-- A nest that takes `tickslock` first is opened with no lock held. -/
theorem ticksFirst_move {boot : Bool} {p p' : Point} {a : Act KLock} (h : Path boot p a p')
    (hp' : p'.ticksFirst = true) : p.ticksFirst = true ∨ ∃ o, p = .free o := by
  cases h <;> simp_all [Point.ticksFirst]

/-- A nest that takes `ptable.lock` first is opened with no lock held, or is what is left
of a nest under both. -/
theorem tableFirst_move {boot : Bool} {p p' : Point} {a : Act KLock} (h : Path boot p a p')
    (hp' : p'.tableFirst = true) :
    p.tableFirst = true ∨ p.holds .tickslock = true ∨ ∃ o, p = .free o := by
  cases h <;> simp_all [Point.tableFirst, Point.holds]

theorem ticksFirst_holds {p : Point} (h : p.ticksFirst = true) : p.holds .tickslock = true := by
  cases p <;> simp_all [Point.ticksFirst, Point.holds]

theorem ticksFirst_of_waits {p : Point} (h : p.waits = some .ptable) : p.ticksFirst = true := by
  cases p <;> simp_all [Point.waits, Point.ticksFirst]

theorem tableFirst_of_waits {p : Point} (h : p.waits = some .tickslock) :
    p.tableFirst = true := by
  cases p <;> simp_all [Point.waits, Point.tableFirst]

/-- No CPU is in a nest of one order while another is in a nest of the other. -/
def Apart (s : State C Point KLock) : Prop :=
  ∀ c d, (s.pt c).ticksFirst = true → (s.pt d).tableFirst = false

theorem apart_step {cpu0 c : C} {p' : Point} {s s' : State C Point KLock}
    (ho : Owned (kernelPaths cpu0) s) (h : Apart s) (hk : KeepsApart s c p')
    (hs : Step (kernelPaths cpu0) c p' s s') : Apart s' := by
  obtain ⟨a, hm⟩ := hs.move
  intro x y hx
  by_contra hy
  rw [Bool.not_eq_false] at hy
  rw [hs.pt_eq] at hx hy
  rcases eq_or_ne x c with rfl | hxc
  · rw [Function.update_self] at hx
    rcases eq_or_ne y x with rfl | hyx
    · -- no point is in nests of both orders
      rw [Function.update_self] at hy
      cases p' <;> simp_all [Point.ticksFirst, Point.tableFirst]
    · rw [Function.update_of_ne hyx] at hy
      rcases ticksFirst_move hm hx with hold | hfree
      · exact absurd ((h x y hold).symm.trans hy) (by decide)
      · exact absurd (((hk hfree).1 hx y).symm.trans hy) (by decide)
  · rw [Function.update_of_ne hxc] at hx
    rcases eq_or_ne y c with rfl | hyc
    · rw [Function.update_self] at hy
      rcases tableFirst_move hm hy with hold | hboth | hfree
      · exact absurd ((h x y hx).symm.trans hold) (by decide)
      · exact hxc (ho.unique (ticksFirst_holds hx) hboth)
      · exact absurd (((hk hfree).2 hy x).symm.trans hx) (by decide)
    · rw [Function.update_of_ne hyc] at hy
      exact absurd ((h x y hx).symm.trans hy) (by decide)

theorem apart_reachable {cpu0 : C} {s : State C Point KLock}
    (h : (kernelRuns cpu0 KeepsApart).Reachable s) : Apart s := by
  refine h.invariant ?_ ?_
  · rintro s rfl _ _ hc
    exact absurd hc Bool.false_ne_true
  · rintro s s' hr ha ⟨c, p', hk, hs⟩
    exact apart_step (kernelRuns_owned hr) ha hk hs

/-- A run whose steps all keep the two orders apart never deadlocks. -/
theorem apart_runs_no_deadlock (cpu0 : C) {s : State C Point KLock}
    (h : (kernelRuns cpu0 KeepsApart).Reachable s) : ¬ Deadlocked s := by
  rintro ⟨c, d, -, hc, -, hd⟩
  have hapart := apart_reachable h c d (ticksFirst_of_waits hc)
  exact absurd (hapart.symm.trans (tableFirst_of_waits hd)) (by decide)

omit [DecidableEq C] in
/-- A CPU that holds a lock opens no nest. -/
theorem keepsApart_of_holds {s : State C Point KLock} {c : C} {p' : Point} (l : KLock)
    (h : (s.pt c).holds l = true) : KeepsApart s c p' := by
  rintro ⟨o, ho⟩
  rw [ho] at h
  cases h

/-- CPU 1 takes `ptable.lock` and then `tickslock` to dispatch a process; when it is done CPU 0
takes `tickslock` in the timer interrupt and then waits for `ptable.lock`, which CPU 1 has taken
in `kill`. -/
theorem apart_runs_no_deadlock_inTurn : ∃ s : State (Fin 2) Point KLock,
    s.pt 0 = .tick .schedTop ∧ s.pt 1 = .tableOnly .user ∧ ¬ Deadlocked s := by
  have h₀ : (kernelRuns (0 : Fin 2) KeepsApart).Reachable _ := .start rfl
  have h₁ := h₀.next ⟨1, .schedScan, fun _ => ⟨fun h => absurd h Bool.false_ne_true, fun _ _ => rfl⟩,
    .acq _ KLock.ptable Path.schedule rfl⟩
  have h₂ := h₁.next ⟨1, .schedStamp, keepsApart_of_holds .ptable rfl, .tau _ Path.scheduleSome⟩
  have h₃ := h₂.next ⟨1, .schedRead, keepsApart_of_holds .ptable rfl,
    .acq _ KLock.tickslock Path.schedStamp rfl⟩
  have h₄ := h₃.next ⟨1, .resumed, keepsApart_of_holds .ptable rfl,
    .rel _ KLock.tickslock Path.schedRead⟩
  have h₅ := h₄.next ⟨1, .free .user, keepsApart_of_holds .ptable rfl,
    .rel _ KLock.ptable Path.resume⟩
  have h₆ := h₅.next ⟨1, .tableOnly .user, fun _ => ⟨fun h => absurd h Bool.false_ne_true,
    fun h => absurd h Bool.false_ne_true⟩, .acq _ KLock.ptable (Path.tableOnly .user) rfl⟩
  have h₇ := h₆.next ⟨0, .tick .schedTop, fun _ => ⟨fun _ => by decide,
    fun h => absurd h Bool.false_ne_true⟩, .acq _ KLock.tickslock (Path.timer .schedTop rfl) rfl⟩
  exact ⟨_, rfl, rfl, apart_runs_no_deadlock 0 h₇⟩

end SystemsPortfolio.Stcf
