/-
SystemsPortfolio/Stcf/ForkOrder.lean

Who runs after a `fork`.

`fork` copies the `t_remain` of the parent to the child and then yields, and the yield charges
the parent for its slice so far.  A parent that has been charged is the shorter of the two and
comes first itself.  When there is nothing to charge the scheduler prefers the higher pid, and
that is the child's as long as `nextpid` has not wrapped; among equal pids it keeps the lower
slot.  On one CPU nobody but the running process can be marked, so that the marks of `give_cpu`
play no part.
-/
import SystemsPortfolio.Stcf.GiveCpu
import SystemsPortfolio.Stcf.Slices

namespace SystemsPortfolio.Stcf

variable {C : Type*} [DecidableEq C] {k k' k₁ : Kernel C} {c : C} {cur i child : Slot}
variable {kallocOk : Bool}

/-! ### Marks -/

theorem oneShot_setRemain [Subsingleton C] (hk : CpuOk k) (h : OneShot k) (hc : k.cpu c = some cur)
    (t : BitVec 32) : OneShot (k.setRemain c cur t) := by
  have hset : OneShot (k.setProc cur { k.proc cur with tRemain := t }) := by
    have hsame : ∀ i, Same (k.proc i)
        ((k.setProc cur { k.proc cur with tRemain := t }).proc i) := same_update ⟨rfl, id⟩
    refine ⟨fun i => ?_, fun p hp => ⟨fun hun => ?_, (h.alone p hp).2⟩⟩
    · rw [(hsame i).once]
      exact h.mark i
    · exact (h.alone p hp).1 ((hsame p).freed hun)
  rw [Kernel.setRemain]
  dsimp only
  split
  · exact oneShot_does (cpuOk_setTime hk) hset (.yield _ c cur hc)
  · exact hset

theorem oneShot_hinted [Subsingleton C] (h : (hinted C).Reachable k) : OneShot k := by
  refine h.invariant ?_ ?_
  · rintro _ rfl
    exact oneShot_reachable (.start rfl)
  · intro k k' hr hk hs
    rcases hintStep_cases hs with hs | rfl | ⟨c, cur, t, hc, rfl⟩
    · obtain ⟨l, hl⟩ := step_iff_does.1 hs
      exact oneShot_does (cpuOk_hinted hr) hk hl
    · exact hk
    · exact oneShot_setRemain (cpuOk_hinted hr) hk hc t

omit [DecidableEq C] in
/-- On one CPU, while the running process is not marked nobody is. -/
theorem OneShot.unmarked (h : OneShot k) (hc : k.cpu c = some cur) (hm : ¬ k.Marked cur) :
    k.skipTarget = none ∧ ∀ i, (k.proc i).skipOnce = false := by
  have htarget : k.skipTarget = none := by
    rcases e : k.skipTarget with - | p
    · rfl
    · obtain rfl := (h.alone p e).2 c cur hc
      exact absurd (Or.inr e) hm
  refine ⟨htarget, fun i => h.skipOnce_eq_false ?_⟩
  rw [htarget]
  simp

/-! ### A successful `fork` -/

theorem stcfAccountBeforeSwitch_pid (now : BitVec 32) (p : Proc) :
    (stcfAccountBeforeSwitch now p).pid = p.pid := by
  rw [stcfAccountBeforeSwitch]
  split <;> rfl

/-- What a successful `fork` by the process of CPU `c` leaves behind. -/
structure Forked (c : C) (cur child : Slot) (k k' : Kernel C) : Prop where
  state : (k'.proc child).state = .runnable
  remain : (k'.proc child).tRemain = (k.proc cur).tRemain
  pid : (k'.proc child).pid = k.nextpid
  once : (k'.proc child).skipOnce = false
  parent : k'.proc cur = { stcfAccountBeforeSwitch k.ticks (k.proc cur) with state := .runnable }
  others : ∀ i, i ≠ child → i ≠ cur → k'.proc i = k.proc i
  target : k'.skipTarget = k.skipTarget
  cpu : k'.cpu c = none

omit [DecidableEq C] in
theorem allocproc_eq_some (h : k.allocproc kallocOk = (some i, k₁)) :
    ∃ p, Took i p k k₁ ∧ p.pid = k.nextpid := by
  rw [Kernel.allocproc] at h
  split at h
  · cases h
  · next j hj =>
      have hun : (k.proc j).state = .unused := by simpa using List.find?_some hj
      dsimp only at h
      split at h
      · cases h
        exact ⟨_, ⟨hun, rfl, rfl, rfl, rfl⟩, rfl⟩
      · cases h

theorem fork_forked (hrun : (k.proc cur).state = .running)
    (hchild : (k.allocproc kallocOk).1 = some child) :
    child ≠ cur ∧ Forked c cur child k (k.fork c cur kallocOk true).2 := by
  rcases e : k.allocproc kallocOk with ⟨i, k₁⟩
  rw [e] at hchild
  obtain rfl : i = some child := hchild
  obtain ⟨p, ht, hp⟩ := allocproc_eq_some e
  rw [Kernel.fork, e]
  have hne : cur ≠ child := by
    rintro rfl
    exact absurd (hrun.symm.trans ht.unused) (by decide)
  have hslot : ∀ j, j ≠ child → k₁.proc j = k.proc j := fun j hj => by
    rw [ht.proc, Function.update_of_ne hj]
  -- the yield changes the slot of the parent alone
  have hkeep (j : Slot) (hj : j ≠ cur) :
      ((k₁.forkChild cur child).yield c cur).proc j = (k₁.forkChild cur child).proc j :=
    switchOut_proc_of_ne _ hj
  refine ⟨hne.symm, ?_⟩
  show Forked c cur child k ((k₁.forkChild cur child).yield c cur)
  refine ⟨?_, ?_, ?_, ?_, ?_, fun j hj hcur => ?_, ht.skipTarget, ?_⟩
  · rw [hkeep child hne.symm, Kernel.forkChild, setProc_self]
  · rw [hkeep child hne.symm, Kernel.forkChild, setProc_self, hslot cur hne]
  · rw [hkeep child hne.symm, Kernel.forkChild, setProc_self, ht.proc, Function.update_self, hp]
  · rw [hkeep child hne.symm, Kernel.forkChild, setProc_self]
  · rw [Kernel.yield, switchOut_proc_self, Kernel.forkChild, setProc_of_ne _ hne, hslot cur hne,
      ← ht.ticks]
    rfl
  · rw [hkeep j hcur, Kernel.forkChild, setProc_of_ne _ hj, hslot j hj]
  · exact Function.update_self ..

/-! ### The decision after it -/

omit [DecidableEq C] in
/-- Nobody is marked after the `fork` of a process that is not. -/
theorem Forked.unmarked (h : Forked c cur child k k')
    (hk : k.skipTarget = none ∧ ∀ i, (k.proc i).skipOnce = false) (i : Slot) : ¬ k'.Marked i := by
  rw [Kernel.Marked, h.target, hk.1, not_or]
  refine ⟨?_, by simp⟩
  by_cases hi : i = child
  · rw [hi, h.once]
    simp
  by_cases hcur : i = cur
  · rw [hcur, h.parent]
    show ¬ (stcfAccountBeforeSwitch k.ticks (k.proc cur)).skipOnce = true
    rw [stcfAccountBeforeSwitch_skipOnce, hk.2]
    simp
  · rw [h.others i hi hcur, hk.2]
    simp

/-- The time after a charge of `x` ticks, which wraps below -2^31. -/
theorem toInt_sub_cases (r x : BitVec 32) :
    -2 ^ 31 ≤ r.toInt - x.toNat ∧ (r - x).toInt = r.toInt - x.toNat
      ∨ r.toInt - x.toNat < -2 ^ 31 ∧ (r - x).toInt = r.toInt - x.toNat + 2 ^ 32 := by
  have hr := r.isLt
  have hx := x.isLt
  rw [BitVec.toInt_eq_toNat_cond, BitVec.toInt_eq_toNat_cond, BitVec.toNat_sub]
  split <;> split <;> omega

/-- The yield charges the parent nothing. -/
def Kernel.Uncharged (k : Kernel C) (cur : Slot) : Prop :=
  (k.proc cur).tLastScheduled.toInt < 0 ∨ k.ticks = (k.proc cur).tLastScheduled

/-- The charge is so large that the time of the parent wraps. -/
def Kernel.ChargeWraps (k : Kernel C) (cur : Slot) : Prop :=
  0 ≤ (k.proc cur).tLastScheduled.toInt
    ∧ (k.proc cur).tRemain.toInt - (k.ticks - (k.proc cur).tLastScheduled).toNat < -2 ^ 31

/-- A child in slot `child` comes before its parent: the parent is not charged and the next pid
is the higher one, or the same in a lower slot; or the charge wraps. -/
def Kernel.ChildFirst (k : Kernel C) (cur child : Slot) : Prop :=
  k.Uncharged cur ∧ ((k.proc cur).pid.toInt < k.nextpid.toInt
      ∨ (k.proc cur).pid = k.nextpid ∧ child < cur)
    ∨ k.ChargeWraps cur

instance (k : Kernel C) (cur child : Slot) : Decidable (k.ChildFirst cur child) :=
  inferInstanceAs (Decidable ((_ ∨ _) ∧ (_ ∨ _ ∧ _) ∨ _ ∧ _))

omit [DecidableEq C] in
/-- The time of the parent after the yield: the same, more, or less. -/
theorem account_cases (k : Kernel C) (cur : Slot) :
    let r := (stcfAccountBeforeSwitch k.ticks (k.proc cur)).tRemain.toInt
    k.Uncharged cur ∧ ¬ k.ChargeWraps cur ∧ r = (k.proc cur).tRemain.toInt
      ∨ ¬ k.Uncharged cur ∧ k.ChargeWraps cur ∧ (k.proc cur).tRemain.toInt < r
      ∨ ¬ k.Uncharged cur ∧ ¬ k.ChargeWraps cur ∧ r < (k.proc cur).tRemain.toInt := by
  rw [Kernel.Uncharged, Kernel.ChargeWraps, stcfAccountBeforeSwitch]
  by_cases hlast : 0 ≤ (k.proc cur).tLastScheduled.toInt
  · rw [if_pos hlast]
    have heq : k.ticks = (k.proc cur).tLastScheduled
        ↔ (k.ticks - (k.proc cur).tLastScheduled).toNat = 0 := by
      bv_omega
    have hcases := toInt_sub_cases (k.proc cur).tRemain (k.ticks - (k.proc cur).tLastScheduled)
    have hlt := (k.ticks - (k.proc cur).tLastScheduled).isLt
    have hmin := BitVec.le_toInt (k.proc cur).tRemain
    rw [heq]
    dsimp only
    omega
  · rw [if_neg hlast]
    dsimp only
    omega

omit [DecidableEq C] in
/-- Where the others have more time left than the parent, the decision is between the parent
and the child. -/
theorem Forked.pick_cases (h : Forked c cur child k k') (hun : ∀ i, ¬ k'.Marked i)
    (hothers : ∀ i, (k.proc i).state = .runnable →
      (k.proc cur).tRemain.toInt < (k.proc i).tRemain.toInt) :
    k'.pick = some child ∨ k'.pick = some cur := by
  rcases pick_spec k' with ⟨-, hnone⟩ | ⟨b, hpick, -⟩
  · exact absurd h.state (hnone child)
  by_contra! hne
  rw [hpick] at hne
  have hb : b ≠ child := fun e => hne.1 (by rw [e])
  have hbc : b ≠ cur := fun e => hne.2 (by rw [e])
  have hle := le_of_not_better (not_better_of_pick hpick h.state (hun child))
  have hrun := pick_runnable hpick
  rw [h.others b hb hbc] at hle hrun
  rw [h.remain] at hle
  exact absurd (hothers b hrun) (by omega)

omit [DecidableEq C] in
/-- Where the others have more time left than the parent, the child comes before everybody
if and only if it comes before its parent. -/
theorem Forked.pick_iff (h : Forked c cur child k k') (hne : child ≠ cur)
    (hun : ∀ i, ¬ k'.Marked i) (hothers : ∀ i, (k.proc i).state = .runnable →
      (k.proc cur).tRemain.toInt < (k.proc i).tRemain.toInt) :
    k'.pick = some child ↔ k.ChildFirst cur child := by
  have hcur : (k'.proc cur).state = .runnable := by rw [h.parent]
  have hremain : (k'.proc cur).tRemain
      = (stcfAccountBeforeSwitch k.ticks (k.proc cur)).tRemain := by rw [h.parent]
  have hpid : (k'.proc cur).pid = (k.proc cur).pid := by
    rw [h.parent]
    exact stcfAccountBeforeSwitch_pid ..
  rw [pick_left_iff (h.pick_cases hun hothers) hne h.state (hun child) hcur (hun cur), Before,
    hremain, h.remain, hpid, h.pid, Kernel.ChildFirst, ← BitVec.toInt_inj]
  rcases account_cases k cur with ⟨hu, hw, hr⟩ | ⟨hu, hw, hr⟩ | ⟨hu, hw, hr⟩
  · rw [hr]
    by_cases hlt : child < cur
    · simp only [hu, hw, hlt, true_and, and_true, or_false]
      omega
    · simp only [hu, hw, hlt, true_and, and_false, or_false]
      omega
  · simp only [hw, or_true, iff_true]
    omega
  · simp only [hu, hw, false_and, or_false, iff_false]
    omega

/-- On one CPU the decision after a successful `fork`, by a process that is not marked while
every runnable one has more time left, puts the child on the CPU if and only if the child comes
before its parent: there is nothing to charge and the new pid is not the lower one, or the
charge wraps. -/
theorem fork_runs_child_iff [Subsingleton C] (hk : (hinted C).Reachable k) (hc : k.cpu c = some cur)
    (hm : ¬ k.Marked cur) (hchild : (k.allocproc kallocOk).1 = some child)
    (hothers : ∀ i, (k.proc i).state = .runnable →
      (k.proc cur).tRemain.toInt < (k.proc i).tRemain.toInt) :
    ((k.fork c cur kallocOk true).2.dispatch c).cpu c = some child ↔ k.ChildFirst cur child := by
  obtain ⟨hne, h⟩ := fork_forked (c := c) ((cpuOk_hinted hk).running c cur hc) hchild
  rw [dispatch_cpu_eq_pick h.cpu]
  exact h.pick_iff hne (h.unmarked ((oneShot_hinted hk).unmarked hc hm)) hothers

/-- `init` forks at the tick of its dispatch: its child runs next. -/
theorem fork_runs_child_iff_early : ∃ (k' : Kernel Unit) (child : Slot),
    justDispatched.fork () justDispatched.initproc true true = (2, k')
      ∧ (justDispatched.allocproc true).1 = some child ∧ (k'.dispatch ()).cpu () = some child := by
  have hf : (justDispatched.fork () justDispatched.initproc true true).1 = 2 := by decide +kernel
  have hchild : (justDispatched.allocproc true).1 = some ⟨1, by decide⟩ := by decide +kernel
  have hc : justDispatched.cpu () = some justDispatched.initproc := by decide +kernel
  have hm : ¬ justDispatched.Marked justDispatched.initproc := by decide +kernel
  have hfirst : justDispatched.ChildFirst justDispatched.initproc ⟨1, by decide⟩ := by
    decide +kernel
  have hrun := (fork_runs_child_iff justDispatched_reachable hc hm hchild (by decide +kernel)).mpr
    hfirst
  exact ⟨_, _, Prod.ext hf rfl, hchild, hrun⟩

/-- `init` forks after three ticks, alone in the system: it runs on itself. -/
theorem fork_runs_parent : ∃ (k k' : Kernel Unit) (cur : Slot), (hinted Unit).Reachable k
    ∧ k.cpu () = some cur ∧ ¬ k.Marked cur ∧ (∀ i, (k.proc i).state ≠ .runnable)
    ∧ k.fork () cur true true = (2, k') ∧ (k'.dispatch ()).cpu () = some cur
    ∧ ∃ child, (k.allocproc true).1 = some child ∧ (k'.proc child).pid = 2
      ∧ (k'.proc child).state = .runnable ∧ child ≠ cur := by
  let k := justDispatched.tick.tick.tick
  let k' := (k.fork () k.initproc true true).2
  refine ⟨k, k', k.initproc, ?_, by decide +kernel, by decide +kernel, by decide +kernel,
    Prod.ext (by decide +kernel) rfl, by decide +kernel, 1, by decide +kernel⟩
  exact ((justDispatched_reachable.next (.step _ _ (.tick _))).next
    (.step _ _ (.tick _))).next (.step _ _ (.tick _))

end SystemsPortfolio.Stcf
