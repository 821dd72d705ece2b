/-
SystemsPortfolio/Stcf/Slices.lean

The charge for one slice.

While a process stays on its CPU nothing but its own hints changes its `t_remain` and its
`t_last_scheduled`; when it leaves, `stcf_account_before_switch` charges the ticks since the
tick noted in `t_last_scheduled`.  Two things follow from how that tick is kept.

* A hint overwrites `t_remain` and leaves `t_last_scheduled` as it is, so that the ticks used
  before the hint are charged to it as well (`hint_charge_iff`).
* The field is signed, and a negative value stands for a process that has not run yet.  A
  slice that starts at tick 2^31 or later is not charged at all (`slice_charge_iff`).
-/
import Mathlib.Data.BitVec
import SystemsPortfolio.Stcf.Preemption

namespace SystemsPortfolio.Stcf

variable {C : Type*} [DecidableEq C] {k k' k₁ k₂ k₃ : Kernel C} {c d : C} {b q cur : Slot}
variable {t : BitVec 32} {n : Nat}

/-! ### Slices -/

/-- A hint that process `q` of CPU `d` gives, or tries to give. -/
inductive Hints (d : C) (q : Slot) (k : Kernel C) : Kernel C → Prop
  | sysRemain (t : Option (BitVec 32)) : Hints d q k (k.sysRemain d q t).2
  | sysExec2 (t : Option (BitVec 32)) (argsOk : Bool) : Hints d q k (k.sysExec2 d q t argsOk).2

theorem Hints.cases (h : Hints d q k k') : k' = k ∨ ∃ t, k' = k.setRemain d q t := by
  cases h with
  | sysRemain t => exact sysRemain_cases k d q t
  | sysExec2 t argsOk => exact sysExec2_cases k d q t argsOk

/-- The runs from `k` in which `cur` stays on CPU `c` and gives no hint, with the number of
ticks.  The other CPUs do what they like. -/
inductive Slice (c : C) (cur : Slot) (k : Kernel C) : Nat → Kernel C → Prop
  | start : Slice c cur k 0 k
  | tick {n : Nat} {k' : Kernel C} (h : Slice c cur k n k') : Slice c cur k (n + 1) k'.tick
  | step {n : Nat} {k' k'' : Kernel C} (h : Slice c cur k n k') (hs : Step k' k'')
      (hticks : k''.ticks = k'.ticks) (hstay : k''.cpu c = some cur) : Slice c cur k n k''
  | hint {n : Nat} {k' k'' : Kernel C} {d : C} {q : Slot} (h : Slice c cur k n k')
      (hd : k'.cpu d = some q) (hq : q ≠ cur) (hs : Hints d q k' k'') : Slice c cur k n k''

omit [DecidableEq C] in
theorem tick_ticks (h : k.ticks = t + BitVec.ofNat 32 n) :
    k.tick.ticks = t + BitVec.ofNat 32 (n + 1) := by
  show k.ticks + 1 = _
  rw [h, BitVec.ofNat_add, BitVec.add_assoc]
  rfl

/-- What a slice leaves alone, and how far the counter has gone. -/
structure SliceKept (c : C) (cur : Slot) (n : Nat) (k k' : Kernel C) : Prop where
  ok : CpuOk k'
  cpu : k'.cpu c = some cur
  ticks : k'.ticks = k.ticks + BitVec.ofNat 32 n
  remain : (k'.proc cur).tRemain = (k.proc cur).tRemain
  last : (k'.proc cur).tLastScheduled = (k.proc cur).tLastScheduled

theorem SliceKept.step (h : SliceKept c cur n k k') (hs : Step k' k₁)
    (hticks : k₁.ticks = k'.ticks) (hstay : k₁.cpu c = some cur) : SliceKept c cur n k k₁ := by
  obtain ⟨hrem, hlast⟩ := running_kept h.ok hs h.cpu hstay
  exact ⟨cpuOk_step h.ok hs, hstay, hticks.trans h.ticks, hrem.trans h.remain, hlast.trans h.last⟩

theorem SliceKept.tick (h : SliceKept c cur n k k') : SliceKept c cur (n + 1) k k'.tick := by
  obtain ⟨hrem, hlast⟩ := running_kept h.ok (.tick k') h.cpu h.cpu
  exact ⟨cpuOk_step h.ok (.tick k'), h.cpu, tick_ticks h.ticks, hrem.trans h.remain,
    hlast.trans h.last⟩

/-- A hint on another CPU. -/
theorem SliceKept.hint (h : SliceKept c cur n k k') (hd : k'.cpu d = some q) (hq : q ≠ cur)
    (t : BitVec 32) : SliceKept c cur n k (k'.setRemain d q t) := by
  obtain ⟨hother, hcases⟩ := setRemain_cases k' d q t
  have hproc := hother cur hq.symm
  have hne : c ≠ d := by
    rintro rfl
    exact hq (Option.some.inj (hd.symm.trans h.cpu))
  refine ⟨cpuOk_setRemain h.ok hd t, ?_, ?_, ?_, ?_⟩
  · rcases hcases with hcpu | ⟨hcpu, -⟩
    · rw [hcpu, Function.update_of_ne hne]
      exact h.cpu
    · rw [hcpu]
      exact h.cpu
  · rw [setRemain_ticks]
    exact h.ticks
  · rw [hproc]
    exact h.remain
  · rw [hproc]
    exact h.last

theorem Slice.kept (hk : CpuOk k) (hc : k.cpu c = some cur) (h : Slice c cur k n k') :
    SliceKept c cur n k k' := by
  induction h with
  | start => exact ⟨hk, hc, (BitVec.add_zero _).symm, rfl, rfl⟩
  | tick _ ih => exact ih.tick
  | step _ hs hticks hstay ih => exact ih.step hs hticks hstay
  | hint _ hd hq hs ih =>
      rcases hs.cases with rfl | ⟨t, rfl⟩
      · exact ih
      · exact ih.hint hd hq t

/-- The charge at the end of a slice, in terms of its start. -/
theorem Slice.charge (hk : CpuOk k) (hc : k.cpu c = some cur) (h : Slice c cur k n k')
    (hs : Step k' k₁) (hleft : k₁.cpu c ≠ some cur) :
    (k₁.proc cur).tRemain =
      if 0 ≤ (k.proc cur).tLastScheduled.toInt then
        (k.proc cur).tRemain - (k.ticks + BitVec.ofNat 32 n - (k.proc cur).tLastScheduled)
      else (k.proc cur).tRemain := by
  have hkept := h.kept hk hc
  rw [leave_remain hkept.ok hs hkept.cpu hleft, stcfAccountBeforeSwitch, hkept.last, hkept.ticks]
  split
  · show (k'.proc cur).tRemain - _ = _
    rw [hkept.remain]
  · exact hkept.remain

/-! ### Hints -/

/-- A valid hint of `t` ticks by the process of CPU `c`: through `remain`, or through an
`exec2` that goes on to its `exec`. -/
inductive GivesHint (c : C) (cur : Slot) (t : BitVec 32) (k k' : Kernel C) : Prop
  | sysRemain (h : k.sysRemain c cur (some t) = (0, k'))
  | sysExec2 (h : k.sysExec2 c cur (some t) true = (none, k'))

theorem GivesHint.eq (h : GivesHint c cur t k k') : k' = k.setRemain c cur t := by
  rcases h with h | h
  · rw [Kernel.sysRemain] at h
    split at h
    · exact absurd (congrArg Prod.fst h) (by simp)
    · exact (congrArg Prod.snd h).symm
  · rw [Kernel.sysExec2] at h
    split at h
    · exact absurd (congrArg Prod.fst h) (by simp)
    · exact (congrArg Prod.snd h).symm

/-- The hint has come at the tick of the dispatch.  A slice that is not charged has to be
without ticks instead. -/
def Punctual (k : Kernel C) (cur : Slot) (n : Nat) : Prop :=
  0 ≤ (k.proc cur).tLastScheduled.toInt ∧ k.ticks = (k.proc cur).tLastScheduled
    ∨ (k.proc cur).tLastScheduled.toInt < 0 ∧ BitVec.ofNat 32 n = 0

omit [DecidableEq C] in
/-- The charge spares the ticks before the hint if and only if there are none. -/
theorem charge_eq_iff : (if 0 ≤ (k.proc cur).tLastScheduled.toInt then
      t - (k.ticks + BitVec.ofNat 32 n - (k.proc cur).tLastScheduled) else t)
        = t - BitVec.ofNat 32 n ↔ Punctual k cur n := by
  rw [Punctual]
  generalize (k.proc cur).tLastScheduled = last
  by_cases h : 0 ≤ last.toInt
  · have hneg : ¬ last.toInt < 0 := by omega
    rw [if_pos h]
    simp only [h, hneg, true_and, false_and, or_false]
    constructor
    · intro e
      bv_omega
    · intro e
      rw [e]
      bv_omega
  · have hneg : last.toInt < 0 := by omega
    rw [if_neg h]
    simp only [h, hneg, true_and, false_and, false_or]
    constructor
    · intro e
      bv_omega
    · intro e
      rw [e]
      exact (BitVec.sub_zero t).symm

/-- A hint is charged only for what is used after it if and only if it has been given at the
tick of the dispatch: when the call yields itself, and when the process leaves the CPU later,
after any number of ticks. -/
theorem hint_charge_iff (hk : CpuOk k) (hc : k.cpu c = some cur) (hh : GivesHint c cur t k k₁) :
    (k₁.cpu c = none ∧ ((k₁.proc cur).tRemain = t ↔ Punctual k cur 0))
      ∨ k₁.cpu c = some cur ∧ ∀ n k₂ k₃, Slice c cur k₁ n k₂ → Step k₂ k₃ →
        k₃.cpu c ≠ some cur →
          ((k₃.proc cur).tRemain = t - BitVec.ofNat 32 n ↔ Punctual k cur n) := by
  obtain rfl := hh.eq
  have hset : CpuOk (k.setProc cur { k.proc cur with tRemain := t }) := cpuOk_setTime hk
  have hself := setProc_self k cur { k.proc cur with tRemain := t }
  rw [Kernel.setRemain]
  dsimp only
  split
  · -- the call is a slice without a tick
    left
    have hnone : ((k.setProc cur { k.proc cur with tRemain := t }).yield c cur).cpu c = none :=
      Function.update_self ..
    refine ⟨hnone, ?_⟩
    have hcharge := Slice.charge hset hc .start (.yield _ c cur hc) (by rw [hnone]; simp)
    rw [hself] at hcharge
    have hiff : _ ↔ Punctual k cur 0 := charge_eq_iff (t := t)
    rw [show t - BitVec.ofNat 32 0 = t from BitVec.sub_zero t] at hiff
    rw [hcharge]
    exact hiff
  · right
    refine ⟨hc, fun n k₂ k₃ hr hs hleft => ?_⟩
    rw [hr.charge hset hc hs hleft, hself]
    exact charge_eq_iff

/-- `init` is on the CPU, at the tick of its dispatch. -/
def justDispatched : Kernel Unit := (zeroKernel Unit).userinit.dispatch ()

theorem justDispatched_reachable : (hinted Unit).Reachable justDispatched :=
  (Transition.System.Reachable.start rfl).next (.step _ _ (.dispatch _ () rfl))

/-- `remain(5)` at once, a tick, and a yield: 4 ticks are left. -/
theorem hint_charge_iff_punctual : ∃ k₁ : Kernel Unit,
    justDispatched.sysRemain () justDispatched.initproc (some 5) = (0, k₁)
      ∧ ((k₁.tick.yield () justDispatched.initproc).proc justDispatched.initproc).tRemain = 4 := by
  let i := justDispatched.initproc
  let k₁ := (justDispatched.sysRemain () i (some 5)).2
  have hc : justDispatched.cpu () = some i := by decide +kernel
  have hh : justDispatched.sysRemain () i (some 5) = (0, k₁) := Prod.ext (by decide +kernel) rfl
  have hstay : k₁.cpu () = some i := by decide +kernel
  refine ⟨k₁, hh, ?_⟩
  rcases hint_charge_iff (cpuOk_hinted justDispatched_reachable) hc (.sysRemain hh) with
    ⟨hnone, -⟩ | ⟨-, hlater⟩
  · exact absurd (hnone.symm.trans hstay) (by simp)
  · exact (hlater 1 k₁.tick _ (.tick .start) (.yield _ () i hstay) (by decide +kernel)).mpr
      (by unfold Punctual; decide +kernel)

/-- `init` runs for two ticks, calls `remain(5)` and yields: the two ticks are charged. -/
theorem hint_charged_for_past : ∃ (k k₁ : Kernel Unit) (i : Slot), (hinted Unit).Reachable k
    ∧ k.cpu () = some i ∧ k.ticks - (k.proc i).tLastScheduled = 2
    ∧ k.sysRemain () i (some 5) = (0, k₁) ∧ k₁.cpu () = some i
    ∧ (k₁.yield () i).cpu () = none ∧ ((k₁.yield () i).proc i).tRemain = 3 := by
  let k := justDispatched.tick.tick
  refine ⟨k, (k.sysRemain () k.initproc (some 5)).2, k.initproc, ?_, by decide +kernel,
    by decide +kernel, Prod.ext (by decide +kernel) rfl, by decide +kernel, by decide +kernel,
    by decide +kernel⟩
  exact (justDispatched_reachable.next (.step _ _ (.tick _))).next (.step _ _ (.tick _))

/-! ### The range of the counter -/

theorem toInt_nonneg_iff (x : BitVec 32) : 0 ≤ x.toInt ↔ x.toNat < 2 ^ 31 := by
  have hlt := x.isLt
  rw [BitVec.toInt_eq_toNat_cond]
  split <;> omega

/-- The process that a decision puts on the CPU. -/
theorem dispatch_enter (hc : k.cpu c = none) (hb : (k.dispatch c).cpu c = some b) :
    (k.dispatch c).ticks = k.ticks ∧ Enter k.ticks (k.proc b) ((k.dispatch c).proc b) := by
  rcases dispatch_effect hc with ⟨hcpu, -, -⟩ | ⟨d, q, hd, hcpu, -⟩ | ⟨d, q, hd, hcpu, ht, he, -⟩
  · rw [hcpu, hc] at hb
    exact absurd hb (by simp)
  · rcases eq_or_ne c d with rfl | hne
    · exact absurd (hc.symm.trans hd) (by simp)
    · rw [hcpu, Function.update_of_ne hne, hc] at hb
      exact absurd hb (by simp)
  · rcases eq_or_ne c d with rfl | hne
    · rw [hcpu, Function.update_self] at hb
      obtain rfl := Option.some.inj hb
      exact ⟨ht, he⟩
    · rw [hcpu, Function.update_of_ne hne, hc] at hb
      exact absurd hb (by simp)

/-- The time of a process goes down by the length of its slice if and only if the dispatch
was before tick 2^31, or the slice has no ticks. -/
theorem slice_charge_iff (len : Nat) (hk : CpuOk k) (hc : k.cpu c = none)
    (hb : (k.dispatch c).cpu c = some b) (hr : Slice c b (k.dispatch c) n k₂) (hlen : len < 2 ^ 31)
    (hticks : k₂.ticks = k.ticks + BitVec.ofNat 32 len) (hs : Step k₂ k₃)
    (hleft : k₃.cpu c ≠ some b) :
    (k₃.proc b).tRemain = (k.proc b).tRemain - BitVec.ofNat 32 len
      ↔ k.ticks.toNat < 2 ^ 31 ∨ len = 0 := by
  obtain ⟨hsame, he⟩ := dispatch_enter hc hb
  have hk' : CpuOk (k.dispatch c) := cpuOk_step hk (.dispatch k c hc)
  have hcount : k.ticks + BitVec.ofNat 32 n = k.ticks + BitVec.ofNat 32 len := by
    rw [← hticks, (hr.kept hk' hb).ticks, hsame]
  rw [hr.charge hk' hb hs hleft, he.last, he.remain, hsame, hcount]
  by_cases hpos : 0 ≤ k.ticks.toInt
  · have hlt := (toInt_nonneg_iff _).1 hpos
    rw [if_pos hpos]
    refine iff_of_true ?_ (.inl hlt)
    congr 1
    bv_omega
  · have hge := mt (toInt_nonneg_iff k.ticks).2 hpos
    rw [if_neg hpos]
    constructor
    · intro e
      right
      bv_omega
    · rintro (hlt | rfl)
      · exact absurd hlt hge
      · exact (BitVec.sub_zero _).symm

/-- `init` runs for one tick from tick 0 on. -/
theorem slice_charge_iff_first :
    ((justDispatched.tick.yield () justDispatched.initproc).proc justDispatched.initproc).tRemain
      = stcfInitRemain - 1 := by
  let k := (zeroKernel Unit).userinit
  have hb : (k.dispatch ()).cpu () = some k.initproc := by decide +kernel
  have h := slice_charge_iff 1 cpuOk_userinit (rfl : k.cpu () = none) hb (.tick .start)
    (by decide) (by decide +kernel) (.yield _ () k.initproc hb) (by decide +kernel)
  exact (h.mpr (.inl (by decide +kernel))).trans (by decide +kernel)

/-- While nobody sleeps the counter can go on alone. -/
theorem ticked_reachable (h : (hinted C).Reachable k) (hawake : ∀ i, (k.proc i).state ≠ .sleeping)
    (n : Nat) : (hinted C).Reachable { k with ticks := k.ticks + BitVec.ofNat 32 n } := by
  have hnotify : ∀ i, notifyProc (k.proc i) = k.proc i := fun i =>
    if_neg fun hsleep => hawake i hsleep.1
  induction n with
  | zero => exact (BitVec.add_zero k.ticks).symm ▸ h
  | succ n ih =>
      have hnext := ih.next (.step _ _ (.tick _))
      have htick : ({ k with ticks := k.ticks + BitVec.ofNat 32 n } : Kernel C).tick
          = { k with ticks := k.ticks + BitVec.ofNat 32 (n + 1) } := by
        rw [Kernel.tick, BitVec.ofNat_add, ← BitVec.add_assoc]
        simp only [hnotify]
        rfl
      rwa [htick] at hnext

/-- `init` alone, at tick 2^31. -/
def lateKernel : Kernel Unit := { (zeroKernel Unit).userinit with ticks := 0x80000000#32 }

/-- A slice of one tick that starts at tick 2^31 is not charged. -/
theorem late_slice_free : (hinted Unit).Reachable lateKernel ∧ lateKernel.cpu () = none
    ∧ (lateKernel.dispatch ()).cpu () = some lateKernel.initproc
    ∧ (((lateKernel.dispatch ()).tick.yield () lateKernel.initproc).proc
      lateKernel.initproc).tRemain = (lateKernel.proc lateKernel.initproc).tRemain
    ∧ ((lateKernel.dispatch ()).tick.yield () lateKernel.initproc).cpu () = none := by
  refine ⟨?_, rfl, by decide +kernel, by decide +kernel, by decide +kernel⟩
  have h := ticked_reachable (k := (zeroKernel Unit).userinit) (.start rfl) (by decide +kernel)
    (2 ^ 31)
  exact h

end SystemsPortfolio.Stcf
