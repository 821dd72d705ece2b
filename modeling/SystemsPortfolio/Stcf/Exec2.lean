/-
SystemsPortfolio/Stcf/Exec2.lean

A call of `exec2` that fails.

`sys_exec2` returns -1 in two ways.  The checks of its arguments come first and leave the
process alone.  Then `t_remain` is overwritten with the requested time, with a `yield` when
it goes up, and only then `exec` looks for the program; when `exec` fails nothing puts the
old time back.  The failure may come long after, since `exec` sleeps for the log and for
disk blocks, so what is left is the requested time less the charges made in between, the
first of which covers also the part of the slice before the call.
-/
import Mathlib.Data.BitVec
import Mathlib.Data.Fintype.Card
import SystemsPortfolio.Stcf.Slices

namespace SystemsPortfolio.Stcf

/-! ### Arguments -/

/-- The memory of the calling process: its size, its bytes, and the saved user `%esp`. -/
structure UserMem where
  sz : BitVec 32
  byte : BitVec 32 → BitVec 8
  esp : BitVec 32

/-- `MAXARG`. -/
def maxArg : Nat := 32

/-- `fetchint`. -/
def UserMem.fetchint (mem : UserMem) (addr : BitVec 32) : Option (BitVec 32) :=
  if addr ≥ mem.sz ∨ addr + 4 > mem.sz then none
  else some (mem.byte (addr + 3) ++ mem.byte (addr + 2) ++ mem.byte (addr + 1) ++ mem.byte addr)

/-- `fetchstr`: the length of the string at `addr`. -/
def UserMem.fetchstr (mem : UserMem) (addr : BitVec 32) : Option Nat :=
  if addr ≥ mem.sz then none
  else (List.range (mem.sz - addr).toNat).find? fun s => mem.byte (addr + BitVec.ofNat 32 s) = 0

/-- `argint`. -/
def UserMem.argint (mem : UserMem) (n : Nat) : Option (BitVec 32) :=
  mem.fetchint (mem.esp + 4 + 4 * BitVec.ofNat 32 n)

/-- `argstr`: the address of the string. -/
def UserMem.argstr (mem : UserMem) (n : Nat) : Option (BitVec 32) := do
  let addr ← mem.argint n
  let _ ← mem.fetchstr addr
  return addr

/-- The loop of `sys_exec2` over the user's `argv`, from entry `i` on with `fuel` of the
`MAXARG` entries left. -/
def UserMem.fetchArgv (mem : UserMem) (uargv : BitVec 32) (i : Nat) :
    Nat → Option (List (BitVec 32))
  | 0 => none
  | fuel + 1 => do
      let uarg ← mem.fetchint (uargv + 4 * BitVec.ofNat 32 i)
      if uarg = 0 then return []
      else
        let _ ← mem.fetchstr uarg
        let rest ← mem.fetchArgv uargv (i + 1) fuel
        return uarg :: rest

/-- The path and the arguments that `sys_exec2` hands to `exec`. -/
def UserMem.exec2Args (mem : UserMem) : Option (BitVec 32 × List (BitVec 32)) := do
  let path ← mem.argstr 1
  let uargv ← mem.argint 2
  let argv ← mem.fetchArgv uargv 0 maxArg
  return (path, argv)

variable {C : Type*} [DecidableEq C]

/-- `sys_exec2` with its arguments in the memory of the caller, up to its `exec`. -/
def Kernel.callExec2 (k : Kernel C) (c : C) (cur : Slot) (mem : UserMem) :
    Option Int × Kernel C :=
  k.sysExec2 c cur (mem.argint 0) mem.exec2Args.isSome

/-- The time that a call asks for, when its arguments pass the checks. -/
def UserMem.hint (mem : UserMem) : Option (BitVec 32) := do
  let t ← mem.argint 0
  if t.toInt ≤ 0 then none
  else
    let _ ← mem.exec2Args
    return t

variable {k k' k'' k₁ : Kernel C} {c d : C} {cur q : Slot} {mem : UserMem} {t r : BitVec 32}
variable {x v : Nat}

/-- The call ends with its checks, or it sets the time. -/
theorem callExec2_eq (k : Kernel C) (c : C) (cur : Slot) (mem : UserMem) :
    k.callExec2 c cur mem = mem.hint.elim (some (-1), k) fun t => (none, k.setRemain c cur t) := by
  rw [Kernel.callExec2, UserMem.hint]
  rcases mem.argint 0 with - | t
  · rfl
  · by_cases ht : t.toInt ≤ 0
    · simp [Kernel.sysExec2, ht]
    · rcases mem.exec2Args with - | args <;> simp [Kernel.sysExec2, ht]

/-! ### Within `exec` -/

/-- What the next switch charges for the slice up to `now`. -/
def owed (now : BitVec 32) (p : Proc) : BitVec 32 :=
  if 0 ≤ p.tLastScheduled.toInt then now - p.tLastScheduled else 0

theorem account_eq_owed (now : BitVec 32) (p : Proc) :
    (stcfAccountBeforeSwitch now p).tRemain = p.tRemain - owed now p := by
  rw [stcfAccountBeforeSwitch, owed]
  split
  · rfl
  · exact (BitVec.sub_zero _).symm

/-- The runs while `cur` is in its `exec`, which takes it off its CPU only to sleep; the others
do what they like.  Counted are the ticks charged so far for what `cur` has used since the
call, and the ticks of its current slice since the call, which are charged when it sleeps. -/
inductive InExec (cur : Slot) (k : Kernel C) : Nat → Nat → Kernel C → Prop
  | start : InExec cur k 0 0 k
  | tickOn {x v : Nat} {k' : Kernel C} {d : C} (h : InExec cur k x v k')
      (hd : k'.cpu d = some cur) : InExec cur k x (v + 1) k'.tick
  | tickOff {x v : Nat} {k' : Kernel C} (h : InExec cur k x v k')
      (hoff : ∀ d, k'.cpu d ≠ some cur) : InExec cur k x v k'.tick
  | sleep {x v : Nat} {k' : Kernel C} {d : C} (h : InExec cur k x v k')
      (hd : k'.cpu d = some cur) (chan : Option Chan) :
      InExec cur k (x + if 0 ≤ (k'.proc cur).tLastScheduled.toInt then v else 0) 0
        (k'.sleep d cur chan)
  | step {x v : Nat} {k' k'' : Kernel C} (h : InExec cur k x v k') (hs : Step k' k'')
      (hticks : k''.ticks = k'.ticks) (hstay : ∀ d, k'.cpu d = some cur → k''.cpu d = some cur) :
      InExec cur k x v k''
  | hint {x v : Nat} {k' k'' : Kernel C} {d : C} {q : Slot} (h : InExec cur k x v k')
      (hd : k'.cpu d = some q) (hq : q ≠ cur) (hs : Hints d q k' k'') : InExec cur k x v k''

/-- Off its CPU and alive. -/
def Proc.Waiting (p : Proc) : Prop :=
  p.state = .sleeping ∨ p.state = .runnable

/-- After a first switch: the time is `r` less what has been charged since the call, and the
current slice, if there is one, has begun `v` ticks ago. -/
structure Switched (cur : Slot) (r : BitVec 32) (x v : Nat) (k : Kernel C) : Prop where
  ok : CpuOk k
  remain : (k.proc cur).tRemain = r - BitVec.ofNat 32 x
  place : (∃ d, k.cpu d = some cur ∧ k.ticks = (k.proc cur).tLastScheduled + BitVec.ofNat 32 v)
    ∨ (k.proc cur).Waiting ∧ v = 0

omit [DecidableEq C] in
/-- A waiting process is on no CPU. -/
theorem CpuOk.off (hk : CpuOk k) (hw : (k.proc cur).Waiting) (d : C) : k.cpu d ≠ some cur := by
  intro hd
  rcases hw with hw | hw <;> exact absurd (hw.symm.trans (hk.running d cur hd)) (by decide)

theorem Quiet.of_waiting {p p' : Proc} (h : Quiet p p') (hw : p.Waiting) :
    p'.Waiting ∧ p'.tRemain = p.tRemain := by
  cases h with
  | nudge h =>
      refine ⟨?_, h.remain⟩
      rcases h.state with e | ⟨-, e⟩
      · rw [Proc.Waiting, e]
        exact hw
      · exact .inr e
  | create h | free h | idle h =>
      rcases hw with hw | hw <;> exact absurd (hw.symm.trans h) (by decide)

/-- A step leaves a waiting process waiting, or it is the decision for it. -/
theorem waiting_step (hk : CpuOk k) (hs : Step k k') (hw : (k.proc cur).Waiting) :
    (k'.proc cur).tRemain = (k.proc cur).tRemain
      ∧ ((k'.proc cur).Waiting
        ∨ ∃ d, k'.cpu d = some cur ∧ (k'.proc cur).tLastScheduled = k'.ticks) := by
  have hquiet (h : Quiet (k.proc cur) (k'.proc cur)) :=
    And.intro (h.of_waiting hw).2 (Or.inl (h.of_waiting hw).1 : _ ∨
      ∃ d, k'.cpu d = some cur ∧ (k'.proc cur).tLastScheduled = k'.ticks)
  rcases step_effect hk hs with ⟨-, -, h⟩ | ⟨d, q, hd, -, -, -, h⟩ | ⟨d, b, -, hcpu, ht, hb, h⟩
  · exact hquiet (h cur)
  · refine hquiet (h cur ?_)
    rintro rfl
    exact hk.off hw d hd
  · rcases eq_or_ne cur b with rfl | hne
    · refine ⟨hb.remain, .inr ⟨d, ?_, ?_⟩⟩
      · rw [hcpu, Function.update_self]
      · rw [hb.last, ht]
    · exact hquiet (h cur hne)

theorem Switched.tickOff (h : Switched cur r x v k) (hoff : ∀ d, k.cpu d ≠ some cur) :
    Switched cur r x v k.tick := by
  rcases h.place with ⟨d, hd, -⟩ | ⟨hw, hv⟩
  · exact absurd hd (hoff d)
  · obtain ⟨hrem, hw' | ⟨d, hd, -⟩⟩ := waiting_step h.ok (.tick k) hw
    · exact ⟨cpuOk_step h.ok (.tick k), hrem.trans h.remain, .inr ⟨hw', hv⟩⟩
    · exact absurd hd (hoff d)

theorem Switched.tickOn (h : Switched cur r x v k) (hd : k.cpu d = some cur) :
    Switched cur r x (v + 1) k.tick := by
  rcases h.place with ⟨d', hd', hticks⟩ | ⟨hw, -⟩
  · obtain ⟨hrem, hlast⟩ := running_kept h.ok (.tick k) hd' hd'
    refine ⟨cpuOk_step h.ok (.tick k), hrem.trans h.remain, .inl ⟨d', hd', ?_⟩⟩
    rw [hlast]
    exact tick_ticks hticks
  · exact absurd hd (h.ok.off hw d)

theorem Switched.step (h : Switched cur r x v k) (hs : Step k k') (hticks : k'.ticks = k.ticks)
    (hstay : ∀ d, k.cpu d = some cur → k'.cpu d = some cur) : Switched cur r x v k' := by
  have hok := cpuOk_step h.ok hs
  rcases h.place with ⟨d, hd, hnow⟩ | ⟨hw, rfl⟩
  · obtain ⟨hrem, hlast⟩ := running_kept h.ok hs hd (hstay d hd)
    refine ⟨hok, hrem.trans h.remain, .inl ⟨d, hstay d hd, ?_⟩⟩
    rw [hticks, hlast, hnow]
  · obtain ⟨hrem, hw' | ⟨d, hd, hlast⟩⟩ := waiting_step h.ok hs hw
    · exact ⟨hok, hrem.trans h.remain, .inr ⟨hw', rfl⟩⟩
    · refine ⟨hok, hrem.trans h.remain, .inl ⟨d, hd, ?_⟩⟩
      rw [hlast]
      exact (BitVec.add_zero _).symm

/-- A hint on another CPU. -/
theorem Switched.hint (h : Switched cur r x v k) (hd : k.cpu d = some q) (hq : q ≠ cur)
    (hs : Hints d q k k') : Switched cur r x v k' := by
  rcases hs.cases with rfl | ⟨t, rfl⟩
  · exact h
  obtain ⟨hother, hcases⟩ := setRemain_cases k d q t
  have hproc := hother cur hq.symm
  refine ⟨cpuOk_setRemain h.ok hd t, ?_, ?_⟩
  · rw [hproc]
    exact h.remain
  · rw [hproc, setRemain_ticks]
    refine h.place.imp_left ?_
    rintro ⟨d', hd', hnow⟩
    have hne : d' ≠ d := by
      rintro rfl
      exact hq (Option.some.inj (hd.symm.trans hd'))
    refine ⟨d', ?_, hnow⟩
    rcases hcases with hcpu | ⟨hcpu, -⟩
    · rw [hcpu, Function.update_of_ne hne]
      exact hd'
    · rw [hcpu]
      exact hd'

theorem sleep_remain (hk : CpuOk k) (hd : k.cpu d = some cur) (chan : Option Chan) :
    ((k.sleep d cur chan).proc cur).tRemain = (k.proc cur).tRemain - owed k.ticks (k.proc cur) := by
  have hleft : (k.sleep d cur chan).cpu d = none := Function.update_self ..
  rw [leave_remain hk (.sleep k d cur chan hd) hd (by rw [hleft]; simp), account_eq_owed]

theorem Switched.sleep (h : Switched cur r x v k) (hd : k.cpu d = some cur) (chan : Option Chan) :
    Switched cur r (x + if 0 ≤ (k.proc cur).tLastScheduled.toInt then v else 0) 0
      (k.sleep d cur chan) := by
  refine ⟨cpuOk_step h.ok (.sleep k d cur chan hd), ?_, .inr ⟨.inl (sleep_state chan), rfl⟩⟩
  rcases h.place with ⟨d', -, hnow⟩ | ⟨hw, -⟩
  · rw [sleep_remain h.ok hd, h.remain, owed, hnow]
    split
    · rw [BitVec.ofNat_add]
      bv_omega
    · simp
  · exact absurd hd (h.ok.off hw d)

theorem InExec.trans (h : InExec cur k 0 0 k') (h' : InExec cur k' x v k'') :
    InExec cur k x v k'' := by
  induction h' with
  | start => exact h
  | tickOn _ hd ih => exact ih.tickOn hd
  | tickOff _ hoff ih => exact ih.tickOff hoff
  | sleep _ hd chan ih => exact ih.sleep hd chan
  | step _ hs hticks hstay ih => exact ih.step hs hticks hstay
  | hint _ hd hq hs ih => exact ih.hint hd hq hs

/-- After the first switch everything is charged to the call. -/
theorem InExec.switched (hstart : Switched cur r 0 0 k) (h : InExec cur k x v k') :
    Switched cur r x v k' := by
  induction h with
  | start => exact hstart
  | tickOn _ hd ih => exact ih.tickOn hd
  | tickOff _ hoff ih => exact ih.tickOff hoff
  | sleep _ hd chan ih => exact ih.sleep hd chan
  | step _ hs hticks hstay ih => exact ih.step hs hticks hstay
  | hint _ hd hq hs ih => exact ih.hint hd hq hs

/-! ### The first switch -/

/-- The table right after the time has been set, before any `yield`. -/
def Kernel.timeSet (k : Kernel C) (cur : Slot) (t : BitVec 32) : Kernel C :=
  k.setProc cur { k.proc cur with tRemain := t }

theorem setRemain_eq (k : Kernel C) (c : C) (cur : Slot) (t : BitVec 32) :
    k.setRemain c cur t = if (k.proc cur).tRemain.slt t then (k.timeSet cur t).yield c cur
      else k.timeSet cur t := rfl

omit [DecidableEq C] in
theorem timeSet_proc (k : Kernel C) (cur : Slot) (t : BitVec 32) :
    (k.timeSet cur t).proc cur = { k.proc cur with tRemain := t } :=
  setProc_self ..

/-- The `yield` of the call charges the slice up to the call. -/
theorem yield_switched (hk : CpuOk k) (hc : k.cpu c = some cur) :
    Switched cur (t - owed k.ticks (k.proc cur)) 0 0 ((k.timeSet cur t).yield c cur) := by
  have hset : CpuOk (k.timeSet cur t) := cpuOk_setTime hk
  have hs : Step (k.timeSet cur t) ((k.timeSet cur t).yield c cur) := .yield _ c cur hc
  have hleft : ((k.timeSet cur t).yield c cur).cpu c ≠ some cur := by
    rw [Kernel.yield, switchOut_cpu, Function.update_self]
    simp
  refine ⟨cpuOk_step hset hs, ?_, .inr ⟨.inr ?_, rfl⟩⟩
  · rw [leave_remain hset hs hc hleft, account_eq_owed, timeSet_proc]
    exact (BitVec.sub_zero _).symm
  · rw [Kernel.yield, switchOut_proc_self]

/-- So does the first sleep, when the call has not yielded. -/
theorem SliceKept.switched (h : SliceKept c cur v (k.timeSet cur t) k') (hd : k'.cpu d = some cur)
    (chan : Option Chan) : Switched cur (t - owed k.ticks (k.proc cur))
      (if 0 ≤ (k'.proc cur).tLastScheduled.toInt then v else 0) 0 (k'.sleep d cur chan) := by
  refine ⟨cpuOk_step h.ok (.sleep k' d cur chan hd), ?_, .inr ⟨.inl (sleep_state chan), rfl⟩⟩
  have hticks : k'.ticks = k.ticks + BitVec.ofNat 32 v := h.ticks
  rw [sleep_remain h.ok hd, h.remain, owed, owed, h.last, hticks, timeSet_proc]
  dsimp only
  split <;> bv_omega

/-- When the call has not yielded, there was no switch yet, or the first one has charged the
slice up to the call as well. -/
theorem InExec.cases (hk : CpuOk k) (hc : k.cpu c = some cur)
    (h : InExec cur (k.timeSet cur t) x v k') :
    x = 0 ∧ SliceKept c cur v (k.timeSet cur t) k'
      ∨ Switched cur (t - owed k.ticks (k.proc cur)) x v k' := by
  induction h with
  | start => exact .inl ⟨rfl, cpuOk_setTime hk, hc, (BitVec.add_zero _).symm, rfl, rfl⟩
  | tickOn _ hd ih =>
      rcases ih with ⟨hx, hkept⟩ | hsw
      · exact .inl ⟨hx, hkept.tick⟩
      · exact .inr (hsw.tickOn hd)
  | tickOff _ hoff ih =>
      rcases ih with ⟨-, hkept⟩ | hsw
      · exact absurd hkept.cpu (hoff c)
      · exact .inr (hsw.tickOff hoff)
  | sleep _ hd chan ih =>
      rcases ih with ⟨rfl, hkept⟩ | hsw
      · rw [Nat.zero_add]
        exact .inr (hkept.switched hd chan)
      · exact .inr (hsw.sleep hd chan)
  | step _ hs hticks hstay ih =>
      rcases ih with ⟨hx, hkept⟩ | hsw
      · exact .inl ⟨hx, hkept.step hs hticks (hstay c hkept.cpu)⟩
      · exact .inr (hsw.step hs hticks hstay)
  | hint _ hd hq hs ih =>
      rcases ih with ⟨hx, hkept⟩ | hsw
      · rcases hs.cases with rfl | ⟨t', rfl⟩
        · exact .inl ⟨hx, hkept⟩
        · exact .inl ⟨hx, hkept.hint hd hq t'⟩
      · exact .inr (hsw.hint hd hq hs)

/-! ### Getting the CPU back -/

/-- The runnable processes besides `cur`. -/
def Kernel.rivals (k : Kernel C) (cur : Slot) : Finset Slot :=
  Finset.univ.filter fun i => i ≠ cur ∧ (k.proc i).state = .runnable

theorem dispatch_state_of_ne {b i : Slot} (hpick : k.pick = some b) (hi : i ≠ b) :
    ((k.dispatch c).proc i).state = (k.proc i).state := by
  rw [dispatch_proc_of_ne hpick hi]
  rcases consumeSkip_proc k b i with e | e <;> rw [e]

/-- A rival that is chosen and goes to sleep at once is one no longer. -/
theorem rivals_lt {b : Slot} (hpick : k.pick = some b) (hb : b ≠ cur) (chan : Option Chan) :
    (((k.dispatch c).sleep c b chan).rivals cur).card < (k.rivals cur).card := by
  have hrun := pick_runnable hpick
  refine Finset.card_lt_card (Finset.ssubset_iff_of_subset ?_ |>.2 ⟨b, ?_, ?_⟩)
  · intro i hi
    obtain ⟨-, hne, hst⟩ := Finset.mem_filter.1 hi
    refine Finset.mem_filter.2 ⟨Finset.mem_univ i, hne, ?_⟩
    rcases eq_or_ne i b with rfl | hib
    · exact hrun
    · rw [sleep_proc_of_ne _ hib, dispatch_state_of_ne hpick hib] at hst
      exact hst
  · exact Finset.mem_filter.2 ⟨Finset.mem_univ b, hb, hrun⟩
  · intro hmem
    have hst := (Finset.mem_filter.1 hmem).2.2
    exact absurd (hst.symm.trans (sleep_state chan)) (by decide)

/-- A runnable process can get an idle CPU back without a tick: every rival that is chosen
before it goes to sleep at once. -/
theorem InExec.redispatch (h : InExec cur k x v k') (hk : CpuOk k') (hc : k'.cpu c = none)
    (hrun : (k'.proc cur).state = .runnable) :
    ∃ k'', InExec cur k x v k'' ∧ k''.cpu c = some cur := by
  induction hcard : (k'.rivals cur).card using Nat.strongRecOn generalizing k' with
  | ind n ih =>
      subst hcard
      obtain ⟨b, hpick⟩ : ∃ b, k'.pick = some b := by
        rcases e : k'.pick with - | b
        · exact absurd hrun (pick_eq_none_iff.1 e cur)
        · exact ⟨b, rfl⟩
      have hcpu : (k'.dispatch c).cpu c = some b := by rw [dispatch_cpu_eq_pick hc, hpick]
      have hticks := (dispatch_enter hc hcpu).1
      have h₁ : InExec cur k x v (k'.dispatch c) := h.step (.dispatch k' c hc) hticks
        fun d hd => absurd hd (hk.off (.inr hrun) d)
      have hk₁ := cpuOk_step hk (.dispatch k' c hc)
      rcases eq_or_ne b cur with rfl | hne
      · exact ⟨_, h₁, hcpu⟩
      · have hrun₁ : ((k'.dispatch c).proc cur).state = .runnable := by
          rw [dispatch_state_of_ne hpick hne.symm]
          exact hrun
        have h₂ : InExec cur k x v ((k'.dispatch c).sleep c b none) :=
          h₁.step (.sleep _ c b none hcpu) rfl fun d hd => absurd hd (hk₁.off (.inr hrun₁) d)
        refine ih _ (rivals_lt hpick hne none) h₂ (cpuOk_step hk₁ (.sleep _ c b none hcpu))
          (Function.update_self ..) ?_ rfl
        rw [sleep_proc_of_ne _ hne.symm]
        exact hrun₁

/-- `exec` may sleep and be back without a tick, also when the call has not yielded. -/
theorem inExec_nap (hk : CpuOk k) (hc : k.cpu c = some cur) (t : BitVec 32) :
    ∃ k', InExec cur (k.timeSet cur t) 0 0 k' ∧ k'.cpu c = some cur
      ∧ Switched cur (t - owed k.ticks (k.proc cur)) 0 0 k' := by
  let asleep := (k.timeSet cur t).sleep c cur (some (.other 0))
  let awake := asleep.wakeup (some (.other 0))
  have hkept : SliceKept c cur 0 (k.timeSet cur t) (k.timeSet cur t) :=
    Slice.start.kept (cpuOk_setTime hk) hc
  have hsw : Switched cur (t - owed k.ticks (k.proc cur)) 0 0 asleep := by
    have h := hkept.switched hc (some (.other 0))
    rw [ite_self] at h
    exact h
  have hsleep : InExec cur (k.timeSet cur t) 0 0 asleep := by
    have hstart : InExec cur (k.timeSet cur t) 0 0 (k.timeSet cur t) := .start
    have h := hstart.sleep hc (some (.other 0))
    rw [ite_self] at h
    exact h
  have hwaiting : (asleep.proc cur).Waiting := .inl (sleep_state _)
  have hstay : ∀ d, asleep.cpu d = some cur → awake.cpu d = some cur := fun d hd =>
    absurd hd (hsw.ok.off hwaiting d)
  have hrun : (awake.proc cur).state = .runnable := by
    show (wakeProc (some (.other 0)) (asleep.proc cur)).state = .runnable
    rw [wakeProc, if_pos ⟨sleep_state _, sleep_chan _⟩]
  have hsw' : Switched cur (t - owed k.ticks (k.proc cur)) 0 0 awake :=
    hsw.step (.wakeup asleep _) rfl hstay
  obtain ⟨k', hexec, hback⟩ := InExec.start.redispatch hsw'.ok (Function.update_self ..) hrun
  exact ⟨k', (hsleep.step (.wakeup asleep _) rfl hstay).trans hexec, hback, hexec.switched hsw'⟩

/-! ### Failing calls -/

/-- A call of `sys_exec2` by the process `cur` of CPU `c` that returns -1 in the state `k'`,
after `x` ticks have been charged for what it has used since the call: the checks fail, or
`exec` fails wherever it has got to. -/
inductive FailedExec2 (k : Kernel C) (c : C) (cur : Slot) (mem : UserMem) : Nat → Kernel C → Prop
  | checks {k' : Kernel C} (h : k.callExec2 c cur mem = (some (-1), k')) :
      FailedExec2 k c cur mem 0 k'
  | exec {k₁ k' : Kernel C} {x v : Nat} {d : C} (h : k.callExec2 c cur mem = (none, k₁))
      (hrun : InExec cur k₁ x v k') (hd : k'.cpu d = some cur) : FailedExec2 k c cur mem x k'

theorem failed_of_none (hmem : mem.hint = none) (h : FailedExec2 k c cur mem x k') : k' = k := by
  have hcall := callExec2_eq k c cur mem
  rw [hmem] at hcall
  cases h with
  | checks hfail => exact (congrArg Prod.snd (hcall.symm.trans hfail)).symm
  | exec hfail => exact absurd (congrArg Prod.fst (hcall.symm.trans hfail)) (by simp)

theorem failed_of_some (hmem : mem.hint = some t) : FailedExec2 k c cur mem x k' ↔
    ∃ v d, InExec cur (k.setRemain c cur t) x v k' ∧ k'.cpu d = some cur := by
  have hcall := callExec2_eq k c cur mem
  rw [hmem] at hcall
  constructor
  · intro h
    cases h with
    | checks hfail => exact absurd (congrArg Prod.fst (hcall.symm.trans hfail)) (by simp)
    | @exec k₁ _ _ v d hfail hrun hd =>
        obtain rfl : k.setRemain c cur t = k₁ := congrArg Prod.snd (hcall.symm.trans hfail)
        exact ⟨v, d, hrun, hd⟩
  · rintro ⟨v, d, hrun, hd⟩
    exact .exec hcall hrun hd

/-- The two times are at most `x` ticks apart. -/
def Within (x : Nat) (r r' : BitVec 32) : Prop :=
  ∃ y ≤ x, r' = r - BitVec.ofNat 32 y ∨ r' = r + BitVec.ofNat 32 y

/-- Whenever the call fails, the time is the old one up to the ticks charged for the call. -/
def KeepsSchedule (k : Kernel C) (c : C) (cur : Slot) (mem : UserMem) : Prop :=
  ∀ x k', FailedExec2 k c cur mem x k' → Within x (k.proc cur).tRemain (k'.proc cur).tRemain

theorem within_zero {r r' : BitVec 32} (h : Within 0 r r') : r' = r := by
  obtain ⟨y, hy, h⟩ := h
  obtain rfl : y = 0 := by omega
  rcases h with h | h
  · rw [h]
    exact BitVec.sub_zero r
  · rw [h]
    exact BitVec.add_zero r

/-- The hint `t` leaves the schedule as it is: it is the old time and nothing is owed for the
slice before the call, or it is what the `yield` of the call takes down to the old time. -/
def Kernel.Harmless (k : Kernel C) (cur : Slot) (t : BitVec 32) : Prop :=
  t = (k.proc cur).tRemain ∧ owed k.ticks (k.proc cur) = 0
    ∨ (k.proc cur).tRemain.toInt < t.toInt
      ∧ t = (k.proc cur).tRemain + owed k.ticks (k.proc cur)

omit [DecidableEq C] in
/-- What is left after a switch is within the charge exactly when the slice before the call is
paid for by the hint. -/
theorem Switched.within (h : Switched cur (t - owed k.ticks (k.proc cur)) x v k')
    (ht : t = (k.proc cur).tRemain + owed k.ticks (k.proc cur)) :
    Within x (k.proc cur).tRemain (k'.proc cur).tRemain := by
  refine ⟨x, le_rfl, .inl ?_⟩
  rw [h.remain, ht]
  bv_omega

/-- A hint above the old time: the call yields. -/
theorem keeps_iff_of_lt (hk : CpuOk k) (hc : k.cpu c = some cur) (hmem : mem.hint = some t)
    (hslt : (k.proc cur).tRemain.slt t = true) :
    KeepsSchedule k c cur mem ↔ t = (k.proc cur).tRemain + owed k.ticks (k.proc cur) := by
  have hset : k.setRemain c cur t = (k.timeSet cur t).yield c cur := by
    rw [setRemain_eq, if_pos hslt]
  have hsw := yield_switched (t := t) hk hc
  rw [← hset] at hsw
  constructor
  · intro hkeeps
    -- the process gets the CPU back, and `exec` fails at once
    have hcpu : (k.setRemain c cur t).cpu c = none := by
      rw [hset, Kernel.yield, switchOut_cpu, Function.update_self]
    have hrun : ((k.setRemain c cur t).proc cur).state = .runnable := by
      rw [hset, Kernel.yield, switchOut_proc_self]
    obtain ⟨k', hexec, hback⟩ := InExec.start.redispatch hsw.ok hcpu hrun
    have hold := within_zero (hkeeps 0 k' ((failed_of_some hmem).2 ⟨0, c, hexec, hback⟩))
    rw [(hexec.switched hsw).remain] at hold
    bv_omega
  · intro ht x k' hfail
    obtain ⟨v, d, hexec, -⟩ := (failed_of_some hmem).1 hfail
    exact (hexec.switched hsw).within ht

/-- A hint that is not above the old time: the call goes on to `exec`. -/
theorem keeps_iff_of_le (hk : CpuOk k) (hc : k.cpu c = some cur) (hmem : mem.hint = some t)
    (hslt : (k.proc cur).tRemain.slt t = false) :
    KeepsSchedule k c cur mem ↔
      t = (k.proc cur).tRemain ∧ owed k.ticks (k.proc cur) = 0 := by
  have hset : k.setRemain c cur t = k.timeSet cur t := by
    rw [setRemain_eq, hslt]
    rfl
  constructor
  · intro hkeeps
    -- `exec` fails at once
    have hcpu : (k.setRemain c cur t).cpu c = some cur := by
      rw [hset]
      exact hc
    have hold := within_zero (hkeeps 0 _ ((failed_of_some hmem).2 ⟨0, c, .start, hcpu⟩))
    rw [hset, timeSet_proc] at hold
    refine ⟨hold, ?_⟩
    -- `exec` sleeps first
    obtain ⟨k', hexec, hback, hsw⟩ := inExec_nap hk hc t
    rw [← hset] at hexec
    have hnap := within_zero (hkeeps 0 k' ((failed_of_some hmem).2 ⟨0, c, hexec, hback⟩))
    rw [hsw.remain] at hnap
    have ht : t = (k.proc cur).tRemain := hold
    bv_omega
  · rintro ⟨ht, howed⟩ x k' hfail
    obtain ⟨v, d, hexec, -⟩ := (failed_of_some hmem).1 hfail
    rw [hset] at hexec
    rcases hexec.cases hk hc with ⟨rfl, hkept⟩ | hsw
    · refine ⟨0, le_rfl, .inl ?_⟩
      rw [hkept.remain, timeSet_proc, ht]
      exact (BitVec.sub_zero _).symm
    · exact hsw.within (by rw [howed, ht]; exact (BitVec.add_zero _).symm)

/-- A failing `exec2` keeps the schedule if and only if no hint passes the checks, or the hint
that does is harmless. -/
theorem failed_exec2_iff (hk : CpuOk k) (hc : k.cpu c = some cur) (mem : UserMem) :
    KeepsSchedule k c cur mem ↔ ∀ t, mem.hint = some t → k.Harmless cur t := by
  rcases hmem : mem.hint with - | t
  · refine iff_of_true (fun x k' hfail => ?_) (by simp)
    rw [failed_of_none hmem hfail]
    exact ⟨0, Nat.zero_le x, .inl (BitVec.sub_zero _).symm⟩
  · have hall : (∀ t', some t = some t' → k.Harmless cur t') ↔ k.Harmless cur t := by simp
    rw [hall, Kernel.Harmless, ← BitVec.slt_iff_toInt_lt]
    cases hslt : (k.proc cur).tRemain.slt t with
    | true =>
        have hne : t ≠ (k.proc cur).tRemain := by
          rintro rfl
          exact lt_irrefl _ (BitVec.slt_iff_toInt_lt.1 hslt)
        rw [keeps_iff_of_lt hk hc hmem hslt]
        simp [hne]
    | false =>
        rw [keeps_iff_of_le hk hc hmem hslt]
        simp

/-- A process of 64 bytes that calls `exec2` with the time `t`, an empty path and no
arguments. -/
def exec2Mem (t : BitVec 32) : UserMem where
  sz := 64
  esp := 0
  byte a :=
    if 4 ≤ a ∧ a < 8 then (t >>> (8 * (a.toNat - 4))).setWidth 8
    else if a = 8 then 32 else if a = 12 then 40 else 0

/-- `init`, just dispatched, may ask for the time it has, but not for another. -/
theorem failed_exec2_iff_init :
    KeepsSchedule justDispatched () justDispatched.initproc (exec2Mem stcfInitRemain)
      ∧ ¬ KeepsSchedule justDispatched () justDispatched.initproc (exec2Mem 5) := by
  have hc : justDispatched.cpu () = some justDispatched.initproc := by decide +kernel
  have hk := cpuOk_hinted justDispatched_reachable
  have hsame : (exec2Mem stcfInitRemain).hint = some stcfInitRemain := by decide +kernel
  have hless : (exec2Mem 5).hint = some 5 := by decide +kernel
  rw [failed_exec2_iff hk hc, failed_exec2_iff hk hc, hsame, hless]
  refine ⟨?_, fun h => ?_⟩
  · rintro _ ⟨⟩
    unfold Kernel.Harmless
    decide +kernel
  · have h5 := h 5 rfl
    unfold Kernel.Harmless at h5
    revert h5
    decide +kernel

/-- `init` has its initial time and calls `exec2(5, ..)` with a path that is not there: the call
fails, no tick has passed, and 5 ticks are left. -/
theorem failed_exec2_leaves_hint : ∃ k' : Kernel Unit, (hinted Unit).Reachable justDispatched
    ∧ FailedExec2 justDispatched () justDispatched.initproc (exec2Mem 5) 0 k'
    ∧ (justDispatched.proc justDispatched.initproc).tRemain = 0x7fffffff
    ∧ (k'.proc justDispatched.initproc).tRemain = 5 := by
  let k' := (justDispatched.callExec2 () justDispatched.initproc (exec2Mem 5)).2
  have hcall : justDispatched.callExec2 () justDispatched.initproc (exec2Mem 5) = (none, k') :=
    Prod.ext (by decide +kernel) rfl
  have hcpu : k'.cpu () = some justDispatched.initproc := by decide +kernel
  exact ⟨k', justDispatched_reachable, .exec hcall .start hcpu, by decide +kernel, by decide +kernel⟩

end SystemsPortfolio.Stcf
