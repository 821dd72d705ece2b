/-
SystemsPortfolio/Stcf/Accounting.lean

Tick accounting conserves time.

An observer watches the states of the process table and nothing else.  A process is
created when its slot stops being unused; a slice of it starts when it becomes RUNNING
and ends when it stops being RUNNING.  The observer notes `t_remain` at the creation
and the ticks at both ends of each slice.  In every run in which the tick counter stays
below 2^31, the `t_remain` of a process that is not running is what it was created with
minus the lengths of its slices: whichever of `yield`, `sleep` and `exit` ends a slice
charges it, once.
-/
import SystemsPortfolio.Stcf.Effects
import SystemsPortfolio.Lib.Transition

namespace SystemsPortfolio.Stcf

/-! ### The observer -/

/-- The kernel and, for each slot, what the observer knows of the process in it: its
`t_remain` at creation, the tick of its last dispatch and its completed slices. -/
structure Watched (C : Type*) where
  k : Kernel C
  born : Slot → BitVec 32
  since : Slot → Nat
  slices : Slot → List (Nat × Nat)

variable {C : Type*}

/-- The observer sees the kernel go on to `k'`. -/
def Watched.observe (w : Watched C) (k' : Kernel C) : Watched C where
  k := k'
  born i :=
    if (w.k.proc i).state = .unused ∧ (k'.proc i).state ≠ .unused then (k'.proc i).tRemain
    else w.born i
  since i :=
    if (w.k.proc i).state ≠ .running ∧ (k'.proc i).state = .running then k'.ticks.toNat
    else w.since i
  slices i :=
    if (w.k.proc i).state = .unused ∧ (k'.proc i).state ≠ .unused then []
    else if (w.k.proc i).state = .running ∧ (k'.proc i).state ≠ .running then
      w.slices i ++ [(w.since i, w.k.ticks.toNat)]
    else w.slices i

/-- The ticks spent in these slices. -/
def used : List (Nat × Nat) → Nat
  | [] => 0
  | x :: slices => (x.2 - x.1) + used slices

theorem used_append (l : List (Nat × Nat)) (x : Nat × Nat) :
    used (l ++ [x]) = used l + (x.2 - x.1) := by
  induction l with
  | nil => exact Nat.add_comm ..
  | cons y l ih =>
      show (y.2 - y.1) + used (l ++ [x]) = (y.2 - y.1) + used l + (x.2 - x.1)
      rw [ih, Nat.add_assoc]

/-- The ticks a signed counter can take: 2^31. -/
def tickBound : Nat := 2147483648

/-- The runs of the kernel from its first process on, watched, with `ticks` below 2^31. -/
def watchedRuns (C : Type*) [DecidableEq C] : Transition.System (Watched C) where
  init w := w.k = (zeroKernel C).userinit ∧ (∀ i, w.born i = (w.k.proc i).tRemain)
    ∧ ∀ i, w.slices i = []
  step w w' := ∃ k', Step w.k k' ∧ k'.ticks.toNat < tickBound ∧ w' = w.observe k'

/-! ### One charge -/

/-- The charge at the end of a slice is its length. -/
theorem account_remain {now : BitVec 32} {p : Proc} {start : Nat}
    (hlast : p.tLastScheduled = BitVec.ofNat 32 start) (hle : start ≤ now.toNat)
    (hnow : now.toNat < tickBound) :
    (stcfAccountBeforeSwitch now p).tRemain = p.tRemain - BitVec.ofNat 32 (now.toNat - start) := by
  have hstart : (BitVec.ofNat 32 start).toNat = start := by
    rw [BitVec.toNat_ofNat]
    omega
  rw [tickBound] at hnow
  have hpos : 0 ≤ p.tLastScheduled.toInt := by
    rw [hlast, BitVec.toInt_eq_toNat_cond, hstart, if_pos (by omega)]
    omega
  have hdiff : now - BitVec.ofNat 32 start = BitVec.ofNat 32 (now.toNat - start) := by
    bv_omega
  rw [stcfAccountBeforeSwitch, if_pos hpos, hlast, hdiff]

/-! ### The invariant -/

/-- The account of slot `i`. -/
structure Accounted (w : Watched C) (i : Slot) : Prop where
  remain : (w.k.proc i).state ≠ .unused →
    (w.k.proc i).tRemain = w.born i - BitVec.ofNat 32 (used (w.slices i))
  slices : ∀ x ∈ w.slices i, x.1 ≤ x.2
  since : (w.k.proc i).state = .running →
    (w.k.proc i).tLastScheduled = BitVec.ofNat 32 (w.since i) ∧ w.since i ≤ w.k.ticks.toNat

variable {w : Watched C} {k' : Kernel C} {i : Slot}

/-- The observer has nothing to note about a slot in which no process is created and no
slice starts or ends. -/
theorem observe_same (hu : (w.k.proc i).state = .unused → (k'.proc i).state = .unused)
    (hr : (w.k.proc i).state = .running ↔ (k'.proc i).state = .running) :
    (w.observe k').born i = w.born i ∧ (w.observe k').since i = w.since i
      ∧ (w.observe k').slices i = w.slices i := by
  refine ⟨if_neg fun h => h.2 (hu h.1), if_neg fun h => h.1 (hr.2 h.2), ?_⟩
  show (if _ then _ else _) = _
  rw [if_neg fun h => h.2 (hu h.1), if_neg fun h => h.2 (hr.1 h.1)]

/-- Nothing is charged, noted or forgotten while no slice starts or ends. -/
theorem Accounted.quiet (h : Accounted w i) (hq : Quiet (w.k.proc i) (k'.proc i))
    (hticks : w.k.ticks.toNat ≤ k'.ticks.toNat) : Accounted (w.observe k') i := by
  have hr : (w.k.proc i).state = .running ↔ (k'.proc i).state = .running :=
    ⟨fun e => (hq.of_running e).1, fun e => not_not.1 fun hne => hq.not_running hne e⟩
  have hsince : (k'.proc i).state = .running →
      (k'.proc i).tLastScheduled = BitVec.ofNat 32 (w.since i) ∧ w.since i ≤ k'.ticks.toNat := by
    intro e
    obtain ⟨e₁, e₂⟩ := h.since (hr.2 e)
    exact ⟨(hq.of_running (hr.2 e)).2.2.trans e₁, e₂.trans hticks⟩
  have hgone (hu : (w.k.proc i).state = .unused → (k'.proc i).state = .unused)
      (hrem : (k'.proc i).state ≠ .unused →
        (k'.proc i).tRemain = w.born i - BitVec.ofNat 32 (used (w.slices i))) :
      Accounted (w.observe k') i := by
    obtain ⟨e₁, e₂, e₃⟩ := observe_same hu hr
    refine ⟨fun hne => ?_, ?_, fun e => ?_⟩
    · rw [e₁, e₃]
      exact hrem hne
    · rw [e₃]
      exact h.slices
    · rw [e₂]
      exact hsince e
  cases hq with
  | nudge hn =>
      have hstate : (w.k.proc i).state = .unused ↔ (k'.proc i).state = .unused := by
        rcases hn.state with e | ⟨e, e'⟩
        · rw [e]
        · simp [e, e']
      refine hgone hstate.1 fun hne => ?_
      rw [hn.remain]
      exact h.remain fun e => hne (hstate.1 e)
  | create hu hrun =>
      -- a new account, with nothing used
      have hnew : (w.k.proc i).state = .unused ∧ (k'.proc i).state ≠ .unused :=
        ⟨hu, by rw [hrun]; decide⟩
      have e₁ : (w.observe k').born i = (k'.proc i).tRemain := if_pos hnew
      have e₂ : (w.observe k').slices i = [] := if_pos hnew
      refine ⟨fun _ => ?_, ?_, fun e => absurd (hrun.symm.trans e) (by decide)⟩
      · rw [e₁, e₂]
        exact (BitVec.sub_zero _).symm
      · rw [e₂]
        simp
  | free _ hu | idle _ hu => exact hgone (fun _ => hu) fun hne => absurd hu hne

/-- The end of a slice is charged with its length. -/
theorem Accounted.leave (h : Accounted w i) (hl : Leave w.k.ticks (w.k.proc i) (k'.proc i))
    (hnow : w.k.ticks.toNat < tickBound) : Accounted (w.observe k') i := by
  obtain ⟨hlast, hle⟩ := h.since hl.before
  have hstop : (k'.proc i).state ≠ .running := by
    rcases hl.after with e | e | e <;> rw [e] <;> decide
  have hnu : ¬ ((w.k.proc i).state = .unused ∧ (k'.proc i).state ≠ .unused) := by
    rw [hl.before]
    simp
  have e₁ : (w.observe k').born i = w.born i := if_neg hnu
  have e₂ : (w.observe k').slices i = w.slices i ++ [(w.since i, w.k.ticks.toNat)] := by
    show (if _ then _ else _) = _
    rw [if_neg hnu, if_pos ⟨hl.before, hstop⟩]
  refine ⟨fun _ => ?_, ?_, fun e => absurd e hstop⟩
  · rw [e₁, e₂, used_append]
    show (k'.proc i).tRemain = _
    rw [hl.remain, account_remain hlast hle hnow, h.remain (by rw [hl.before]; decide)]
    simp only
    bv_omega
  · rw [e₂]
    intro x hx
    rcases List.mem_append.1 hx with hx | hx
    · exact h.slices x hx
    · obtain rfl := List.mem_singleton.1 hx
      exact hle

/-- A dispatch notes the tick and leaves the account alone. -/
theorem Accounted.enter (h : Accounted w i) (he : Enter w.k.ticks (w.k.proc i) (k'.proc i))
    (hticks : k'.ticks = w.k.ticks) : Accounted (w.observe k') i := by
  have hnu : ¬ ((w.k.proc i).state = .unused ∧ (k'.proc i).state ≠ .unused) := by
    rw [he.before]
    simp
  have hnr : (w.k.proc i).state ≠ .running := by
    rw [he.before]
    decide
  have e₁ : (w.observe k').born i = w.born i := if_neg hnu
  have e₂ : (w.observe k').slices i = w.slices i := by
    show (if _ then _ else _) = _
    rw [if_neg hnu, if_neg fun h => hnr h.1]
  have e₃ : (w.observe k').since i = k'.ticks.toNat := if_pos ⟨hnr, he.after⟩
  refine ⟨fun _ => ?_, ?_, fun _ => ?_⟩
  · rw [e₁, e₂]
    exact he.remain.trans (h.remain (by rw [he.before]; decide))
  · rw [e₂]
    exact h.slices
  · rw [e₃]
    refine ⟨he.last.trans ?_, le_rfl⟩
    rw [hticks, BitVec.ofNat_toNat, BitVec.setWidth_eq]

/-! ### Whole runs -/

variable [DecidableEq C]

/-- The accounts of all slots, and what they rest on. -/
structure WatchedOk (w : Watched C) : Prop where
  cpu : CpuOk w.k
  ticks : w.k.ticks.toNat < tickBound
  accounted : ∀ i, Accounted w i

theorem watchedOk_step (h : WatchedOk w) (hs : Step w.k k') (hk' : k'.ticks.toNat < tickBound) :
    WatchedOk (w.observe k') := by
  refine ⟨cpuOk_step h.cpu hs, hk', fun i => ?_⟩
  have hi := h.accounted i
  rcases step_effect h.cpu hs with ⟨-, hticks, hq⟩ | ⟨c, cur, -, -, hticks, hl, hq⟩
    | ⟨c, b, -, -, hticks, he, hq⟩
  · refine hi.quiet (hq i) ?_
    -- the counter cannot wrap below 2^31
    have hlt := h.ticks
    rw [tickBound] at hlt
    have hone : (1 : BitVec 32).toNat = 1 := rfl
    rcases hticks with e | e <;> rw [e]
    rw [BitVec.toNat_add]
    omega
  · rcases eq_or_ne i cur with rfl | hne
    · exact hi.leave hl h.ticks
    · exact hi.quiet (hq i hne) (by rw [hticks])
  · rcases eq_or_ne i b with rfl | hne
    · exact hi.enter he hticks
    · exact hi.quiet (hq i hne) (by rw [hticks])

theorem watchedOk_reachable (h : (watchedRuns C).Reachable w) : WatchedOk w := by
  refine h.invariant ?_ ?_
  · rintro w ⟨hk, hborn, hslices⟩
    obtain ⟨hcpu, hticks, hrun⟩ := userinit_idle (C := C)
    rw [← hk] at hcpu hticks hrun
    refine ⟨hk ▸ cpuOk_userinit, by rw [hticks]; decide, fun i => ⟨fun _ => ?_, ?_, ?_⟩⟩
    · rw [hborn, hslices]
      exact (BitVec.sub_zero _).symm
    · rw [hslices]
      simp
    · exact fun e => absurd e (hrun i)
  · rintro w w' - hw ⟨k', hs, hk', rfl⟩
    exact watchedOk_step hw hs hk'

/-- The time of a process is what it was created with minus the lengths of its completed
slices; the slice a running process is in is charged when it ends. -/
theorem tick_accounting (h : (watchedRuns C).Reachable w)
    (hused : (w.k.proc i).state ≠ .unused) :
    (w.k.proc i).tRemain = w.born i - BitVec.ofNat 32 (used (w.slices i))
      ∧ ∀ x ∈ w.slices i, x.1 ≤ x.2 :=
  ⟨((watchedOk_reachable h).accounted i).remain hused,
    ((watchedOk_reachable h).accounted i).slices⟩

/-- Two CPUs and the first process. -/
def watchedBoot : Watched Bool where
  k := (zeroKernel Bool).userinit
  born i := ((zeroKernel Bool).userinit.proc i).tRemain
  since _ := 0
  slices _ := []

/-- The first process runs on one of the CPUs for a tick and yields. -/
def firstSlice : Watched Bool :=
  let k := watchedBoot.k.dispatch false
  ((watchedBoot.observe k).observe k.tick).observe (k.tick.yield false k.initproc)

theorem firstSlice_reachable : (watchedRuns Bool).Reachable firstSlice := by
  have h₀ : (watchedRuns Bool).Reachable watchedBoot :=
    .start ⟨rfl, fun _ => rfl, fun _ => rfl⟩
  have h₁ := h₀.next ⟨_, .dispatch _ false (by decide +kernel), by decide +kernel, rfl⟩
  have h₂ := h₁.next ⟨_, .tick _, by decide +kernel, rfl⟩
  exact h₂.next ⟨_, .yield _ false _ (by decide +kernel), by decide +kernel, rfl⟩

theorem tick_accounting_firstSlice :
    firstSlice.slices 0 = [(0, 1)]
      ∧ (firstSlice.k.proc 0).tRemain = stcfInitRemain - BitVec.ofNat 32 (used [(0, 1)]) := by
  have hs : firstSlice.slices 0 = [(0, 1)] := by decide +kernel
  have hb : firstSlice.born 0 = stcfInitRemain := by decide +kernel
  refine ⟨hs, ?_⟩
  rw [← hs, ← hb]
  exact (tick_accounting firstSlice_reachable (by decide +kernel)).1

end SystemsPortfolio.Stcf
