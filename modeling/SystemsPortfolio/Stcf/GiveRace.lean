/-
SystemsPortfolio/Stcf/GiveRace.lean

`give_cpu` on several CPUs.

The call is two plain stores, `skip_once = 1` and `skip_target = p`, and then `yield`, and
here each of them is a step of its own, between which the other CPUs run.  `fork` and
`clone` are taken apart too, at the points where they do not hold `ptable.lock`.

A request that has just been made is honoured as long as one of the marks of its process
is there when the next decision is taken.  Two things take marks away.  A decision on
another CPU clears both of them for the current `skip_target`, whether or not its process
has reached `yield`; and a second `give_cpu` overwrites `skip_target`.
-/
import SystemsPortfolio.Stcf.GiveCpu

namespace SystemsPortfolio.Stcf

variable {C : Type*} [DecidableEq C]

/-! ### The steps -/

/-- Where a process is in a call that is not one step. -/
inductive GivePoint
  | out
  | once               -- in `give_cpu`, after the store to `skip_once`
  | target             -- in `give_cpu`, after the store to `skip_target`
  | made (i : Slot)    -- in `fork` or `clone`, with the result of `allocproc`
  | forked             -- in `fork`, before its `yield`
  deriving DecidableEq

/-- The kernel, the point of each process, and whether it has made itself runnable in
`give_cpu` since the last decision. -/
structure GiveState (C : Type*) where
  k : Kernel C
  pt : Slot → GivePoint
  fresh : Slot → Bool

/-- The steps that can take a mark away, and the others. -/
inductive GiveAct
  | decision
  | target (p : Slot)
  | other

/-- One step.  The calls of `Does` are those made in one critical section, and a `fork` or
`clone` that nothing comes between. -/
inductive GiveStep : GiveAct → GiveState C → GiveState C → Prop
  | once (s : GiveState C) (c : C) (p : Slot) (hc : s.k.cpu c = some p) (hp : s.pt p = .out) :
      GiveStep .other s { s with
        k := s.k.setProc p { s.k.proc p with skipOnce := true }
        pt := Function.update s.pt p .once }
  | target (s : GiveState C) (c : C) (p : Slot) (hc : s.k.cpu c = some p)
      (hp : s.pt p = .once) :
      GiveStep (.target p) s { s with
        k := { s.k with skipTarget := some p }
        pt := Function.update s.pt p .target }
  | yield (s : GiveState C) (c : C) (p : Slot) (hc : s.k.cpu c = some p)
      (hp : s.pt p = .target) :
      GiveStep .other s
        { k := s.k.yield c p
          pt := Function.update s.pt p .out
          fresh := Function.update s.fresh p true }
  | decision (s : GiveState C) (c : C) (hc : s.k.cpu c = none) :
      GiveStep .decision s { s with k := s.k.dispatch c, fresh := fun _ => false }
  | call (s : GiveState C) (c : C) (p : Slot) (k' : Kernel C) (hp : s.pt p = .out)
      (h : Does (.call c p) s.k k') : GiveStep .other s { s with k := k' }
  | outside (s : GiveState C) (k' : Kernel C) (h : Does .outside s.k k') :
      GiveStep .other s { s with k := k' }
  | alloc (s : GiveState C) (c : C) (p : Slot) (kallocOk : Bool) (hc : s.k.cpu c = some p)
      (hp : s.pt p = .out) :
      GiveStep .other s { s with
        k := (s.k.allocproc kallocOk).2
        pt := Function.update s.pt p ((s.k.allocproc kallocOk).1.elim .out .made) }
  | drop (s : GiveState C) (c : C) (p i : Slot) (hc : s.k.cpu c = some p)
      (hp : s.pt p = .made i) :
      GiveStep .other s { s with
        k := s.k.dropChild i
        pt := Function.update s.pt p .out }
  | fork (s : GiveState C) (c : C) (p i : Slot) (hc : s.k.cpu c = some p)
      (hp : s.pt p = .made i) :
      GiveStep .other s { s with
        k := s.k.forkChild p i
        pt := Function.update s.pt p .forked }
  | forkYield (s : GiveState C) (c : C) (p : Slot) (hc : s.k.cpu c = some p)
      (hp : s.pt p = .forked) :
      GiveStep .other s { s with
        k := s.k.yield c p
        pt := Function.update s.pt p .out }
  | clone (s : GiveState C) (c : C) (p i : Slot) (hc : s.k.cpu c = some p)
      (hp : s.pt p = .made i) :
      GiveStep .other s { s with
        k := s.k.cloneChild p i
        pt := Function.update s.pt p .out }

/-- The kernel from its start, with the steps that `ok` lets happen. -/
def giveRuns (C : Type*) [DecidableEq C] (ok : GiveState C → GiveAct → Prop) :
    Transition.System (GiveState C) where
  init s := s = ⟨(zeroKernel C).userinit, fun _ => .out, fun _ => false⟩
  step s s' := ∃ a, ok s a ∧ GiveStep a s s'

/-- The step does not take the last mark of a process that is about to be, or has just
been, made runnable by `give_cpu`: no decision that finds a runnable process comes between
the store of the current `skip_target` and its `yield`, and `skip_target` is overwritten
only when its process still has its flag. -/
def KeepsMark (s : GiveState C) : GiveAct → Prop
  | .decision => ∀ p, s.k.skipTarget = some p → s.pt p = .target →
      ∀ i, (s.k.proc i).state ≠ .runnable
  | .target q => ∀ p, p ≠ q → s.k.skipTarget = some p →
      s.pt p = .target ∨ s.fresh p = true → (s.k.proc p).skipOnce = true
  | .other => True

variable {k k' : Kernel C} {s s' : GiveState C} {c : C} {p : Slot} {x : GivePoint}

omit [DecidableEq C] in
theorem keepsMark_target (h : s.k.skipTarget = none) : KeepsMark s (.target p) :=
  fun _ _ e => absurd (h.symm.trans e) (by simp)

/-! ### The pieces and the whole calls -/

/-- Whatever the kernel can do with `give_cpu` as one step it can do here. -/
theorem giveRuns_of_stcf (h : (stcf C).Reachable k) :
    ∃ f, (giveRuns C fun _ _ => True).Reachable ⟨k, fun _ => .out, f⟩ := by
  refine h.invariant
    (P := fun k => ∃ f, (giveRuns C fun _ _ => True).Reachable ⟨k, fun _ => .out, f⟩) ?_ ?_
  · rintro _ rfl
    exact ⟨_, .start rfl⟩
  · rintro k k' - ⟨f, hf⟩ hs
    obtain ⟨l, hl⟩ := step_iff_does.1 hs
    cases l with
    | decision c =>
        cases hl with
        | dispatch _ _ hc => exact ⟨_, hf.next ⟨.decision, trivial, .decision _ c hc⟩⟩
    | give c p =>
        cases hl with
        | giveCpu _ _ _ hc =>
            have h₁ := hf.next ⟨.other, trivial, .once _ c p hc rfl⟩
            have h₂ := h₁.next ⟨.target p, trivial, .target _ c p hc (Function.update_self ..)⟩
            have h₃ := h₂.next ⟨.other, trivial, .yield _ c p hc (Function.update_self ..)⟩
            rw [Function.update_idem, Function.update_idem, Function.update_eq_self] at h₃
            exact ⟨_, h₃⟩
    | call c p => exact ⟨_, hf.next ⟨.other, trivial, .call _ c p k' rfl hl⟩⟩
    | outside => exact ⟨_, hf.next ⟨.other, trivial, .outside _ k' hl⟩⟩

/-! ### What a step leaves alone -/

/-- A slot whose process waits for a CPU or is being made is not touched quietly. -/
theorem Quiet.state_eq {q q' : Proc} (h : Quiet q q')
    (hq : q.state = .runnable ∨ q.state = .embryo) : q'.state = q.state := by
  have hne : ∀ st, q.state = st → st ≠ .unused ∧ st ≠ .zombie ∧ st ≠ .sleeping := by
    rintro _ rfl
    rcases hq with e | e <;> rw [e] <;> decide
  cases h with
  | nudge h => exact h.state.resolve_right fun e => (hne _ e.1).2.2 rfl
  | create h | idle h => exact absurd rfl (hne _ h).1
  | free h => exact absurd rfl (hne _ h).2.1

/-- A step is quiet about the processes that do not run, if it starts no slice of them. -/
theorem Effect.quiet (h : Effect k k') {j : Slot} (hj : (k.proc j).state ≠ .running)
    (hcpu : (k.proc j).state = .runnable → ∀ c, k.cpu c = none → k'.cpu c = none) :
    Quiet (k.proc j) (k'.proc j) := by
  rcases h with ⟨-, -, hq⟩ | ⟨c, cur, -, -, -, hcur, hq⟩ | ⟨c, b, hc, he, -, hb, hq⟩
  · exact hq j
  · refine hq j ?_
    rintro rfl
    exact hj hcur.before
  · refine hq j ?_
    rintro rfl
    have := hcpu hb.before c hc
    rw [he, Function.update_self] at this
    exact absurd this (by simp)

omit [DecidableEq C] in
/-- `allocproc` touches no slot in use and returns an embryo. -/
theorem allocproc_used (k : Kernel C) (kallocOk : Bool) :
    (k.allocproc kallocOk).2.cpu = k.cpu ∧ (k.allocproc kallocOk).2.skipTarget = k.skipTarget
      ∧ (∀ j, (k.proc j).state ≠ .unused → (k.allocproc kallocOk).2.proc j = k.proc j)
      ∧ ∀ i, (k.allocproc kallocOk).1 = some i → (k.proc i).state = .unused
        ∧ ((k.allocproc kallocOk).2.proc i).state = .embryo := by
  have hother {i : Slot} {p : Proc} {k' : Kernel C} (h : Took i p k k') (j : Slot)
      (hj : (k.proc j).state ≠ .unused) : k'.proc j = k.proc j := by
    rw [h.proc]
    refine Function.update_of_ne ?_ ..
    rintro rfl
    exact hj h.unused
  rcases allocproc_took k kallocOk with e | ⟨i, p, k', e, h, -⟩ | ⟨i, p, k', e, h, hp, -⟩
  · rw [e]
    exact ⟨rfl, rfl, fun _ _ => rfl, fun i hi => absurd hi (by simp)⟩
  · rw [e]
    exact ⟨h.cpu, h.skipTarget, hother h, fun i hi => absurd hi (by simp)⟩
  · rw [e]
    refine ⟨h.cpu, h.skipTarget, hother h, ?_⟩
    rintro _ ⟨⟩
    refine ⟨h.unused, ?_⟩
    rw [h.proc, Function.update_self]
    exact hp

/-! ### The invariant -/

/-- A process inside a call is on a CPU; one that has given its CPU away waits for another;
both are marked from the store to `skip_target` on; and an embryo has one maker. -/
structure GiveInv (s : GiveState C) : Prop where
  ok : CpuOk s.k
  inside : ∀ p, s.pt p ≠ .out → ∃ c, s.k.cpu c = some p
  waits : ∀ p, s.fresh p = true → (s.k.proc p).state = .runnable
  marked : ∀ p, s.pt p = .target ∨ s.fresh p = true → s.k.Marked p
  embryo : ∀ p i, s.pt p = .made i → (s.k.proc i).state = .embryo
  apart : ∀ p q i, s.pt p = .made i → s.pt q = .made i → p = q

/-- What a move of `p` to the point `x` has to bring. -/
structure Move (s : GiveState C) (p : Slot) (x : GivePoint) (k' : Kernel C) : Prop where
  ok : CpuOk k'
  cpu : ∀ c j, j ≠ p → s.k.cpu c = some j → k'.cpu c = some j
  waits : ∀ j, (s.k.proc j).state = .runnable → (k'.proc j).state = .runnable
  embryo : ∀ j, (s.k.proc j).state = .embryo → s.pt p ≠ .made j → (k'.proc j).state = .embryo
  marked : ∀ j, j ≠ p → s.pt j = .target ∨ s.fresh j = true → k'.Marked j
  inside : x ≠ .out → ∃ c, k'.cpu c = some p
  own : x = .target ∨ s.fresh p = true → k'.Marked p
  made : ∀ i, x = .made i → (k'.proc i).state = .embryo ∧ ∀ q, q ≠ p → s.pt q ≠ .made i

omit [DecidableEq C] in
theorem GiveInv.move (h : GiveInv s) (hm : Move s p x k') :
    GiveInv { s with k := k', pt := Function.update s.pt p x } := by
  refine ⟨hm.ok, fun q hq => ?_, fun q hq => hm.waits q (h.waits q hq), fun q hq => ?_,
    fun q i hq => ?_, fun q r i hq hr => ?_⟩
  · dsimp only at hq ⊢
    rcases eq_or_ne q p with rfl | hne
    · rw [Function.update_self] at hq
      exact hm.inside hq
    · rw [Function.update_of_ne hne] at hq
      obtain ⟨c, hc⟩ := h.inside q hq
      exact ⟨c, hm.cpu c q hne hc⟩
  · dsimp only at hq ⊢
    rcases eq_or_ne q p with rfl | hne
    · rw [Function.update_self] at hq
      exact hm.own hq
    · rw [Function.update_of_ne hne] at hq
      exact hm.marked q hne hq
  · dsimp only at hq ⊢
    rcases eq_or_ne q p with rfl | hne
    · rw [Function.update_self] at hq
      exact (hm.made i hq).1
    · rw [Function.update_of_ne hne] at hq
      refine hm.embryo i (h.embryo q i hq) fun e => ?_
      exact hne (h.apart q p i hq e)
  · dsimp only at hq hr
    rcases eq_or_ne q p with rfl | hq' <;> rcases eq_or_ne r q with rfl | hr'
    · rfl
    · rw [Function.update_self] at hq
      rw [Function.update_of_ne hr'] at hr
      exact absurd hr ((hm.made i hq).2 r hr')
    · rfl
    · rw [Function.update_of_ne hq'] at hq
      rcases eq_or_ne r p with rfl | hrp
      · rw [Function.update_self] at hr
        exact absurd hq ((hm.made i hr).2 q hq')
      · rw [Function.update_of_ne hrp] at hr
        exact h.apart q r i hq hr

omit [DecidableEq C] in
/-- A process with a request of its own is in use, and is no embryo. -/
theorem GiveInv.busy (h : GiveInv s) {j : Slot} (hj : s.pt j = .target ∨ s.fresh j = true) :
    (s.k.proc j).state ≠ .unused ∧ ∀ q, s.pt q ≠ .made j := by
  have hst : (s.k.proc j).state = .running ∨ (s.k.proc j).state = .runnable := by
    rcases hj with e | e
    · obtain ⟨c, hc⟩ := h.inside j (by rw [e]; simp)
      exact .inl (h.ok.running c j hc)
    · exact .inr (h.waits j e)
  refine ⟨fun e => ?_, fun q hq => ?_⟩
  · rcases hst with e' | e' <;> exact absurd (e.symm.trans e') (by decide)
  · rcases hst with e' | e' <;> exact absurd ((h.embryo q j hq).symm.trans e') (by decide)

omit [DecidableEq C] in
/-- The process of a CPU does not wait for one. -/
theorem GiveInv.not_fresh (h : GiveInv s) (hc : s.k.cpu c = some p) : s.fresh p ≠ true :=
  fun e => absurd ((h.waits p e).symm.trans (h.ok.running c p hc)) (by decide)

omit [DecidableEq C] in
/-- A step of `p` that touches no slot in use but that of its own embryo. -/
theorem GiveInv.move_same (h : GiveInv s) (hc : s.k.cpu c = some p) (hcpu : k'.cpu = s.k.cpu)
    (ht : k'.skipTarget = s.k.skipTarget)
    (hsame : ∀ j, (s.k.proc j).state ≠ .unused → s.pt p ≠ .made j →
      (k'.proc j).state = (s.k.proc j).state
        ∧ ((s.k.proc j).skipOnce = true → (k'.proc j).skipOnce = true))
    (hx : x ≠ .target)
    (hmade : ∀ i, x = .made i → (k'.proc i).state = .embryo ∧ (s.k.proc i).state = .unused) :
    GiveInv { s with k := k', pt := Function.update s.pt p x } := by
  have hkeep : ∀ st j, (s.k.proc j).state = st → st ≠ .unused → s.pt p ≠ .made j →
      (k'.proc j).state = st := fun st j hj hst hp => by
    subst hj
    exact (hsame j hst hp).1
  have hown : ∀ st j, (s.k.proc j).state = st → st ≠ .embryo → s.pt p ≠ .made j :=
    fun st j hj hst hp => hst (hj.symm.trans (h.embryo p j hp))
  refine h.move ⟨?_, ?_, ?_, ?_, ?_, ?_, ?_, ?_⟩
  · exact h.ok.of_running hcpu fun j hj => hkeep _ j hj (by decide) (hown _ j hj (by decide))
  · intro c j _ hj
    rw [hcpu]
    exact hj
  · exact fun j hj => hkeep _ j hj (by decide) (hown _ j hj (by decide))
  · exact fun j hj hp => hkeep _ j hj (by decide) hp
  · intro j _ hj
    obtain ⟨hun, hmade⟩ := h.busy hj
    rcases h.marked j hj with e | e
    · exact .inl ((hsame j hun (hmade p)).2 e)
    · exact .inr (ht.trans e)
  · rw [hcpu]
    exact fun _ => ⟨c, hc⟩
  · exact fun e => absurd e (not_or.2 ⟨hx, h.not_fresh hc⟩)
  · refine fun i hi => ⟨(hmade i hi).1, fun q _ hq => ?_⟩
    exact absurd ((hmade i hi).2.symm.trans (h.embryo q i hq)) (by decide)

/-- A call made in one critical section. -/
theorem GiveInv.move_call (h : GiveInv s) (hs : Does (.call c p) s.k k') :
    GiveInv { s with k := k', pt := Function.update s.pt p .out } := by
  have hkept := call_kept hs
  have hstep := step_iff_does.2 ⟨_, hs⟩
  have hc : s.k.cpu c = some p := by
    cases hs <;> assumption
  have hidle : ∀ d, s.k.cpu d = none → k'.cpu d = none := fun d hd => by
    rcases hkept.cpu with e | e <;> rw [e]
    · exact hd
    · rcases eq_or_ne d c with rfl | hne
      · exact Function.update_self ..
      · rw [Function.update_of_ne hne]
        exact hd
  have hquiet {j : Slot} (hj : (s.k.proc j).state ≠ .running) :=
    (step_effect h.ok hstep).quiet hj fun _ => hidle
  refine h.move ⟨cpuOk_step h.ok hstep, ?_, ?_, ?_, ?_, fun e => absurd rfl e, ?_, ?_⟩
  · intro d j hne hj
    rcases hkept.cpu with e | e <;> rw [e]
    · exact hj
    · rw [Function.update_of_ne]
      · exact hj
      · rintro rfl
        exact hne (Option.some.inj (hj.symm.trans hc))
  · exact fun j hj => ((hquiet (by rw [hj]; decide)).state_eq (.inl hj)).trans hj
  · exact fun j hj _ => ((hquiet (by rw [hj]; decide)).state_eq (.inr hj)).trans hj
  · intro j _ hj
    rcases h.marked j hj with e | e
    · exact .inl (((hkept.slots j).once_eq (h.busy hj).1).trans e)
    · exact .inr (hkept.target.trans e)
  · exact fun e => absurd e (not_or.2 ⟨by simp, h.not_fresh hc⟩)
  · exact fun i hi => absurd hi (by simp)

omit [DecidableEq C] in
/-- The store to `skip_target` over the request of a process that keeps its flag. -/
theorem GiveInv.move_target (h : GiveInv s) (hc : s.k.cpu c = some p)
    (hok : KeepsMark s (.target p)) :
    GiveInv { s with
      k := { s.k with skipTarget := some p }
      pt := Function.update s.pt p .target } := by
  refine h.move ⟨h.ok.of_running rfl fun j hj => hj, fun _ _ _ hj => hj, fun _ hj => hj,
    fun _ hj _ => hj, fun j hne hj => ?_, fun _ => ⟨c, hc⟩, fun _ => .inr rfl, ?_⟩
  · rcases h.marked j hj with e | e
    · exact .inl e
    · exact .inl (hok j hne e hj)
  · exact fun i hi => absurd hi (by simp)

omit [DecidableEq C] in
/-- From here on the request of `p` counts. -/
theorem GiveInv.refresh (h : GiveInv s) (hst : (s.k.proc p).state = .runnable)
    (hm : s.k.Marked p) : GiveInv { s with fresh := Function.update s.fresh p true } := by
  refine ⟨h.ok, h.inside, fun q hq => ?_, fun q hq => ?_, h.embryo, h.apart⟩
  · rcases eq_or_ne q p with rfl | hne
    · exact hst
    · exact h.waits q ((Function.update_of_ne hne ..).symm.trans hq)
  · rcases eq_or_ne q p with rfl | hne
    · exact hm
    · exact h.marked q (hq.imp id (Function.update_of_ne hne ..).symm.trans)

theorem giveInv_outside (h : GiveInv s) (hs : Does .outside s.k k') :
    GiveInv { s with k := k' } := by
  obtain ⟨ht, hcpu, hsame⟩ := outside_kept hs
  have hstep := step_iff_does.2 ⟨_, hs⟩
  have hquiet {j : Slot} (hj : (s.k.proc j).state ≠ .running) :=
    (step_effect h.ok hstep).quiet hj fun _ d hd => hcpu ▸ hd
  refine ⟨cpuOk_step h.ok hstep, fun q hq => ?_, fun q hq => ?_, fun q hq => ?_,
    fun q i hq => ?_, h.apart⟩
  · dsimp only
    rw [hcpu]
    exact h.inside q hq
  · have hst := h.waits q hq
    exact ((hquiet (by rw [hst]; decide)).state_eq (.inl hst)).trans hst
  · rcases h.marked q hq with e | e
    · exact .inl ((hsame q).once.trans e)
    · exact .inr (ht.trans e)
  · have hst := h.embryo q i hq
    exact ((hquiet (by rw [hst]; decide)).state_eq (.inr hst)).trans hst

/-- A decision that finds nobody between the store to `skip_target` and `yield`. -/
theorem giveInv_decision (h : GiveInv s) (hc : s.k.cpu c = none)
    (hok : KeepsMark s .decision) :
    GiveInv { s with k := s.k.dispatch c, fresh := fun _ => false } := by
  have hcpu : ∀ d q, s.k.cpu d = some q → (s.k.dispatch c).cpu d = some q := fun d q hd => by
    rcases hpick : s.k.pick with - | b
    · rw [dispatch_of_none hpick]
      exact hd
    · rw [dispatch_cpu hpick, Function.update_of_ne]
      · exact hd
      · rintro rfl
        exact absurd (hc.symm.trans hd) (by simp)
  refine ⟨cpuOk_step h.ok (.dispatch _ c hc), fun q hq => ?_, fun q hq => absurd hq (by simp),
    fun q hq => ?_, fun q i hq => ?_, h.apart⟩
  · obtain ⟨d, hd⟩ := h.inside q hq
    exact ⟨d, hcpu d q hd⟩
  · replace hq : s.pt q = .target := hq.resolve_right (by simp)
    have hm := h.marked q (.inl hq)
    dsimp only
    rcases hpick : s.k.pick with - | b
    · rw [dispatch_of_none hpick]
      exact hm
    · rw [Kernel.Marked, dispatch_skipOnce hpick, dispatch_skipTarget hpick]
      rcases consumeSkip_marks s.k b with ⟨-, e⟩ | ⟨t, ht, -, e⟩
      · rw [e]
        exact hm
      · -- the process whose marks go is another one, so `q` has its flag
        have hne : q ≠ t := by
          rintro rfl
          exact hok q ht hq b (pick_runnable hpick)
        rw [e]
        left
        show (Function.update s.k.proc t _ q).skipOnce = true
        rw [Function.update_of_ne hne]
        exact hm.resolve_right fun hq => hne (Option.some.inj (hq.symm.trans ht))
  · have hst := h.embryo q i hq
    have hquiet := (dispatch_effect hc).quiet (j := i) (by rw [hst]; decide)
      fun e => absurd (hst.symm.trans e) (by decide)
    exact (hquiet.state_eq (.inr hst)).trans hst

/-! ### Runs -/

theorem giveInv_step {a : GiveAct} (h : GiveInv s) (hok : KeepsMark s a)
    (hs : GiveStep a s s') : GiveInv s' := by
  cases hs with
  | once _ c p hc hp =>
      refine h.move_same hc rfl rfl (fun j _ _ => ?_) (by simp) (by simp)
      rcases eq_or_ne j p with rfl | hne
      · rw [setProc_self]
        exact ⟨rfl, fun _ => rfl⟩
      · rw [setProc_of_ne _ hne]
        exact ⟨rfl, id⟩
  | target _ c p hc hp => exact h.move_target hc hok
  | yield _ c p hc hp =>
      -- the request starts to count, with the marks made before
      have hkept := call_kept (.yield s.k c p hc)
      refine (h.move_call (.yield s.k c p hc)).refresh ?_ ?_
      · exact congrArg Proc.state (switchOut_proc_self ..)
      · rcases h.marked p (.inl hp) with e | e
        · exact .inl (((hkept.slots p).once_eq (h.busy (.inl hp)).1).trans e)
        · exact .inr e
  | decision _ c hc => exact giveInv_decision h hc hok
  | call _ c p k' hp hs =>
      have := h.move_call hs
      rwa [← hp, Function.update_eq_self] at this
  | outside _ k' hs => exact giveInv_outside h hs
  | alloc _ c p kallocOk hc hp =>
      obtain ⟨hcpu, ht, hsame, hnew⟩ := allocproc_used s.k kallocOk
      refine h.move_same hc hcpu ht (fun j hj _ => ?_) ?_ fun i hi => ?_
      · rw [hsame j hj]
        exact ⟨rfl, id⟩
      · rcases (s.k.allocproc kallocOk).1 with - | i <;> simp
      · rcases e : (s.k.allocproc kallocOk).1 with - | j
        · rw [e] at hi
          exact absurd hi (by simp)
        · rw [e] at hi
          obtain rfl : j = i := by simpa using hi
          exact (hnew j e).symm
  | drop _ c p i hc hp =>
      refine h.move_same hc rfl rfl (fun j _ hj => ?_) (by simp) (by simp)
      rw [hp] at hj
      rw [Kernel.dropChild, setProc_of_ne _ fun e => hj (by rw [e])]
      exact ⟨rfl, id⟩
  | fork _ c p i hc hp =>
      refine h.move_same hc rfl rfl (fun j _ hj => ?_) (by simp) (by simp)
      rw [hp] at hj
      rw [Kernel.forkChild, setProc_of_ne _ fun e => hj (by rw [e])]
      exact ⟨rfl, id⟩
  | forkYield _ c p hc hp => exact h.move_call (.yield s.k c p hc)
  | clone _ c p i hc hp =>
      refine h.move_same hc rfl rfl (fun j _ hj => ?_) (by simp) (by simp)
      rw [hp] at hj
      rw [Kernel.cloneChild, setProc_of_ne _ fun e => hj (by rw [e])]
      rcases eq_or_ne j p with rfl | hne
      · rw [setProc_self]
        exact ⟨rfl, id⟩
      · rw [setProc_of_ne _ hne]
        exact ⟨rfl, id⟩

theorem giveInv_reachable (h : (giveRuns C KeepsMark).Reachable s) : GiveInv s := by
  refine h.invariant ?_ ?_
  · rintro _ rfl
    exact ⟨cpuOk_userinit, by simp, by simp, by simp, by simp, by simp⟩
  · rintro s s' - hs ⟨a, hok, hstep⟩
    exact giveInv_step hs hok hstep

/-- When every step of a run keeps the marks, a `give_cpu` is honoured: the first decision
after it, on any CPU, does not select its caller while an unmarked process is runnable. -/
theorem giveCpu_honoured (h : (giveRuns C KeepsMark).Reachable s) (hc : s.k.cpu c = none)
    (hp : s.fresh p = true) {q : Slot} (hq : (s.k.proc q).state = .runnable)
    (hm : ¬ s.k.Marked q) : s.k.pick ≠ some p ∧ (s.k.dispatch c).cpu c ≠ some p := by
  have hpick : s.k.pick ≠ some p := fun e =>
    hm (marked_of_pick e ((giveInv_reachable h).marked p (.inr hp)) hq)
  refine ⟨hpick, ?_⟩
  rcases e : s.k.pick with - | b
  · rw [dispatch_of_none e, hc]
    simp
  · rw [dispatch_cpu e, Function.update_self, ← e]
    exact hpick

/-! ### A run with three processes -/

/-- The process of CPU `c`, where it has one. -/
def Kernel.myproc (k : Kernel C) (c : C) : Slot :=
  (k.cpu c).getD k.initproc

/-- A process is put on CPU `c` and forks. -/
def Kernel.forkOn (k : Kernel C) (c : C) : Kernel C :=
  ((k.dispatch c).fork c ((k.dispatch c).myproc c) true true).2

/-- `init` forks, its child forks, and the child of the child runs. -/
def threeProcs : Kernel Bool :=
  (((zeroKernel Bool).userinit.forkOn false).forkOn false).dispatch false

theorem forkOn_reachable {ok : GiveState C → GiveAct → Prop}
    (hok : ∀ s a, KeepsMark s a → ok s a)
    (h : (giveRuns C ok).Reachable ⟨k, fun _ => .out, fun _ => false⟩) (hc : k.cpu c = none)
    (hb : (k.dispatch c).cpu c = some ((k.dispatch c).myproc c)) :
    (giveRuns C ok).Reachable ⟨k.forkOn c, fun _ => .out, fun _ => false⟩ := by
  have hdec := h.next ⟨.decision, hok _ _ fun p _ hp => absurd hp (by simp), .decision _ c hc⟩
  exact hdec.next ⟨.other, hok _ _ trivial, .call _ c _ _ rfl (.fork _ c _ true true hb)⟩

theorem threeProcs_reachable {ok : GiveState Bool → GiveAct → Prop}
    (hok : ∀ s a, KeepsMark s a → ok s a) :
    (giveRuns Bool ok).Reachable ⟨threeProcs, fun _ => .out, fun _ => false⟩ := by
  have h₀ : (giveRuns Bool ok).Reachable
    ⟨(zeroKernel Bool).userinit, fun _ => .out, fun _ => false⟩ := .start rfl
  have h₁ := forkOn_reachable (c := false) hok h₀ rfl (by decide +kernel)
  have h₂ := forkOn_reachable (c := false) hok h₁ (by decide +kernel) (by decide +kernel)
  exact h₂.next ⟨.decision, hok _ _ fun p _ hp => absurd hp (by simp),
    .decision _ false (by decide +kernel)⟩

/-- The youngest gives the CPU away, and the next decision passes over it. -/
theorem giveCpu_honoured_three : ∃ (s : GiveState Bool) (p q : Slot),
    (giveRuns Bool KeepsMark).Reachable s ∧ s.k.cpu false = none ∧ s.fresh p = true
      ∧ (s.k.proc q).state = .runnable ∧ ¬ s.k.Marked q
      ∧ s.k.pick ≠ some p ∧ (s.k.dispatch false).cpu false ≠ some p := by
  let p := threeProcs.myproc false
  have h₀ := threeProcs_reachable fun _ _ h => h
  have h₁ := h₀.next ⟨.other, trivial, .once _ false p (by decide +kernel) rfl⟩
  have h₂ := h₁.next ⟨.target p, keepsMark_target (by decide +kernel),
    .target _ false p (by decide +kernel) (by decide +kernel)⟩
  have h₃ := h₂.next ⟨.other, trivial,
    .yield _ false p (by decide +kernel) (by decide +kernel)⟩
  refine ⟨_, p, threeProcs.initproc, h₃, by decide +kernel, by decide +kernel,
    by decide +kernel, by decide +kernel, ?_⟩
  exact giveCpu_honoured (q := threeProcs.initproc) h₃ (by decide +kernel) (by decide +kernel)
    (by decide +kernel) (by decide +kernel)

/-- The same request is lost when the second CPU takes a decision before the `yield`: the
youngest is selected again, while `init` is runnable and unmarked. -/
theorem giveCpu_lost : ∃ (s : GiveState Bool) (p q : Slot),
    (giveRuns Bool fun _ _ => True).Reachable s ∧ s.k.cpu false = none ∧ s.fresh p = true
      ∧ q ≠ p ∧ (s.k.proc q).state = .runnable ∧ ¬ s.k.Marked q
      ∧ s.k.pick = some p ∧ (s.k.dispatch false).cpu false = some p := by
  let p := threeProcs.myproc false
  have h₀ := threeProcs_reachable fun _ _ (_ : KeepsMark _ _) => trivial
  have h₁ := h₀.next ⟨_, trivial, .once _ false p (by decide +kernel) rfl⟩
  have h₂ := h₁.next ⟨_, trivial, .target _ false p (by decide +kernel) (by decide +kernel)⟩
  have h₃ := h₂.next ⟨_, trivial, .decision _ true (by decide +kernel)⟩
  have h₄ := h₃.next ⟨_, trivial, .yield _ false p (by decide +kernel) (by decide +kernel)⟩
  exact ⟨_, p, threeProcs.initproc, h₄, by decide +kernel, by decide +kernel,
    by decide +kernel, by decide +kernel, by decide +kernel, by decide +kernel,
    by decide +kernel⟩

end SystemsPortfolio.Stcf
