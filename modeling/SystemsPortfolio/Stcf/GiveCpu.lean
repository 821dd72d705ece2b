/-
SystemsPortfolio/Stcf/GiveCpu.lean

What a `give_cpu` is worth.

A process that calls it marks itself twice, with its flag `skip_once` and with the global
`skip_target`, and yields.  On one CPU, with `give_cpu` as one step, nothing can come
between the marks and the decision that follows: the two marks always agree, nobody else
has been dispatched while they stand, and one decision against the process clears both.

The marks are plain stores, however, and on several CPUs another one may choose a process
between them and the yield.  Then the request is lost before it is made.
-/
import SystemsPortfolio.Stcf.Moves

namespace SystemsPortfolio.Stcf

variable {C : Type*} [DecidableEq C] {k k' k₁ k₂ : Kernel C} {c : C} {p : Slot}

/-! ### Where marks come from -/

theorem giveCpu_skipOnce_self : ((k.giveCpu c p).proc p).skipOnce = true := by
  rw [Kernel.giveCpu, Kernel.yield, switchOut_proc_self, stcfAccountBeforeSwitch_skipOnce]
  exact congrArg Proc.skipOnce (setProc_self ..)

theorem giveCpu_proc_of_ne {i : Slot} (hi : i ≠ p) : (k.giveCpu c p).proc i = k.proc i := by
  rw [Kernel.giveCpu, Kernel.yield, switchOut_proc_of_ne _ hi]
  exact setProc_of_ne _ hi _

theorem giveCpu_state : ((k.giveCpu c p).proc p).state = .runnable := by
  rw [Kernel.giveCpu, Kernel.yield, switchOut_proc_self]

/-- Whatever is done but by `p` itself in `give_cpu`, an unmarked `p` stays unmarked. -/
theorem unmarked_does {l : Label C} (h : Does l k k') (hl : ∀ c, l ≠ .give c p)
    (hp : ¬ k.Marked p) : ¬ k'.Marked p := by
  rw [Kernel.Marked, not_or, Bool.not_eq_true] at hp ⊢
  obtain ⟨honce, htarget⟩ := hp
  cases l with
  | decision c =>
      cases h
      rcases hpick : k.pick with - | b
      · rw [dispatch_of_none hpick]
        exact ⟨honce, htarget⟩
      · rw [dispatch_skipOnce hpick, dispatch_skipTarget hpick]
        rcases consumeSkip_marks k b with ⟨-, e⟩ | ⟨s, -, -, e⟩
        · rw [e]
          exact ⟨honce, htarget⟩
        · rw [e]
          refine ⟨?_, by simp⟩
          show (Function.update k.proc s _ p).skipOnce = false
          rcases eq_or_ne p s with rfl | hne
          · rw [Function.update_self]
          · rw [Function.update_of_ne hne]
            exact honce
  | give c q =>
      have hne : p ≠ q := by
        rintro rfl
        exact hl c rfl
      cases h
      refine ⟨?_, ?_⟩
      · rw [giveCpu_proc_of_ne hne]
        exact honce
      · show some q ≠ some p
        simpa using hne.symm
  | call c q =>
      have hkept := call_kept h
      refine ⟨?_, hkept.target ▸ htarget⟩
      rcases (hkept.slots p).once with e | ⟨-, e⟩
      · exact e.trans honce
      · exact e
  | outside =>
      obtain ⟨ht, -, hsame⟩ := outside_kept h
      exact ⟨(hsame p).once.trans honce, ht ▸ htarget⟩

/-! ### One CPU -/

/-- The two marks agree, and while they stand nobody but their process is on a CPU. -/
structure OneShot (k : Kernel C) : Prop where
  mark : ∀ i, (k.proc i).skipOnce = true ↔ k.skipTarget = some i
  alone : ∀ p, k.skipTarget = some p →
    (k.proc p).state ≠ .unused ∧ ∀ c j, k.cpu c = some j → j = p

omit [DecidableEq C] in
theorem OneShot.skipOnce_eq_false (h : OneShot k) {i : Slot} (hi : k.skipTarget ≠ some i) :
    (k.proc i).skipOnce = false := by
  rw [← Bool.not_eq_true, h.mark]
  exact hi

theorem oneShot_dispatch [Subsingleton C] (h : OneShot k) : OneShot (k.dispatch c) := by
  rcases hpick : k.pick with - | b
  · rw [dispatch_of_none hpick]
    exact h
  have honce := dispatch_skipOnce (c := c) hpick
  have htarget := dispatch_skipTarget (c := c) hpick
  rcases consumeSkip_marks k b with ⟨hb, e⟩ | ⟨s, hs, -, e⟩
  · rw [e] at honce htarget
    refine ⟨fun i => ?_, fun p hp => ?_⟩
    · rw [honce, htarget]
      exact h.mark i
    · -- the marked process is the one that is chosen
      obtain rfl : b = p := by
        rw [htarget] at hp
        rcases hb with hb | hb
        · exact absurd (hb.symm.trans hp) (by simp)
        · exact Option.some.inj (hb.symm.trans hp)
      refine ⟨by rw [dispatch_proc_self hpick]; simp, fun c' j hj => ?_⟩
      rw [dispatch_cpu hpick, Subsingleton.elim c' c, Function.update_self] at hj
      exact (Option.some.inj hj).symm
  · -- somebody else is chosen: both marks go
    rw [e] at honce htarget
    refine ⟨fun i => ?_, fun p hp => absurd (htarget.symm.trans hp) (by simp)⟩
    rw [honce, htarget]
    show (Function.update k.proc s _ i).skipOnce = true ↔ none = some i
    rcases eq_or_ne i s with rfl | hne
    · rw [Function.update_self]
      simp
    · rw [Function.update_of_ne hne, h.skipOnce_eq_false (by rw [hs]; simpa using hne.symm)]
      simp

theorem oneShot_giveCpu [Subsingleton C] (h : OneShot k) (hc : k.cpu c = some p) :
    OneShot (k.giveCpu c p) := by
  refine ⟨fun i => ?_, fun q hq => ?_⟩
  · show _ ↔ some p = some i
    rcases eq_or_ne i p with rfl | hne
    · rw [giveCpu_skipOnce_self]
      simp
    · -- an older mark is the caller's own
      rw [giveCpu_proc_of_ne hne,
        h.skipOnce_eq_false fun e => hne ((h.alone i e).2 c p hc).symm]
      simpa using hne.symm
  · obtain rfl : p = q := Option.some.inj hq
    refine ⟨by rw [giveCpu_state]; simp, fun c' j hj => ?_⟩
    rw [Kernel.giveCpu, Kernel.yield, switchOut_cpu, Subsingleton.elim c' c,
      Function.update_self] at hj
    exact absurd hj (by simp)

theorem oneShot_does [Subsingleton C] (hk : CpuOk k) (h : OneShot k) {l : Label C}
    (hs : Does l k k') : OneShot k' := by
  cases l with
  | decision c =>
      cases hs with
      | dispatch _ _ hc => exact oneShot_dispatch h
  | give c p =>
      cases hs with
      | giveCpu _ _ _ hc => exact oneShot_giveCpu h hc
  | call c p =>
      have hkept := call_kept hs
      have hc : k.cpu c = some p := by
        cases hs <;> assumption
      refine ⟨fun i => ?_, fun q hq => ?_⟩
      · rw [hkept.target, ← h.mark]
        rcases (hkept.slots i).once with e | ⟨hun, e⟩
        · rw [e]
        · -- a slot without a process is not marked
          rw [e, h.skipOnce_eq_false fun ht => (h.alone i ht).1 hun]
      · rw [hkept.target] at hq
        -- the caller is the marked process, and it is running
        obtain rfl : p = q := (h.alone q hq).2 c p hc
        have hrun := hk.running c p hc
        refine ⟨fun hun => ?_, fun c' j hj => ?_⟩
        · rcases (hkept.slots p).freed hun with e | e <;>
            exact absurd (hrun.symm.trans e) (by decide)
        · rcases hkept.cpu with e | e
          · exact (h.alone p hq).2 c' j (e ▸ hj)
          · rw [e, Subsingleton.elim c' c] at hj
            exact absurd ((Function.update_self ..).symm.trans hj) (by simp)
  | outside =>
      obtain ⟨ht, hcpu, hsame⟩ := outside_kept hs
      refine ⟨fun i => ?_, fun q hq => ?_⟩
      · rw [ht, (hsame i).once]
        exact h.mark i
      · rw [ht] at hq
        refine ⟨fun hun => (h.alone q hq).1 ((hsame q).freed hun), ?_⟩
        rw [hcpu]
        exact (h.alone q hq).2

theorem oneShot_reachable [Subsingleton C] (h : (stcf C).Reachable k) : OneShot k := by
  refine h.invariant ?_ ?_
  · rintro _ rfl
    obtain ⟨htarget, honce⟩ := userinit_unmarked (C := C)
    refine ⟨fun i => ?_, fun p hp => absurd (htarget.symm.trans hp) (by simp)⟩
    rw [honce, htarget]
    simp
  · intro s s' hr hs hstep
    obtain ⟨l, hl⟩ := step_iff_does.1 hstep
    exact oneShot_does (cpuOk_reachable hr) hs hl

/-- A decision now would pass over the runnable `p` for a process that comes after it. -/
def Kernel.PassesOver (k : Kernel C) (p : Slot) : Prop :=
  ∃ b, k.pick = some b ∧ b ≠ p ∧ (k.proc p).state = .runnable
    ∧ better (k.proc p) (k.proc b) = true

/-- The runs from `k` in which `p` does not call `give_cpu`, with the number of decisions
that pass over `p`. -/
inductive Since (p : Slot) (k : Kernel C) : Nat → Kernel C → Prop
  | start : Since p k 0 k
  | passed {n : Nat} {k' : Kernel C} {c : C} (h : Since p k n k') (hc : k'.cpu c = none)
      (hp : k'.PassesOver p) : Since p k (n + 1) (k'.dispatch c)
  | other {n : Nat} {k' k'' : Kernel C} {l : Label C} (h : Since p k n k')
      (hs : Does l k' k'') (hgive : ∀ c, l ≠ .give c p)
      (hpass : ∀ c, l = .decision c → ¬ k'.PassesOver p) : Since p k n k''

theorem Since.reachable {n : Nat} (hk : (stcf C).Reachable k) (h : Since p k n k') :
    (stcf C).Reachable k' := by
  induction h with
  | start => exact hk
  | passed _ hc _ ih => exact ih.next (.dispatch _ _ hc)
  | other _ hs _ _ ih => exact ih.next (step_iff_does.2 ⟨_, hs⟩)

/-- Only a marked process is passed over, and the decision takes both marks away. -/
theorem OneShot.passed (h : OneShot k) (hp : k.PassesOver p) :
    k.Marked p ∧ ¬ (k.dispatch c).Marked p := by
  obtain ⟨b, hpick, hne, hrun, hbetter⟩ := hp
  have hm : k.Marked p := by
    by_contra hm
    exact absurd (not_better_of_pick hpick hrun hm) (by simp [hbetter])
  have htarget : k.skipTarget = some p := by
    rcases hm with e | e
    · exact (h.mark p).1 e
    · exact e
  refine ⟨hm, ?_⟩
  rw [Kernel.Marked, dispatch_skipOnce hpick, dispatch_skipTarget hpick]
  rcases consumeSkip_marks k b with ⟨e | e, -⟩ | ⟨s, hs, -, e⟩
  · exact absurd (e.symm.trans htarget) (by simp)
  · exact absurd (Option.some.inj (e.symm.trans htarget)) hne
  · obtain rfl : s = p := Option.some.inj (hs.symm.trans htarget)
    rw [e]
    simp [Kernel.setProc]

/-- Once passed over, a process that does not mark itself again is not passed over. -/
theorem Since.count [Subsingleton C] {n : Nat} (hk : (stcf C).Reachable k)
    (h : Since p k n k') : n = 0 ∨ n = 1 ∧ ¬ k'.Marked p := by
  induction h with
  | start => exact .inl rfl
  | passed h hc hp ih =>
      obtain ⟨hm, hm'⟩ := (oneShot_reachable (h.reachable hk)).passed hp
      rcases ih with rfl | ⟨-, hun⟩
      · exact .inr ⟨rfl, hm'⟩
      · exact absurd hm hun
  | other _ hs hgive _ ih =>
      rcases ih with rfl | ⟨rfl, hun⟩
      · exact .inl rfl
      · exact .inr ⟨rfl, unmarked_does hs hgive hun⟩

/-- On one CPU the marks agree, so that there is at most one marked process; a slot without
a process is not marked and neither is the process that takes it; and a `give_cpu` costs its
caller at most one decision. -/
theorem giveCpu_one_shot [Subsingleton C] (h : (stcf C).Reachable k) :
    (∀ i, (k.proc i).skipOnce = true ↔ k.skipTarget = some i)
      ∧ (∀ i j, (k.proc i).skipOnce = true → (k.proc j).skipOnce = true → i = j)
      ∧ (∀ i, (k.proc i).state = .unused →
        ¬ k.Marked i ∧ ∀ k', Step k k' → ¬ k'.Marked i)
      ∧ ∀ c p, k.cpu c = some p → ∀ n k', Since p (k.giveCpu c p) n k' → n ≤ 1 := by
  have hone := oneShot_reachable h
  refine ⟨hone.mark, fun i j hi hj => ?_, fun i hi => ?_, fun c p hc n k' hs => ?_⟩
  · exact Option.some.inj (((hone.mark i).1 hi).symm.trans ((hone.mark j).1 hj))
  · have hun : ¬ k.Marked i := by
      rw [Kernel.Marked, hone.mark, or_self]
      exact fun e => (hone.alone i e).1 hi
    refine ⟨hun, fun k' hs => ?_⟩
    obtain ⟨l, hl⟩ := step_iff_does.1 hs
    refine unmarked_does hl ?_ hun
    -- a process that gives the CPU away is running
    rintro c rfl
    cases hl with
    | giveCpu _ _ _ hc =>
        exact absurd (((cpuOk_reachable h).running c i hc).symm.trans hi) (by decide)
  · rcases hs.count (h.next (.giveCpu k c p hc)) with e | ⟨e, -⟩ <;> omega

/-- `init` forks and its child gives the CPU away: one decision goes against the child. -/
theorem giveCpu_one_shot_child : ∃ (k : Kernel Unit) (p : Slot), (stcf Unit).Reachable k
    ∧ k.cpu () = some p ∧ (∃ k', Since p (k.giveCpu () p) 1 k')
    ∧ ∀ n k', Since p (k.giveCpu () p) n k' → n ≤ 1 := by
  let k₀ := (zeroKernel Unit).userinit
  let k₁ := ((k₀.dispatch ()).fork () k₀.initproc true true).2
  have h₀ : (stcf Unit).Reachable k₀ := .start rfl
  have h₁ : (stcf Unit).Reachable k₁ :=
    (h₀.next (.dispatch k₀ () rfl)).next (.fork _ () k₀.initproc true true (by decide +kernel))
  have h₂ := h₁.next (.dispatch k₁ () (by decide +kernel))
  obtain ⟨p, hp⟩ : ∃ p, k₁.pick = some p :=
    Option.isSome_iff_exists.1 (by decide +kernel)
  have hcpu : (k₁.dispatch ()).cpu () = some p := by
    rw [dispatch_cpu hp, Function.update_self]
  refine ⟨k₁.dispatch (), p, h₂, hcpu, ?_, (giveCpu_one_shot h₂).2.2.2 () p hcpu⟩
  obtain rfl : (k₁.pick).getD k₀.initproc = p := by rw [hp]; rfl
  refine ⟨_, .passed (c := ()) .start (by decide +kernel) ⟨k₀.initproc, ?_⟩⟩
  decide +kernel

end SystemsPortfolio.Stcf
