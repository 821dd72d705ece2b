/-
SystemsPortfolio/Sync/WriterTokens.lean

The value of the writer semaphore `wlock`, declared as a binary semaphore.

A post is meant as a hand-over: the lock is free, one waiting writer is woken, and it
takes the lock.  As long as that writer is the next one to take it there is one wake-up
at most, in the semaphore or with the woken writer, and only while the lock is free
(`OneToken`).  Nothing keeps a new writer out in that interval: `rw_wlock` enters
whenever it finds the lock free.  Such a call (`Barge`) uses no wake-up, its
`rw_wunlock` posts another one, and the two are never brought together again.
-/
import SystemsPortfolio.Sync.RwLock

namespace SystemsPortfolio.Sync

open Threads

/-- What the declaration of `wlock` says of its value: a binary semaphore, with a token
only for a waiting writer. -/
def RwLock.Binary (rw : RwLock) : Prop :=
  rw.wlock ≤ 1 ∧ (rw.writersWaiting = 0 → rw.wlock = 0)

instance : DecidablePred RwLock.Binary :=
  fun rw => inferInstanceAs (Decidable (rw.wlock ≤ 1 ∧ (rw.writersWaiting = 0 → rw.wlock = 0)))

/-- The lock is free and a writer waits for it. -/
def RwLock.Offered (rw : RwLock) : Prop :=
  rw.writerActive = false ∧ rw.readers = 0 ∧ 0 < rw.writersWaiting

instance : DecidablePred RwLock.Offered :=
  fun rw => inferInstanceAs
    (Decidable (rw.writerActive = false ∧ rw.readers = 0 ∧ 0 < rw.writersWaiting))

/-- There is one wake-up at most, in the semaphore or with one of `k` woken writers, and
only while the lock is free for a waiting writer. -/
structure OneToken (rw : RwLock) (k : Nat) : Prop where
  le_one : rw.wlock + k ≤ 1
  offered : 0 < rw.wlock + k → rw.Offered

/-! ### Sections of the code -/

theorem rwRlock_ne_woken (rw : RwLock) : (rwRlock rw).2 ≠ .woken := by
  rcases rwRlock_cases rw with ⟨-, -, e⟩ | e <;> rw [e] <;> simp

theorem rwWlockTest_ne_woken (rw : RwLock) : (rwWlockTest rw).2 ≠ .woken := by
  rcases rwWlockTest_cases rw with ⟨-, e⟩ | ⟨-, -, e⟩ <;> rw [e] <;> simp

variable {rw : RwLock} {r w a k : Nat}

theorem rwWlockTest_free (hact : rw.writerActive = false) (hr : rw.readers = 0) :
    rwWlockTest rw
      = ({ rw with writersWaiting := rw.writersWaiting - 1, writerActive := true }, .writing) := by
  rcases rwWlockTest_cases rw with ⟨htaken | htaken, -⟩ | ⟨-, -, e⟩
  · exact absurd (hact.symm.trans htaken) Bool.false_ne_true
  · exact absurd hr (ne_of_gt htaken)
  · exact e

theorem OneToken.binary (h : OneToken rw k) : rw.Binary := by
  refine ⟨le_trans (Nat.le_add_right _ _) h.le_one, fun hw => ?_⟩
  by_contra hpos
  have hoffered := h.offered (by omega)
  exact absurd hw (ne_of_gt hoffered.2.2)

/-- Without a wake-up nothing is to be shown. -/
theorem oneToken_zero (h₁ : rw.wlock = 0) (h₂ : k = 0) : OneToken rw k :=
  ⟨by omega, fun hpos => by omega⟩

/-- A lock that is taken, or that no writer waits for, has no wake-up. -/
theorem OneToken.none (h : OneToken rw k) (hnot : ¬ rw.Offered) : rw.wlock = 0 ∧ k = 0 := by
  have : ¬ 0 < rw.wlock + k := fun hpos => hnot (h.offered hpos)
  omega

theorem OneToken.rlock (h : OneToken rw k) : OneToken (rwRlock rw).1 k := by
  rcases rwRlock_cases rw with ⟨-, hwait, e⟩ | e
  · obtain ⟨h₁, h₂⟩ := h.none fun hoffered => absurd hwait (ne_of_gt hoffered.2.2)
    rw [e]
    exact oneToken_zero h₁ h₂
  · rw [e]
    exact h

theorem OneToken.runlock (h : OneToken rw k) (hc : RwCounts rw (r + 1) w a) :
    OneToken (rwRunlock rw) k := by
  have hr := hc.readers
  obtain ⟨h₁, h₂⟩ := h.none fun hoffered => absurd hoffered.2.1 (by omega)
  rw [rwRunlock]
  dsimp only
  split
  · next hlast =>
      simp only [Bool.and_eq_true, beq_iff_eq, decide_eq_true_eq] at hlast
      refine ⟨?_, fun _ => ⟨?_, hlast⟩⟩
      · show semPost rw.wlock + k ≤ 1
        rw [h₁, h₂]
        decide
      · show rw.writerActive = false
        by_contra hact
        have := hc.excl (Bool.eq_true_of_not_eq_false hact)
        omega
  · exact oneToken_zero h₁ h₂

/-- The first section of `rw_wlock`, where there was no wake-up before. -/
theorem OneToken.wlock (h : OneToken rw k) (hnot : ¬ rw.Offered) : OneToken (rwWlock rw).1 k := by
  obtain ⟨h₁, h₂⟩ := h.none hnot
  rw [rwWlock]
  rcases rwWlockTest_cases { rw with writersWaiting := rw.writersWaiting + 1 }
    with ⟨-, e⟩ | ⟨-, -, e⟩ <;> rw [e] <;> exact oneToken_zero h₁ h₂

/-- The token goes from the semaphore to the writer. -/
theorem OneToken.wake (h : OneToken rw k) {v : Nat} (hv : semWait rw.wlock = some v) :
    OneToken { rw with wlock := v } (k + 1) := by
  have hsum : v + (k + 1) = rw.wlock + k := by
    have := semWait_eq_some.1 hv
    omega
  refine ⟨?_, fun hpos => ?_⟩
  · show v + (k + 1) ≤ 1
    rw [hsum]
    exact h.le_one
  · exact h.offered (hsum ▸ hpos)

/-- A woken writer finds the lock free and uses the wake-up. -/
theorem OneToken.recheck (h : OneToken rw (k + 1)) :
    (rwWlockTest rw).2 = .writing ∧ OneToken (rwWlockTest rw).1 k := by
  have hle := h.le_one
  obtain ⟨hact, hr, -⟩ := h.offered (by omega)
  rw [rwWlockTest_free hact hr]
  exact ⟨rfl, oneToken_zero (by show rw.wlock = 0; omega) (by omega)⟩

theorem OneToken.wunlock (h : OneToken rw k) (hc : RwCounts rw r w (a + 1)) :
    OneToken (rwWunlock rw) k := by
  have hact : rw.writerActive = true := by
    by_contra hact
    have := hc.active
    rw [if_neg hact] at this
    omega
  obtain ⟨h₁, h₂⟩ := h.none fun hoffered =>
    absurd (hoffered.1.symm.trans hact) Bool.false_ne_true
  rw [rwWunlock]
  dsimp only
  split
  · next hwait =>
      refine ⟨?_, fun _ => ⟨rfl, hc.excl hact, hwait⟩⟩
      show semPost rw.wlock + k ≤ 1
      rw [h₁, h₂]
      decide
  · exact oneToken_zero h₁ h₂

/-! ### Runs in which no writer barges in -/

section Threads

variable {T : Type*} [DecidableEq T]

/-- A call of `rw_wlock` that finds the lock free although a writer waits for it. -/
inductive Barge : RwState T → RwState T → Prop
  | mk (s : RwState T) (t : T) (h : s.pc t = .idle) (hoffered : s.lock.Offered) :
      Barge s (s.move t (rwWlock s.lock))

/-- A step in which no writer barges in. -/
def Polite (s s' : RwState T) : Prop :=
  RwStep s s' ∧ ¬ Barge s s'

/-- The threads of `T` when no writer barges in. -/
def politeSystem (T : Type*) [DecidableEq T] : Transition.System (RwState T) where
  init := (rwSystem T).init
  step := Polite

theorem politeSystem_reachable {s : RwState T} (h : (politeSystem T).Reachable s) :
    (rwSystem T).Reachable s := by
  refine Transition.System.Reachable.mono ?_ ?_ h
  · intro s hinit
    exact hinit
  · rintro s s' ⟨hstep, -⟩
    exact hstep

variable [Fintype T]

/-- One wake-up at most, the woken writers counted. -/
def TokenInv (s : RwState T) : Prop :=
  OneToken s.lock (numAt (· = .woken) s.pc)

/-- The wake-ups after thread `t` has left point `q`. -/
theorem tokenInv_move {s : RwState T} {t : T} {q : RwPoint} (hq : s.pc t = q)
    (x : RwLock × RwPoint) {k : Nat}
    (hk : numAt (· = .woken) s.pc = k + if q = .woken then 1 else 0)
    (h : OneToken x.1 (k + if x.2 = .woken then 1 else 0)) : TokenInv (s.move t x) := by
  show OneToken x.1 (numAt _ (Function.update s.pc t x.2))
  rw [numAt_move _ hq hk]
  exact h

/-- The same for a thread that is not woken, before or after. -/
theorem tokenInv_stay {s : RwState T} {t : T} {q : RwPoint} (hq : s.pc t = q) (hq' : q ≠ .woken)
    {x : RwLock × RwPoint} (hx : x.2 ≠ .woken)
    (h : OneToken x.1 (numAt (· = .woken) s.pc)) : TokenInv (s.move t x) := by
  refine tokenInv_move (k := numAt (· = .woken) s.pc) hq x ?_ ?_
  · rw [if_neg hq', Nat.add_zero]
  · rw [if_neg hx, Nat.add_zero]
    exact h

theorem tokenInv_step {s s' : RwState T} (hinv : RwInv s) (h : TokenInv s) (hs : Polite s s') :
    TokenInv s' := by
  obtain ⟨hs, hpolite⟩ := hs
  cases hs with
  | rlock t ht =>
      rcases ht with ht | ht
      all_goals exact tokenInv_stay ht (by decide) (rwRlock_ne_woken s.lock) h.rlock
  | runlock t ht =>
      obtain ⟨r, hr⟩ := numAt_succ (· = RwPoint.reading) ht
      have hc : RwCounts s.lock (r + 1) _ _ := hr ▸ hinv.toRwCounts
      exact tokenInv_stay ht (by decide) (by simp) (h.runlock hc)
  | wlock t ht =>
      have hnot : ¬ s.lock.Offered := fun hoffered => hpolite (.mk s t ht hoffered)
      exact tokenInv_stay ht (by decide) (rwWlockTest_ne_woken _) (OneToken.wlock h hnot)
  | wake t v ht hv =>
      refine tokenInv_move ht _ rfl ?_
      exact OneToken.wake h hv
  | recheck t ht =>
      obtain ⟨k, hk⟩ := numAt_succ (· = RwPoint.woken) ht
      have htoken : OneToken s.lock (k + 1) := hk ▸ h
      obtain ⟨hpoint, hnext⟩ := htoken.recheck
      refine tokenInv_move ht _ hk ?_
      rw [hpoint]
      exact hnext
  | wunlock t ht =>
      obtain ⟨a, ha⟩ := numAt_succ (· = RwPoint.writing) ht
      have hc : RwCounts s.lock _ _ (a + 1) := ha ▸ hinv.toRwCounts
      exact tokenInv_stay ht (by decide) (by simp) (h.wunlock hc)

omit [DecidableEq T] in
theorem tokenInv_init : TokenInv ({ lock := rwInit, pc := fun _ => .idle } : RwState T) :=
  oneToken_zero rfl ((numAt_eq_zero _).2 fun _ => RwPoint.noConfusion)

theorem tokenInv_reachable {s : RwState T} (h : (politeSystem T).Reachable s) : TokenInv s := by
  refine h.invariant ?_ ?_
  · rintro s rfl
    exact tokenInv_init
  · intro s s' hreach hinv hstep
    exact tokenInv_step (rwInv_reachable (politeSystem_reachable hreach)) hinv hstep

/-! ### What a barging writer leaves behind -/

theorem rwWlock_offered (h : rw.Offered) :
    rwWlock rw = ({ rw with writerActive := true }, .writing) := by
  have htest : rwWlockTest { rw with writersWaiting := rw.writersWaiting + 1 } = (_, .writing) :=
    rwWlockTest_free h.1 h.2.1
  rw [rwWlock, htest, Int.add_sub_cancel]

theorem rwWunlock_wlock (hwait : 0 < rw.writersWaiting) (hv : rw.wlock ≤ 1) :
    (rwWunlock rw).wlock = rw.wlock + 1 := by
  have hmax : 1 < semValueMax := by decide
  rw [rwWunlock]
  dsimp only
  rw [if_pos hwait]
  exact semPost_of_lt (by omega)

omit [Fintype T] in
theorem Barge.lock_eq {s s' : RwState T} (h : Barge s s') :
    s.lock.Offered ∧ s'.lock = (rwWlock s.lock).1 := by
  cases h with
  | mk t ht hoffered => exact ⟨hoffered, rfl⟩

omit [Fintype T] in
theorem polite_of_taken {s s' : RwState T} (hs : RwStep s s') (h : ¬ s.lock.Offered) :
    Polite s s' :=
  ⟨hs, fun hb => h hb.lock_eq.1⟩

omit [Fintype T] in
/-- A writer inside leaves while another one waits: a wake-up is added. -/
theorem polite_wunlock {s : RwState T} {t : T} (ht : s.pc t = .writing)
    (hact : s.lock.writerActive = true) (hwait : 0 < s.lock.writersWaiting)
    (hv : s.lock.wlock ≤ 1) :
    Polite s (s.move t (rwWunlock s.lock, .idle))
      ∧ (s.move t (rwWunlock s.lock, .idle)).lock.wlock = s.lock.wlock + 1 := by
  refine ⟨polite_of_taken (.wunlock s t ht) ?_, rwWunlock_wlock hwait hv⟩
  intro hoffered
  exact absurd (hoffered.1.symm.trans hact) Bool.false_ne_true

omit [Fintype T] in
/-- A token in the semaphore beside a woken writer: that writer takes the lock, and either no
writer waits for the token any more, or a second one joins it. -/
theorem woken_breaks {s : RwState T} {u : T} (hu : s.pc u = .woken) (hoffered : s.lock.Offered)
    (hv : s.lock.wlock = 1) :
    ∃ s', Relation.ReflTransGen Polite s s' ∧ ¬ s'.lock.Binary := by
  have hwait := hoffered.2.2
  have htest := rwWlockTest_free hoffered.1 hoffered.2.1
  have hstep : Polite s (s.move u (rwWlockTest s.lock)) := by
    refine ⟨.recheck s u hu, fun hb => ?_⟩
    -- a barging call leaves the number of waiting writers as it was
    have hlock := congrArg RwLock.writersWaiting hb.lock_eq.2
    rw [rwWlock_offered hoffered] at hlock
    have hlock' : (rwWlockTest s.lock).1.writersWaiting = s.lock.writersWaiting := hlock
    rw [htest] at hlock'
    dsimp only at hlock'
    omega
  rw [htest] at hstep
  rcases eq_or_ne s.lock.writersWaiting 1 with hlast | hmore
  · refine ⟨_, .single hstep, fun hb => ?_⟩
    have hzero : s.lock.wlock = 0 := hb.2 (by show s.lock.writersWaiting - 1 = 0; omega)
    omega
  · have hwait' : 0 < s.lock.writersWaiting - 1 := by omega
    obtain ⟨hstep', hv'⟩ := polite_wunlock
      (s := s.move u ({ s.lock with writersWaiting := s.lock.writersWaiting - 1,
                                    writerActive := true }, .writing))
      (t := u) (Function.update_self ..) rfl hwait' (Nat.le_of_eq hv)
    refine ⟨_, .tail (.single hstep) hstep', fun hb => ?_⟩
    have hle : s.lock.wlock + 1 ≤ 1 := hv' ▸ hb.1
    omega

/-- After a barging call the semaphore need not stay binary: the caller leaves and posts
beside the wake-up that was under way. -/
theorem barge_breaks {s : RwState T} (hinv : RwInv s) (h : TokenInv s) {t : T}
    (ht : s.pc t = .idle) (hoffered : s.lock.Offered) :
    ∃ s', Relation.ReflTransGen Polite (s.move t (rwWlock s.lock)) s' ∧ ¬ s'.lock.Binary := by
  have hwait := hoffered.2.2
  have hone : s.lock.wlock + numAt (· = .woken) s.pc = 1 := by
    have hpos := hinv.token hoffered.2.1 hoffered.1 hwait
    have hle := h.le_one
    omega
  rw [rwWlock_offered hoffered]
  -- the caller is inside, and then it has left
  let s₁ := s.move t ({ s.lock with writerActive := true }, .writing)
  let s₂ := s₁.move t (rwWunlock s₁.lock, .idle)
  have hle : s₁.lock.wlock ≤ 1 := by
    show s.lock.wlock ≤ 1
    omega
  obtain ⟨hstep, hv⟩ := polite_wunlock (s := s₁) (Function.update_self ..) rfl hwait hle
  have hv₂ : s₂.lock.wlock = s.lock.wlock + 1 := hv
  rcases Nat.eq_zero_or_pos s.lock.wlock with hzero | hpos
  · -- the wake-up is with a woken writer, and the new one is in the semaphore
    have hwoken : 0 < numAt (· = RwPoint.woken) s.pc := by omega
    obtain ⟨u, hu⟩ := (numAt_pos _).1 hwoken
    have hne : u ≠ t := by
      rintro rfl
      rw [ht] at hu
      cases hu
    have hu₂ : s₂.pc u = .woken := by
      show Function.update (Function.update s.pc t _) t _ u = _
      rw [Function.update_of_ne hne, Function.update_of_ne hne, hu]
    have hoffered₂ : s₂.lock.Offered := by
      obtain ⟨e₁, e₂, e₃, -⟩ := rwWunlock_spec s₁.lock
      exact ⟨e₃, e₁.trans hoffered.2.1, e₂ ▸ hwait⟩
    obtain ⟨s', hrun, hb⟩ := woken_breaks hu₂ hoffered₂ (by omega)
    exact ⟨s', hrun.head hstep, hb⟩
  · refine ⟨s₂, .single hstep, fun hb => ?_⟩
    have := hb.1
    omega

/-- The writer semaphore stays binary as long as no writer barges in: it is binary in every
state that a run without barging calls reaches, and it stays so after one more step, however
the run goes on without barging calls, exactly when that step is none. -/
theorem wlock_binary_iff {s s' : RwState T} (h : (politeSystem T).Reachable s)
    (hs : RwStep s s') :
    s.lock.Binary
      ∧ ((∀ s'', Relation.ReflTransGen Polite s' s'' → s''.lock.Binary) ↔ ¬ Barge s s') := by
  have hinv := rwInv_reachable (politeSystem_reachable h)
  have htoken := tokenInv_reachable h
  refine ⟨htoken.binary, ?_, ?_⟩
  · intro hbinary hbarge
    cases hbarge with
    | mk t ht hoffered =>
        obtain ⟨s'', hrun, hnot⟩ := barge_breaks hinv htoken ht hoffered
        exact hnot (hbinary s'' hrun)
  · intro hbarge s'' hrun
    have hreach : (politeSystem T).Reachable s'' := by
      have hnext : (politeSystem T).Reachable s' := h.next ⟨hs, hbarge⟩
      obtain ⟨s₀, hinit, hrun₀⟩ := hnext
      exact ⟨s₀, hinit, hrun₀.trans hrun⟩
    exact (tokenInv_reachable hreach).binary

/-- Two writers: `false` has written and left, and the token it posted for `true` is not yet
taken. -/
def rwHandover : RwState Bool :=
  { lock := { wlock := 1, readers := 0, writersWaiting := 1, writerActive := false },
    pc := Function.update (Function.update (Function.update (fun _ => .idle) false .writing)
      true .waiting) false .idle }

theorem rwHandover_reachable : (politeSystem Bool).Reachable rwHandover := by
  have h₀ : (politeSystem Bool).Reachable { lock := rwInit, pc := fun _ => .idle } := .start rfl
  have h₁ := h₀.next (polite_of_taken (.wlock _ false rfl) (by decide))
  have h₂ := h₁.next (polite_of_taken (.wlock _ true rfl) (by decide))
  exact h₂.next (polite_of_taken (.wunlock _ false rfl) (by decide))

/-- The first writer comes back before the second one has run. -/
theorem wlock_binary_iff_handover :
    ¬ ∀ s, Relation.ReflTransGen Polite (rwHandover.move false (rwWlock rwHandover.lock)) s →
      s.lock.Binary := by
  have hidle : rwHandover.pc false = .idle := rfl
  have hoffered : rwHandover.lock.Offered := by decide
  intro hbinary
  have hiff := (wlock_binary_iff rwHandover_reachable (.wlock rwHandover false hidle)).2
  exact hiff.1 hbinary (.mk rwHandover false hidle hoffered)

/-- Two writers are enough: one that comes back and leaves again posts a second token, and
when the other has taken the lock a token is left for which no writer waits. -/
theorem wlock_not_binary :
    (∃ s, (rwSystem Bool).Reachable s ∧ s.lock.wlock = 2)
      ∧ ∃ s, (rwSystem Bool).Reachable s ∧ s.lock.writersWaiting = 0 ∧ s.lock.wlock = 1 := by
  have h₀ := politeSystem_reachable rwHandover_reachable
  have h₁ := h₀.next (.wlock rwHandover false rfl)
  have h₂ := h₁.next (.wunlock _ false rfl)
  have h₃ := h₂.next (.wake _ true 1 rfl rfl)
  have h₄ := h₃.next (.recheck _ true rfl)
  exact ⟨⟨_, h₂, rfl⟩, ⟨_, h₄, rfl, rfl⟩⟩

end Threads

end SystemsPortfolio.Sync
