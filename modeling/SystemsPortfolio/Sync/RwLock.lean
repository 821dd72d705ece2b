/-
SystemsPortfolio/Sync/RwLock.lean

The writer-priority reader-writer lock of `readers_writers.c`.

The lock is a mutex, a writer semaphore `wlock`, two counters and a flag.  Readers
spin: they take the mutex, look at the flag and the number of waiting writers, and
back off when either keeps them out.  A writer announces itself, and while the lock
is taken it drops the mutex, sleeps on `wlock` and looks again.  The last reader and
a leaving writer post `wlock` when a writer waits.

Each section under the mutex, with the post it may contain, is one step, and so is a
completed `sem_wait`.  Between its sections a writer can be overtaken by another one
that finds the lock free, and posts may pile up, so a woken writer can find the lock
taken again.  What is proved is about every interleaving of any number of threads:
the counters say how many threads are where, the lock grants what a reader-writer lock
may grant (it refines `sharedLock`), a free lock with a waiting writer always has a
wake-up on its way, and no reader gets in while a writer that has announced itself waits
or writes.
-/
import SystemsPortfolio.Lib.Threads
import SystemsPortfolio.Lib.Transition

namespace SystemsPortfolio.Sync

open Threads

/-! ### The lock -/

/-- The shared fields of `rwlock_t`; the mutex is the atomicity of a step. -/
structure RwLock where
  wlock : Nat
  readers : Int
  writersWaiting : Int
  writerActive : Bool
  deriving DecidableEq, Repr

/-- Where a thread is in its use of the lock. -/
inductive RwPoint
  /-- outside, about to call `rw_rlock` or `rw_wlock` -/
  | idle
  /-- in `rw_rlock`, asleep between two attempts -/
  | spinning
  /-- between `rw_rlock` and `rw_runlock` -/
  | reading
  /-- in `rw_wlock`, announced and in `sem_wait` -/
  | waiting
  /-- in `rw_wlock`, past `sem_wait` and about to look again -/
  | woken
  /-- between `rw_wlock` and `rw_wunlock` -/
  | writing
  deriving DecidableEq, Repr

/-- A writer that has announced itself and does not hold the lock yet. -/
def RwPoint.Announced (p : RwPoint) : Prop :=
  p = .waiting ∨ p = .woken

instance : DecidablePred RwPoint.Announced :=
  fun p => inferInstanceAs (Decidable (p = .waiting ∨ p = .woken))

/-- The fields after `rw_init`. -/
def rwInit : RwLock :=
  { wlock := 0, readers := 0, writersWaiting := 0, writerActive := false }

/-- One round of the loop of `rw_rlock`. -/
def rwRlock (rw : RwLock) : RwLock × RwPoint :=
  if !rw.writerActive && rw.writersWaiting == 0 then
    ({ rw with readers := rw.readers + 1 }, .reading)
  else (rw, .spinning)

/-- `rw_runlock`. -/
def rwRunlock (rw : RwLock) : RwLock :=
  let rw := { rw with readers := rw.readers - 1 }
  if rw.readers == 0 && decide (0 < rw.writersWaiting) then
    { rw with wlock := semPost rw.wlock }
  else rw

/-- The loop test of `rw_wlock` under the mutex: sleep, or take the lock. -/
def rwWlockTest (rw : RwLock) : RwLock × RwPoint :=
  if rw.writerActive || decide (0 < rw.readers) then (rw, .waiting)
  else
    ({ rw with writersWaiting := rw.writersWaiting - 1, writerActive := true }, .writing)

/-- The first section of `rw_wlock`: announce, then the first test of the loop. -/
def rwWlock (rw : RwLock) : RwLock × RwPoint :=
  rwWlockTest { rw with writersWaiting := rw.writersWaiting + 1 }

/-- `rw_wunlock`. -/
def rwWunlock (rw : RwLock) : RwLock :=
  let rw := { rw with writerActive := false }
  if 0 < rw.writersWaiting then { rw with wlock := semPost rw.wlock } else rw

/-! ### What a section does -/

theorem rwRlock_cases (rw : RwLock) :
    rw.writerActive = false ∧ rw.writersWaiting = 0
        ∧ rwRlock rw = ({ rw with readers := rw.readers + 1 }, .reading)
      ∨ rwRlock rw = (rw, .spinning) := by
  rw [rwRlock]
  split
  · next h =>
      simp only [Bool.and_eq_true, Bool.not_eq_true', beq_iff_eq] at h
      exact .inl ⟨h.1, h.2, rfl⟩
  · exact .inr rfl

theorem rwWlockTest_cases (rw : RwLock) :
    (rw.writerActive = true ∨ 0 < rw.readers) ∧ rwWlockTest rw = (rw, .waiting)
      ∨ rw.writerActive = false ∧ rw.readers ≤ 0
        ∧ rwWlockTest rw = ({ rw with writersWaiting := rw.writersWaiting - 1,
                                      writerActive := true }, .writing) := by
  rw [rwWlockTest]
  split
  · next h =>
      simp only [Bool.or_eq_true, decide_eq_true_eq] at h
      exact .inl ⟨h, rfl⟩
  · next h =>
      simp only [Bool.or_eq_true, decide_eq_true_eq, not_or, Bool.not_eq_true, not_lt] at h
      exact .inr ⟨h.1, h.2, rfl⟩

theorem rwWlockTest_ne_reading (rw : RwLock) : (rwWlockTest rw).2 ≠ .reading := by
  rcases rwWlockTest_cases rw with ⟨-, e⟩ | ⟨-, -, e⟩ <;> rw [e] <;> simp

/-- `rw_runlock` moves only the reader count and, when it must, posts. -/
theorem rwRunlock_spec (rw : RwLock) :
    (rwRunlock rw).readers = rw.readers - 1
      ∧ (rwRunlock rw).writersWaiting = rw.writersWaiting
      ∧ (rwRunlock rw).writerActive = rw.writerActive
      ∧ (rw.readers = 1 → 0 < rw.writersWaiting → 0 < (rwRunlock rw).wlock) := by
  rw [rwRunlock]
  dsimp only
  split
  · exact ⟨rfl, rfl, rfl, fun _ _ => semPost_pos rw.wlock⟩
  · next h =>
      refine ⟨rfl, rfl, rfl, fun h₁ h₂ => absurd ?_ h⟩
      simp only [Bool.and_eq_true, beq_iff_eq, decide_eq_true_eq]
      exact ⟨by omega, h₂⟩

/-- `rw_wunlock` clears the flag and, when a writer waits, posts. -/
theorem rwWunlock_spec (rw : RwLock) :
    (rwWunlock rw).readers = rw.readers
      ∧ (rwWunlock rw).writersWaiting = rw.writersWaiting
      ∧ (rwWunlock rw).writerActive = false
      ∧ (0 < rw.writersWaiting → 0 < (rwWunlock rw).wlock) := by
  rw [rwWunlock]
  dsimp only
  split
  · exact ⟨rfl, rfl, rfl, fun _ => semPost_pos rw.wlock⟩
  · next h => exact ⟨rfl, rfl, rfl, fun h' => absurd h' h⟩

/-! ### The books -/

/-- The fields of the lock against `r` readers inside, `w` announced writers and `a`
writers inside. -/
structure RwCounts (rw : RwLock) (r w a : Nat) : Prop where
  readers : rw.readers = r
  waiting : rw.writersWaiting = w
  active : a = if rw.writerActive then 1 else 0
  excl : rw.writerActive = true → rw.readers = 0

/-- The counts, and a wake-up for a free lock that a writer waits for: in the
semaphore, or with one of the `k` writers that are past their `sem_wait`. -/
structure RwBook (rw : RwLock) (r w a k : Nat) : Prop extends RwCounts rw r w a where
  token : rw.readers = 0 → rw.writerActive = false → 0 < rw.writersWaiting → 0 < rw.wlock + k

variable {rw : RwLock} {r w a k : Nat}

theorem rwBook_init : RwBook rwInit 0 0 0 0 :=
  ⟨⟨rfl, rfl, rfl, fun _ => rfl⟩, fun _ _ h => absurd h (by decide)⟩

theorem RwBook.rlock (h : RwBook rw r w a k) :
    RwBook (rwRlock rw).1 (r + if (rwRlock rw).2 = .reading then 1 else 0) w a k := by
  rcases rwRlock_cases rw with ⟨h₁, h₂, e⟩ | e
  · rw [e, if_pos rfl]
    refine ⟨⟨?_, h.waiting, h.active, ?_⟩, ?_⟩
    · show rw.readers + 1 = _
      rw [h.readers]
      rfl
    · intro hact
      exact absurd (h₁.symm.trans hact) Bool.false_ne_true
    · -- no writer waits, so no wake-up is owed
      intro _ _ hpos
      exact absurd h₂ (ne_of_gt hpos)
  · simp only [e, reduceCtorEq, if_false]
    exact h

theorem RwBook.runlock (h : RwBook rw (r + 1) w a k) : RwBook (rwRunlock rw) r w a k := by
  obtain ⟨e₁, e₂, e₃, e₄⟩ := rwRunlock_spec rw
  have hr := h.readers
  refine ⟨⟨?_, ?_, ?_, ?_⟩, ?_⟩
  · omega
  · rw [e₂, h.waiting]
  · rw [e₃]
    exact h.active
  · intro hact
    have := h.excl (e₃ ▸ hact)
    omega
  · intro h0 _ hpos
    exact Nat.add_pos_left (e₄ (by omega) (e₂ ▸ hpos)) k

/-- The loop test of `rw_wlock` by an announced writer.  It needs no wake-up: the
writer sleeps only on a lock that is taken. -/
theorem RwCounts.test (h : RwCounts rw r (w + 1) a) :
    RwBook (rwWlockTest rw).1 r (w + if (rwWlockTest rw).2.Announced then 1 else 0)
      (a + if (rwWlockTest rw).2 = .writing then 1 else 0) k := by
  rcases rwWlockTest_cases rw with ⟨htaken, e⟩ | ⟨hact, hr, e⟩
  · rw [e]
    dsimp only
    rw [if_pos (by decide), if_neg (by decide)]
    refine ⟨h, fun h0 hna _ => ?_⟩
    rcases htaken with hact | hpos
    · exact absurd (hna.symm.trans hact) Bool.false_ne_true
    · exact absurd h0 (ne_of_gt hpos)
  · rw [e]
    dsimp only
    rw [if_neg (by decide), if_pos rfl]
    have hw := h.waiting
    refine ⟨⟨h.readers, ?_, ?_, ?_⟩, fun _ hna _ => absurd hna (by simp)⟩
    · show rw.writersWaiting - 1 = _
      omega
    · rw [h.active, hact]
      rfl
    · intro _
      have := h.readers
      show rw.readers = 0
      omega

theorem RwBook.wlock (h : RwBook rw r w a k) :
    RwBook (rwWlock rw).1 r (w + if (rwWlock rw).2.Announced then 1 else 0)
      (a + if (rwWlock rw).2 = .writing then 1 else 0) k := by
  have hc : RwCounts { rw with writersWaiting := rw.writersWaiting + 1 } r (w + 1) a := by
    refine ⟨h.readers, ?_, h.active, h.excl⟩
    show rw.writersWaiting + 1 = _
    rw [h.waiting]
    rfl
  exact hc.test

/-- The writer that took the token carries the wake-up from here on. -/
theorem RwBook.wake (h : RwBook rw r w a k) (v : Nat) :
    RwBook { rw with wlock := v } r w a (k + 1) :=
  ⟨⟨h.readers, h.waiting, h.active, h.excl⟩, fun _ _ _ => Nat.succ_pos _⟩

theorem RwBook.wunlock (h : RwBook rw r w (a + 1) k) : RwBook (rwWunlock rw) r w a k := by
  obtain ⟨e₁, e₂, e₃, e₄⟩ := rwWunlock_spec rw
  have ha := h.active
  refine ⟨⟨?_, ?_, ?_, ?_⟩, ?_⟩
  · rw [e₁, h.readers]
  · rw [e₂, h.waiting]
  · rw [e₃, if_neg Bool.false_ne_true]
    split at ha <;> omega
  · intro hact
    exact absurd (e₃.symm.trans hact) Bool.false_ne_true
  · intro _ _ hpos
    exact Nat.add_pos_left (e₄ (e₂ ▸ hpos)) k

/-! ### Threads on one lock -/

section Threads

variable {T : Type*} [DecidableEq T]

/-- The lock and the point of every thread. -/
structure RwState (T : Type*) where
  lock : RwLock
  pc : T → RwPoint

/-- Thread `t` leaves its section with these fields and goes on at this point. -/
def RwState.move (s : RwState T) (t : T) (r : RwLock × RwPoint) : RwState T :=
  { lock := r.1, pc := Function.update s.pc t r.2 }

/-- One atomic step of some thread. -/
inductive RwStep : RwState T → RwState T → Prop
  | rlock (s : RwState T) (t : T) (h : s.pc t = .idle ∨ s.pc t = .spinning) :
      RwStep s (s.move t (rwRlock s.lock))
  | runlock (s : RwState T) (t : T) (h : s.pc t = .reading) :
      RwStep s (s.move t (rwRunlock s.lock, .idle))
  | wlock (s : RwState T) (t : T) (h : s.pc t = .idle) :
      RwStep s (s.move t (rwWlock s.lock))
  | wake (s : RwState T) (t : T) (v : Nat) (h : s.pc t = .waiting)
      (hv : semWait s.lock.wlock = some v) :
      RwStep s (s.move t ({ s.lock with wlock := v }, .woken))
  | recheck (s : RwState T) (t : T) (h : s.pc t = .woken) :
      RwStep s (s.move t (rwWlockTest s.lock))
  | wunlock (s : RwState T) (t : T) (h : s.pc t = .writing) :
      RwStep s (s.move t (rwWunlock s.lock, .idle))

/-- The threads of `T` on a lock that `rw_init` has just set up. -/
def rwSystem (T : Type*) [DecidableEq T] : Transition.System (RwState T) where
  init s := s = { lock := rwInit, pc := fun _ => .idle }
  step := RwStep

/-! ### The invariant -/

section Counted

variable [Fintype T]

/-- The books agree with the points of the threads. -/
def RwInv (s : RwState T) : Prop :=
  RwBook s.lock (numAt (· = .reading) s.pc) (numAt RwPoint.Announced s.pc)
    (numAt (· = .writing) s.pc) (numAt (· = .woken) s.pc)

omit [DecidableEq T] in
theorem rwInv_init : RwInv ({ lock := rwInit, pc := fun _ => .idle } : RwState T) := by
  have hzero (p : RwPoint → Prop) [DecidablePred p] (hp : ¬ p .idle) :
      numAt p (fun _ : T => RwPoint.idle) = 0 :=
    (numAt_eq_zero p).2 fun _ => hp
  show RwBook rwInit (numAt _ _) (numAt _ _) (numAt _ _) (numAt _ _)
  rw [hzero (· = .reading) (by decide), hzero RwPoint.Announced (by decide),
    hzero (· = .writing) (by decide), hzero (· = .woken) (by decide)]
  exact rwBook_init

/-- The counts after thread `t` has left point `q`. -/
theorem rwInv_move {s : RwState T} {t : T} {q : RwPoint} (hq : s.pc t = q)
    (x : RwLock × RwPoint) {r w a k : Nat}
    (hr : numAt (· = .reading) s.pc = r + if q = .reading then 1 else 0)
    (hw : numAt RwPoint.Announced s.pc = w + if q.Announced then 1 else 0)
    (ha : numAt (· = .writing) s.pc = a + if q = .writing then 1 else 0)
    (hk : numAt (· = .woken) s.pc = k + if q = .woken then 1 else 0)
    (h : RwBook x.1 (r + if x.2 = .reading then 1 else 0) (w + if x.2.Announced then 1 else 0)
      (a + if x.2 = .writing then 1 else 0) (k + if x.2 = .woken then 1 else 0)) :
    RwInv (s.move t x) := by
  show RwBook x.1 (numAt _ (Function.update s.pc t x.2)) (numAt _ (Function.update s.pc t x.2))
    (numAt _ (Function.update s.pc t x.2)) (numAt _ (Function.update s.pc t x.2))
  rw [numAt_move _ hq hr, numAt_move _ hq hw, numAt_move _ hq ha, numAt_move _ hq hk]
  exact h

theorem rwInv_step {s s' : RwState T} (h : RwInv s) (hs : RwStep s s') : RwInv s' := by
  cases hs with
  | rlock t ht =>
      -- neither point a reader tries from is counted
      rcases ht with ht | ht <;> refine rwInv_move ht _ rfl rfl rfl rfl ?_
      all_goals
        have hb := h.rlock
        rcases rwRlock_cases s.lock with ⟨-, -, e⟩ | e <;> rw [e] at hb ⊢ <;> exact hb
  | runlock t ht =>
      obtain ⟨r, hr⟩ := numAt_succ (· = RwPoint.reading) ht
      refine rwInv_move ht _ hr rfl rfl rfl ?_
      exact RwBook.runlock (hr ▸ h)
  | wlock t ht =>
      refine rwInv_move ht _ rfl rfl rfl rfl ?_
      have hb := h.wlock
      rw [rwWlock] at hb ⊢
      rcases rwWlockTest_cases { s.lock with writersWaiting := s.lock.writersWaiting + 1 }
        with ⟨-, e⟩ | ⟨-, -, e⟩ <;> rw [e] at hb ⊢ <;> exact hb
  | wake t v ht hv =>
      obtain ⟨w, hw⟩ := numAt_succ RwPoint.Announced (.inl ht)
      refine rwInv_move ht _ rfl hw rfl rfl ?_
      exact RwBook.wake (hw ▸ h) v
  | recheck t ht =>
      obtain ⟨w, hw⟩ := numAt_succ RwPoint.Announced (.inr ht)
      obtain ⟨k, hk⟩ := numAt_succ (· = RwPoint.woken) ht
      refine rwInv_move ht _ rfl hw rfl hk ?_
      have hc : RwCounts s.lock _ (w + 1) _ := hw ▸ h.toRwCounts
      have hb := hc.test (k := k)
      rcases rwWlockTest_cases s.lock with ⟨-, e⟩ | ⟨-, -, e⟩ <;> rw [e] at hb ⊢ <;> exact hb
  | wunlock t ht =>
      obtain ⟨a, ha⟩ := numAt_succ (· = RwPoint.writing) ht
      refine rwInv_move ht _ rfl rfl ha rfl ?_
      exact RwBook.wunlock (ha ▸ h)

/-- The books are right in every reachable state. -/
theorem rwInv_reachable {s : RwState T} (h : (rwSystem T).Reachable s) : RwInv s := by
  refine h.invariant ?_ fun _ _ _ => rwInv_step
  rintro s rfl
  exact rwInv_init

end Counted

/-! ### What the lock is for -/

/-- What a holder may do. -/
inductive Access
  | read
  | write
  deriving DecidableEq, Repr

/-- The grants and returns of a reader-writer lock, from the holders alone. -/
inductive Grant : (T → Option Access) → (T → Option Access) → Prop
  | read (g : T → Option Access) (t : T) (h : ∀ u, g u ≠ some .write) :
      Grant g (Function.update g t (some .read))
  | write (g : T → Option Access) (t : T) (h : ∀ u, g u = none) :
      Grant g (Function.update g t (some .write))
  | release (g : T → Option Access) (t : T) :
      Grant g (Function.update g t none)

/-- The reader-writer lock as its users see it. -/
def sharedLock (T : Type*) [DecidableEq T] : Transition.System (T → Option Access) where
  init g := g = fun _ => none
  step := Grant

/-- A writer is alone. -/
theorem sharedLock_exclusive {g : T → Option Access} (h : (sharedLock T).Reachable g) {t u : T}
    (ht : g t = some .write) (hne : u ≠ t) : g u = none := by
  refine h.invariant (P := fun g => ∀ t u, g t = some .write → u ≠ t → g u = none)
    ?_ ?_ t u ht hne
  · rintro g rfl t u ht
    exact absurd ht (by simp)
  · intro g g' _ ih hs t u ht hne
    cases hs with
    | read v hv =>
        -- there was no writer, and `v` is none
        rcases eq_or_ne t v with rfl | htv
        · exact absurd ht (by simp)
        · rw [Function.update_of_ne htv] at ht
          exact absurd ht (hv t)
    | write v hv =>
        rcases eq_or_ne t v with rfl | htv
        · rw [Function.update_of_ne hne]
          exact hv u
        · rw [Function.update_of_ne htv, hv t] at ht
          exact absurd ht (by simp)
    | release v =>
        rcases eq_or_ne u v with rfl | huv
        · exact Function.update_self ..
        · rcases eq_or_ne t v with rfl | htv
          · exact absurd ht (by simp)
          · rw [Function.update_of_ne htv] at ht
            rw [Function.update_of_ne huv]
            exact ih t u ht hne

/-- What a thread at this point holds. -/
def RwPoint.access : RwPoint → Option Access
  | .reading => some .read
  | .writing => some .write
  | _ => none

/-- The holders of the lock. -/
def RwState.holders (s : RwState T) : T → Option Access :=
  fun t => (s.pc t).access

theorem holders_move (s : RwState T) (t : T) (x : RwLock × RwPoint) :
    (s.move t x).holders = Function.update s.holders t x.2.access :=
  Function.comp_update RwPoint.access s.pc t x.2

theorem holders_move_of_eq {s : RwState T} {t : T} {x : RwLock × RwPoint}
    (h : x.2.access = (s.pc t).access) : (s.move t x).holders = s.holders := by
  rw [holders_move, h]
  exact Function.update_eq_self t s.holders

variable [Fintype T]

omit [DecidableEq T] in
/-- The flag is down exactly when no thread holds the lock for writing. -/
theorem RwInv.no_writer {s : RwState T} (h : RwInv s) (hact : s.lock.writerActive = false)
    (t : T) : s.pc t ≠ .writing := by
  have ha := h.active
  rw [hact] at ha
  exact (numAt_eq_zero _).1 ha t

omit [DecidableEq T] in
theorem RwInv.no_reader {s : RwState T} (h : RwInv s) (hr : s.lock.readers ≤ 0) (t : T) :
    s.pc t ≠ .reading := by
  have hzero : numAt (· = .reading) s.pc = 0 := by
    have := h.readers
    omega
  exact (numAt_eq_zero _).1 hzero t

theorem access_eq_write {p : RwPoint} : p.access = some .write ↔ p = .writing := by
  cases p <;> decide

theorem access_eq_none {p : RwPoint} : p.access = none ↔ p ≠ .reading ∧ p ≠ .writing := by
  cases p <;> decide

/-- The loop test of `rw_wlock` grants a write only on a free lock. -/
theorem grant_test {s : RwState T} (rw : RwLock) (h : RwInv s)
    (hact : rw.writerActive = s.lock.writerActive) (hr : rw.readers = s.lock.readers) {t : T}
    (ht : (s.pc t).access = none) :
    Grant s.holders (s.move t (rwWlockTest rw)).holders
      ∨ (s.move t (rwWlockTest rw)).holders = s.holders := by
  rcases rwWlockTest_cases rw with ⟨-, e⟩ | ⟨h₁, h₂, e⟩
  · rw [e]
    exact .inr (holders_move_of_eq ht.symm)
  · rw [e, holders_move]
    refine .inl (.write s.holders t fun u => access_eq_none.2 ⟨?_, ?_⟩)
    · exact h.no_reader (hr ▸ h₂) u
    · exact h.no_writer (hact ▸ h₁) u

/-- Every step of the code is a grant, a return, or changes no holder. -/
theorem rw_refines_sharedLock : (rwSystem T).Refines (sharedLock T) RwState.holders where
  init := by
    rintro s rfl
    rfl
  step := by
    intro s s' hreach hs
    have h := rwInv_reachable hreach
    cases hs with
    | rlock t ht =>
        have hnone : (s.pc t).access = none := by
          rcases ht with ht | ht <;> rw [ht] <;> rfl
        rcases rwRlock_cases s.lock with ⟨hact, -, e⟩ | e
        · rw [e, holders_move]
          exact .inl (.read s.holders t fun u hu => h.no_writer hact u (access_eq_write.1 hu))
        · rw [e]
          exact .inr (holders_move_of_eq hnone.symm)
    | runlock t ht =>
        rw [holders_move]
        exact .inl (.release s.holders t)
    | wlock t ht =>
        exact grant_test { s.lock with writersWaiting := s.lock.writersWaiting + 1 } h rfl rfl (by rw [ht]; rfl)
    | wake t v ht hv => exact .inr (holders_move_of_eq (by rw [ht]; rfl))
    | recheck t ht => exact grant_test s.lock h rfl rfl (by rw [ht]; rfl)
    | wunlock t ht =>
        rw [holders_move]
        exact .inl (.release s.holders t)

/-! ### Mutual exclusion -/

/-- Writers exclude each other and the readers, and the three fields count exactly the
threads they stand for. -/
theorem rw_mutual_exclusion {s : RwState T} (h : (rwSystem T).Reachable s) :
    (∀ t u, s.pc t = .writing → s.pc u = .writing → t = u)
      ∧ (∀ t u, s.pc t = .writing → s.pc u ≠ .reading)
      ∧ s.lock.readers = numAt (· = .reading) s.pc
      ∧ 0 ≤ s.lock.readers
      ∧ (s.lock.writerActive = true ↔ ∃ t, s.pc t = .writing)
      ∧ s.lock.writersWaiting = numAt RwPoint.Announced s.pc := by
  have hinv := rwInv_reachable h
  have hholders := rw_refines_sharedLock.reachable h
  refine ⟨?_, ?_, hinv.readers, ?_, ?_, hinv.waiting⟩
  · intro t u ht hu
    by_contra hne
    have := sharedLock_exclusive hholders (access_eq_write.2 ht) (Ne.symm hne)
    exact (access_eq_none.1 this).2 hu
  · intro t u ht hu
    have hne : u ≠ t := by
      rintro rfl
      rw [ht] at hu
      exact RwPoint.noConfusion hu
    exact (access_eq_none.1 (sharedLock_exclusive hholders (access_eq_write.2 ht) hne)).1 hu
  · rw [hinv.readers]
    exact Int.natCast_nonneg _
  · have ha := hinv.active
    rw [← numAt_pos (· = RwPoint.writing), ha]
    cases s.lock.writerActive <;> decide

/-- Two threads: the first reads, the second has announced a write and sleeps. -/
def rwContended : RwState Bool :=
  { lock := { wlock := 0, readers := 1, writersWaiting := 1, writerActive := false },
    pc := Function.update (Function.update (fun _ => .idle) false .reading) true .waiting }

theorem rwContended_reachable : (rwSystem Bool).Reachable rwContended := by
  refine .next (.next (.start rfl) (RwStep.rlock _ false (.inl rfl))) ?_
  exact RwStep.wlock _ true (by decide)

theorem rw_mutual_exclusion_contended :
    rwContended.lock.readers = numAt (· = .reading) rwContended.pc
      ∧ rwContended.lock.writersWaiting = numAt RwPoint.Announced rwContended.pc :=
  have h := rw_mutual_exclusion rwContended_reachable
  ⟨h.2.2.1, h.2.2.2.2.2⟩

/-! ### Wake-ups -/

/-- A free lock that writers wait for has a wake-up under way: a token in `wlock`, or a
writer past its `sem_wait`. -/
theorem rw_no_lost_wakeup {s : RwState T} (h : (rwSystem T).Reachable s)
    (hfree : ∀ t, s.pc t ≠ .reading ∧ s.pc t ≠ .writing)
    (hwait : ∃ t, (s.pc t).Announced) :
    (0 < s.lock.wlock ∨ ∃ t, s.pc t = .woken)
      ∧ ¬ ((∀ t, (s.pc t).Announced → s.pc t = .waiting) ∧ s.lock.wlock = 0) := by
  have hinv := rwInv_reachable h
  -- by the counters, nobody inside means `readers = 0` and no active writer
  have hr : s.lock.readers = 0 := by
    rw [hinv.readers, (numAt_eq_zero (· = RwPoint.reading)).2 fun t => (hfree t).1]
    rfl
  have ha : s.lock.writerActive = false := by
    have hact := hinv.active
    rw [(numAt_eq_zero (· = RwPoint.writing)).2 fun t => (hfree t).2] at hact
    cases e : s.lock.writerActive
    · rfl
    · rw [e] at hact
      exact absurd hact (by decide)
  have hw : 0 < s.lock.writersWaiting := by
    rw [hinv.waiting]
    exact Int.natCast_pos.2 ((numAt_pos _).2 hwait)
  have htok : 0 < s.lock.wlock ∨ ∃ t, s.pc t = .woken := by
    rcases Nat.add_pos_iff_pos_or_pos.1 (hinv.token hr ha hw) with hpos | hpos
    · exact .inl hpos
    · exact .inr ((numAt_pos (· = RwPoint.woken)).1 hpos)
  refine ⟨htok, fun ⟨hblocked, hzero⟩ => ?_⟩
  rcases htok with hpos | ⟨t, ht⟩
  · exact absurd hzero (Nat.ne_of_gt hpos)
  · have := hblocked t (.inr ht)
    rw [ht] at this
    exact RwPoint.noConfusion this

/-- The reader of `rwContended` leaves: the lock is free and the writer still sleeps. -/
theorem rw_no_lost_wakeup_contended :
    0 < (rwContended.move false (rwRunlock rwContended.lock, .idle)).lock.wlock
      ∨ ∃ t, (rwContended.move false (rwRunlock rwContended.lock, .idle)).pc t = .woken :=
  (rw_no_lost_wakeup (rwContended_reachable.next (RwStep.runlock _ false (by decide)))
    (by decide) ⟨true, by decide⟩).1

/-! ### Writer priority -/

/-- While some writer waits, no step makes a thread a reader. -/
theorem reading_of_step {s s' : RwState T} (h : (rwSystem T).Reachable s) {w : T}
    (hw : (s.pc w).Announced) (hs : RwStep s s') {t : T} (ht : s'.pc t = .reading) :
    s.pc t = .reading := by
  have hinv := rwInv_reachable h
  have hwait : s.lock.writersWaiting ≠ 0 := by
    obtain ⟨n, hn⟩ := numAt_succ RwPoint.Announced hw
    rw [hinv.waiting, hn]
    exact Int.natCast_ne_zero.2 (Nat.succ_ne_zero n)
  -- a thread that did not move is where it was, and only `rw_rlock` could lead to `reading`
  have hmove {u : T} {x : RwLock × RwPoint} (ht : (s.move u x).pc t = .reading)
      (hx : x.2 ≠ .reading) : s.pc t = .reading := by
    rcases eq_or_ne t u with rfl | hne
    · exact absurd ((Function.update_self ..).symm.trans ht) hx
    · exact (Function.update_of_ne hne ..).symm.trans ht
  cases hs with
  | rlock u hu =>
      rcases rwRlock_cases s.lock with ⟨-, h0, -⟩ | e
      · exact absurd h0 hwait
      · rw [e] at ht
        exact hmove ht (by simp)
  | runlock u hu | wake u v hu hv | wunlock u hu => exact hmove ht (by simp)
  | wlock u hu => exact hmove ht (rwWlockTest_ne_reading _)
  | recheck u hu => exact hmove ht (rwWlockTest_ne_reading _)

/-- From the step in which writer `w` announces itself up to the step in which it takes
the lock, whatever the other threads do, the readers inside only become fewer. -/
theorem rw_writer_priority {s s₁ s₂ : RwState T} {w : T} (h : (rwSystem T).Reachable s)
    (hw : s.pc w = .idle)
    (h₁ : (rwSystem T).While (fun u => (u.pc w).Announced) (s.move w (rwWlock s.lock)) s₁)
    (h₂ : (rwSystem T).While (fun u => (u.pc w).Announced) s₁ s₂) :
    (∀ t, (s.move w (rwWlock s.lock)).pc t = .reading → s.pc t = .reading)
      ∧ ∀ t, s₂.pc t = .reading → s₁.pc t = .reading := by
  refine ⟨fun t ht => ?_, ?_⟩
  · rcases eq_or_ne t w with rfl | hne
    · exact absurd ((Function.update_self ..).symm.trans ht) (rwWlockTest_ne_reading _)
    · exact (Function.update_of_ne hne ..).symm.trans ht
  · have hreach := (h.next (RwStep.wlock s w hw)).while h₁
    refine h₂.relates (R := fun u v => ∀ t, v.pc t = .reading → u.pc t = .reading) ?_ ?_ ?_ hreach
    · intro u t ht
      exact ht
    · intro u v x huv hvx t ht
      exact huv t (hvx t ht)
    · intro u v hu hann hstep t ht
      exact reading_of_step hu hann hstep ht

/-- One thread reads when the other announces its write, and leaves while it waits. -/
theorem rw_writer_priority_contended : rwContended.pc false = .reading
    ∧ ∀ t, (rwContended.move false (rwRunlock rwContended.lock, .idle)).pc t = .reading →
      rwContended.pc t = .reading := by
  refine ⟨by decide, ?_⟩
  exact (rw_writer_priority
    (s := (⟨rwInit, fun _ => .idle⟩ : RwState Bool).move false (rwRlock rwInit))
    (.next (.start rfl) (RwStep.rlock _ false (.inl rfl))) (w := true) (by decide) .refl
    (.single ⟨.inl (by decide), RwStep.runlock _ false (by decide)⟩)).2

end Threads

end SystemsPortfolio.Sync
