/-
SystemsPortfolio/Sync/BoundedBuffer.lean

The bounded buffer of `sync_utils.c`: a ring of tray pointers under a mutex, with a
semaphore `empty` for the free slots and a semaphore `full` for the filled ones.

`bb_put` waits for `empty`, stores at the tail under the mutex and then posts `full`;
`bb_take` waits for `full`, reads at the head under the mutex and then posts `empty`.
The two waits, the two sections and the two posts are the atomic steps, so any number
of threads can stand between their wait and their section, or between their section
and their post.  The indices alone cannot tell a full ring from an empty one; what
keeps it a queue is the sum of the two semaphores and of the threads in those gaps.

The buffer refines the bounded channel of `Lib/Channel.lean`, with the window of filled
slots for its queue.
-/
import SystemsPortfolio.Lib.Threads
import SystemsPortfolio.Lib.Channel

namespace SystemsPortfolio.Sync

open Threads

/-! ### The buffer -/

variable {Tray : Type*}

/-- `bb_t`; a pointer to a tray is an `Option`, `none` for NULL, and the mutex is the
atomicity of a section. -/
structure BoundedBuffer (Tray : Type*) where
  buf : Nat → Option Tray
  cap : Nat
  head : Nat
  tail : Nat
  empty : Nat
  full : Nat

/-- `bb_init`, with the memory and the mutex it asks for granted; `none` is its -1.
`sem_init` turns down a value above the largest one. -/
def bbInit (Tray : Type*) (capacity : Int) : Option (BoundedBuffer Tray) :=
  if capacity ≤ 0 then none
  else if semValueMax < capacity then none
  else some { buf := fun _ => none, cap := capacity.toNat, head := 0, tail := 0,
              empty := capacity.toNat, full := 0 }

/-- The section of `bb_put`. -/
def bbPutSection (q : BoundedBuffer Tray) (tray : Option Tray) : BoundedBuffer Tray :=
  { q with buf := Function.update q.buf q.tail tray, tail := (q.tail + 1) % q.cap }

/-- The section of `bb_take`: the pointer read and the buffer left. -/
def bbTakeSection (q : BoundedBuffer Tray) : Option Tray × BoundedBuffer Tray :=
  (q.buf q.head, { q with head := (q.head + 1) % q.cap })

/-! ### Threads on one buffer -/

/-- Where a thread is in `bb_put` or `bb_take`. -/
inductive BbPoint
  /-- outside, or blocked in the `sem_wait` of either function -/
  | idle
  /-- in `bb_put`, past `sem_wait(&q->empty)` -/
  | gotEmpty
  /-- in `bb_put`, past the section -/
  | stored
  /-- in `bb_take`, past `sem_wait(&q->full)` -/
  | gotFull
  /-- in `bb_take`, past the section -/
  | took
  deriving DecidableEq, Repr

variable {T : Type*} [DecidableEq T]

/-- The buffer, the point and the local `tray` of every thread, and a log of the
sections: the slot and the pointer of each store and of each take. -/
structure BbState (T Tray : Type*) where
  q : BoundedBuffer Tray
  pc : T → BbPoint
  tray : T → Option Tray
  stored : List (Nat × Option Tray)
  taken : List (Nat × Option Tray)

/-- Thread `t` goes on at point `p`. -/
def BbState.goto (s : BbState T Tray) (t : T) (p : BbPoint) : BbState T Tray :=
  { s with pc := Function.update s.pc t p }

/-- Thread `t` runs the section of `bb_put`. -/
def BbState.store (s : BbState T Tray) (t : T) : BbState T Tray :=
  { s.goto t .stored with
    q := bbPutSection s.q (s.tray t)
    stored := s.stored ++ [(s.q.tail, s.tray t)] }

/-- Thread `t` runs the section of `bb_take`. -/
def BbState.fetch (s : BbState T Tray) (t : T) : BbState T Tray :=
  { s.goto t .took with
    q := (bbTakeSection s.q).2
    tray := Function.update s.tray t (bbTakeSection s.q).1
    taken := s.taken ++ [(s.q.head, (bbTakeSection s.q).1)] }

/-- One atomic step of some thread. -/
inductive BbStep : BbState T Tray → BbState T Tray → Prop
  | putWait (s : BbState T Tray) (t : T) (x : Option Tray) (v : Nat) (h : s.pc t = .idle)
      (hv : semWait s.q.empty = some v) :
      BbStep s { s.goto t .gotEmpty with
        q := { s.q with empty := v }, tray := Function.update s.tray t x }
  | putSection (s : BbState T Tray) (t : T) (h : s.pc t = .gotEmpty) :
      BbStep s (s.store t)
  | putPost (s : BbState T Tray) (t : T) (h : s.pc t = .stored) :
      BbStep s { s.goto t .idle with q := { s.q with full := semPost s.q.full } }
  | takeWait (s : BbState T Tray) (t : T) (v : Nat) (h : s.pc t = .idle)
      (hv : semWait s.q.full = some v) :
      BbStep s { s.goto t .gotFull with q := { s.q with full := v } }
  | takeSection (s : BbState T Tray) (t : T) (h : s.pc t = .gotFull) :
      BbStep s (s.fetch t)
  | takePost (s : BbState T Tray) (t : T) (h : s.pc t = .took) :
      BbStep s { s.goto t .idle with q := { s.q with empty := semPost s.q.empty } }

/-- The threads of `T` on a buffer that `bb_init` has accepted. -/
def bbSystem (T Tray : Type*) [DecidableEq T] (capacity : Int) :
    Transition.System (BbState T Tray) where
  init s := bbInit Tray capacity = some s.q ∧ (∀ t, s.pc t = .idle) ∧ s.stored = [] ∧ s.taken = []
  step := BbStep

/-! ### The books -/

/-- The buffer against the threads past each of the four gaps: `e` hold a free slot they
have not filled, `f` stored without a post yet, `g` hold a filled slot they have not
emptied, and `k` took without a post yet. -/
structure BbBook (cap : Nat) (q : BoundedBuffer Tray) (e f g k : Nat) : Prop where
  cap_eq : q.cap = cap
  pos : 0 < cap
  max : cap ≤ semValueMax
  head : q.head < cap
  tail : q.tail = (q.head + (f + q.full + g)) % cap
  slots : q.empty + e + k + (f + q.full + g) = cap

variable {cap : Nat} {q : BoundedBuffer Tray} {e f g k : Nat}

theorem bbInit_eq_some {capacity : Int} (h : bbInit Tray capacity = some q) :
    0 < capacity ∧ capacity ≤ semValueMax
      ∧ q = { buf := fun _ => none, cap := capacity.toNat, head := 0, tail := 0,
              empty := capacity.toNat, full := 0 } := by
  rw [bbInit] at h
  split at h
  · exact absurd h (by simp)
  · next hpos =>
      split at h
      · exact absurd h (by simp)
      · next hmax => exact ⟨not_le.1 hpos, not_lt.1 hmax, (Option.some.inj h).symm⟩

theorem bbBook_init {capacity : Int} (h : bbInit Tray capacity = some q) :
    BbBook capacity.toNat q 0 0 0 0 := by
  obtain ⟨hpos, hmax, rfl⟩ := bbInit_eq_some h
  have hcap : 0 < capacity.toNat := by omega
  exact ⟨rfl, hcap, by omega, hcap, (Nat.zero_mod _).symm, rfl⟩

theorem full_init {capacity : Int} (h : bbInit Tray capacity = some q) : q.full = 0 := by
  obtain ⟨-, -, rfl⟩ := bbInit_eq_some h
  rfl

theorem BbBook.putWait (h : BbBook cap q e f g k) {v : Nat} (hv : semWait q.empty = some v) :
    BbBook cap { q with empty := v } (e + 1) f g k := by
  have hs := h.slots
  rw [semWait_eq_some.1 hv] at hs
  refine ⟨h.cap_eq, h.pos, h.max, h.head, h.tail, ?_⟩
  show v + (e + 1) + k + (f + q.full + g) = cap
  omega

theorem BbBook.putSection (h : BbBook cap q (e + 1) f g k) (x : Option Tray) :
    BbBook cap (bbPutSection q x) e (f + 1) g k := by
  have hs := h.slots
  refine ⟨h.cap_eq, h.pos, h.max, h.head, ?_, ?_⟩
  · show (q.tail + 1) % q.cap = (q.head + (f + 1 + q.full + g)) % cap
    rw [h.cap_eq, h.tail, Nat.mod_add_mod]
    congr 1
    omega
  · show q.empty + e + k + (f + 1 + q.full + g) = cap
    omega

/-- A post of `full` by a producer never meets the largest value. -/
theorem BbBook.semPost_full (h : BbBook cap q e (f + 1) g k) :
    semPost q.full = q.full + 1 := by
  have hs := h.slots
  have hmax := h.max
  exact semPost_of_lt (by omega)

theorem BbBook.putPost (h : BbBook cap q e (f + 1) g k) :
    BbBook cap { q with full := semPost q.full } e f g k := by
  have hs := h.slots
  have hp := h.semPost_full
  refine ⟨h.cap_eq, h.pos, h.max, h.head, ?_, ?_⟩
  · show q.tail = (q.head + (f + semPost q.full + g)) % cap
    rw [h.tail, hp]
    congr 1
    omega
  · show q.empty + e + k + (f + semPost q.full + g) = cap
    omega

theorem BbBook.takeWait (h : BbBook cap q e f g k) {v : Nat} (hv : semWait q.full = some v) :
    BbBook cap { q with full := v } e f (g + 1) k := by
  have hs := h.slots
  have hv' := semWait_eq_some.1 hv
  refine ⟨h.cap_eq, h.pos, h.max, h.head, ?_, ?_⟩
  · show q.tail = (q.head + (f + v + (g + 1))) % cap
    rw [h.tail, hv']
    congr 1
    omega
  · show q.empty + e + k + (f + v + (g + 1)) = cap
    omega

theorem BbBook.takeSection (h : BbBook cap q e f (g + 1) k) :
    BbBook cap (bbTakeSection q).2 e f g (k + 1) := by
  have hs := h.slots
  refine ⟨h.cap_eq, h.pos, h.max, ?_, ?_, ?_⟩
  · show (q.head + 1) % q.cap < cap
    rw [h.cap_eq]
    exact Nat.mod_lt _ h.pos
  · show q.tail = ((q.head + 1) % q.cap + (f + q.full + g)) % cap
    rw [h.tail, h.cap_eq, Nat.mod_add_mod]
    congr 1
    omega
  · show q.empty + e + (k + 1) + (f + q.full + g) = cap
    omega

theorem BbBook.takePost (h : BbBook cap q e f g (k + 1)) :
    BbBook cap { q with empty := semPost q.empty } e f g k := by
  have hs := h.slots
  have hmax := h.max
  have hp : semPost q.empty = q.empty + 1 := semPost_of_lt (by omega)
  refine ⟨h.cap_eq, h.pos, h.max, h.head, h.tail, ?_⟩
  show semPost q.empty + e + k + (f + q.full + g) = cap
  omega

/-! ### The invariant -/

variable [Fintype T]

/-- The books agree with the points of the threads. -/
def BbInv (cap : Nat) (s : BbState T Tray) : Prop :=
  BbBook cap s.q (numAt (· = .gotEmpty) s.pc) (numAt (· = .stored) s.pc)
    (numAt (· = .gotFull) s.pc) (numAt (· = .took) s.pc)

variable {s s' : BbState T Tray} {t : T}

/-- The counts after thread `t` has gone from point `a` to point `b`. -/
theorem bbInv_goto {a b : BbPoint} (ha : s.pc t = a) {q' : BoundedBuffer Tray}
    (hs' : s'.pc = Function.update s.pc t b) (hq' : s'.q = q')
    (he : numAt (· = .gotEmpty) s.pc = e + if a = .gotEmpty then 1 else 0)
    (hf : numAt (· = .stored) s.pc = f + if a = .stored then 1 else 0)
    (hg : numAt (· = .gotFull) s.pc = g + if a = .gotFull then 1 else 0)
    (hk : numAt (· = .took) s.pc = k + if a = .took then 1 else 0)
    (h : BbBook cap q' (e + if b = .gotEmpty then 1 else 0) (f + if b = .stored then 1 else 0)
      (g + if b = .gotFull then 1 else 0) (k + if b = .took then 1 else 0)) :
    BbInv cap s' := by
  rw [BbInv, hs', hq', numAt_move _ ha he, numAt_move _ ha hf, numAt_move _ ha hg,
    numAt_move _ ha hk]
  exact h

theorem bbInv_step (h : BbInv cap s) (hs : BbStep s s') : BbInv cap s' := by
  cases hs with
  | putWait t x v ht hv => exact bbInv_goto ht rfl rfl rfl rfl rfl rfl (BbBook.putWait h hv)
  | putSection t ht =>
      obtain ⟨e, he⟩ := numAt_succ (· = BbPoint.gotEmpty) ht
      exact bbInv_goto ht rfl rfl he rfl rfl rfl (BbBook.putSection (he ▸ h) (s.tray t))
  | putPost t ht =>
      obtain ⟨f, hf⟩ := numAt_succ (· = BbPoint.stored) ht
      exact bbInv_goto ht rfl rfl rfl hf rfl rfl (BbBook.putPost (hf ▸ h))
  | takeWait t v ht hv => exact bbInv_goto ht rfl rfl rfl rfl rfl rfl (BbBook.takeWait h hv)
  | takeSection t ht =>
      obtain ⟨g, hg⟩ := numAt_succ (· = BbPoint.gotFull) ht
      exact bbInv_goto ht rfl rfl rfl rfl hg rfl (BbBook.takeSection (hg ▸ h))
  | takePost t ht =>
      obtain ⟨k, hk⟩ := numAt_succ (· = BbPoint.took) ht
      exact bbInv_goto ht rfl rfl rfl rfl rfl hk (BbBook.takePost (hk ▸ h))

theorem bbInv_reachable {capacity : Int} (h : (bbSystem T Tray capacity).Reachable s) :
    BbInv capacity.toNat s := by
  refine h.invariant ?_ fun _ _ _ => bbInv_step
  rintro s ⟨hinit, hidle, -, -⟩
  have hzero (p : BbPoint) (hp : p ≠ .idle) : numAt (· = p) s.pc = 0 :=
    (numAt_eq_zero _).2 fun t ht => hp (ht.symm.trans (hidle t))
  rw [BbInv, hzero _ (by decide), hzero _ (by decide), hzero _ (by decide), hzero _ (by decide)]
  exact bbBook_init hinit

/-! ### The buffer as a channel -/

/-- The number of filled slots: those a post has announced, those still to be announced
and those a consumer is about to empty. -/
def BbState.filled (s : BbState T Tray) : Nat :=
  numAt (· = .stored) s.pc + s.q.full + numAt (· = .gotFull) s.pc

/-- The channel the buffer stands for: its queue is read from the ring. -/
def BbState.channel (s : BbState T Tray) : Channel.Chan (Nat × Option Tray) :=
  ⟨Channel.window s.q.buf s.q.cap s.q.head s.filled, s.stored, s.taken⟩

omit [DecidableEq T] in
theorem channel_congr (hbuf : s'.q.buf = s.q.buf) (hcap : s'.q.cap = s.q.cap)
    (hhead : s'.q.head = s.q.head) (hfilled : s'.filled = s.filled)
    (hstored : s'.stored = s.stored) (htaken : s'.taken = s.taken) : s'.channel = s.channel := by
  rw [BbState.channel, BbState.channel, hbuf, hcap, hhead, hfilled, hstored, htaken]

/-- How the filled slots follow a thread that goes from point `a` to point `b`. -/
theorem filled_goto {a b : BbPoint} (ha : s.pc t = a) (hs' : s'.pc = Function.update s.pc t b)
    {n : Nat} (hn : n + s.q.full + (if a = .stored then 1 else 0)
        + (if a = .gotFull then 1 else 0)
      = s.filled + s'.q.full + (if b = .stored then 1 else 0)
        + (if b = .gotFull then 1 else 0)) : s'.filled = n := by
  subst ha
  have h₁ := numAt_update (· = .stored) s.pc t b
  have h₂ := numAt_update (· = .gotFull) s.pc t b
  rw [BbState.filled] at hn ⊢
  rw [hs']
  omega

omit [DecidableEq T] in
theorem BbInv.tail_eq (h : BbInv cap s) : s.q.tail = (s.q.head + s.filled) % s.q.cap := by
  rw [h.cap_eq]
  exact h.tail

omit [DecidableEq T] in
/-- A producer past its wait has a slot left for it. -/
theorem BbInv.filled_lt (h : BbInv cap s) (ht : s.pc t = .gotEmpty) : s.filled < s.q.cap := by
  obtain ⟨e, he⟩ := numAt_succ (· = BbPoint.gotEmpty) ht
  have hs := h.slots
  rw [he] at hs
  rw [h.cap_eq, BbState.filled]
  omega

omit [DecidableEq T] in
/-- A consumer past its wait has a filled slot to read. -/
theorem filled_pos (ht : s.pc t = .gotFull) : ∃ n, s.filled = n + 1 := by
  obtain ⟨g, hg⟩ := numAt_succ (· = BbPoint.gotFull) ht
  exact ⟨numAt (· = .stored) s.pc + s.q.full + g, by rw [BbState.filled, hg]; omega⟩

omit [DecidableEq T] in
theorem filled_init {capacity : Int} (hinit : bbInit Tray capacity = some s.q)
    (hidle : ∀ t, s.pc t = .idle) : s.filled = 0 := by
  have hzero (p : BbPoint) (hp : p ≠ .idle) : numAt (· = p) s.pc = 0 :=
    (numAt_eq_zero _).2 fun t ht => hp (ht.symm.trans (hidle t))
  rw [BbState.filled, hzero .stored (by decide), hzero .gotFull (by decide), full_init hinit]

/-- The section of `bb_put` stores at the back of the channel. -/
theorem channel_store (h : BbInv cap s) (ht : s.pc t = .gotEmpty) :
    Channel.Step cap s.channel (s.store t).channel := by
  have hlt := h.filled_lt ht
  have hf : (s.store t).filled = s.filled + 1 := by
    refine filled_goto ht rfl ?_
    show s.filled + 1 + s.q.full + 0 + 0 = s.filled + s.q.full + 1 + 0
    omega
  have hw : (s.store t).channel.queue = s.channel.queue ++ [(s.q.tail, s.tray t)] := by
    show Channel.window (Function.update s.q.buf s.q.tail (s.tray t)) s.q.cap s.q.head
      (s.store t).filled = _
    rw [hf, h.tail_eq, Channel.window_put hlt]
    rfl
  have he : (s.store t).channel = ⟨s.channel.queue ++ [(s.q.tail, s.tray t)],
      s.stored ++ [(s.q.tail, s.tray t)], s.taken⟩ := by
    rw [← hw]
    rfl
  rw [he]
  refine .put s.channel _ ?_
  rw [BbState.channel, Channel.window_length, ← h.cap_eq]
  exact hlt

/-- The section of `bb_take` takes the front of the channel. -/
theorem channel_fetch (h : BbInv cap s) (ht : s.pc t = .gotFull) :
    Channel.Step cap s.channel (s.fetch t).channel := by
  obtain ⟨n, hn⟩ := filled_pos ht
  have hf : (s.fetch t).filled = n := by
    refine filled_goto ht rfl ?_
    show n + s.q.full + 0 + 1 = s.filled + s.q.full + 0 + 0
    omega
  refine .take s.channel (s.q.head, s.q.buf s.q.head) (s.fetch t).channel.queue ?_
  show Channel.window s.q.buf s.q.cap s.q.head s.filled
    = _ :: Channel.window s.q.buf s.q.cap ((s.q.head + 1) % s.q.cap) (s.fetch t).filled
  rw [hn, hf, Channel.window_take (h.cap_eq ▸ h.head)]

/-- The two sections are the two ends of the channel; waits and posts do not show. -/
theorem bb_refines_channel (capacity : Int) :
    (bbSystem T Tray capacity).Refines (Channel.chan (Nat × Option Tray) capacity.toNat)
      BbState.channel where
  init := by
    rintro s ⟨hinit, hidle, hst, htk⟩
    show s.channel = ⟨[], [], []⟩
    rw [BbState.channel, filled_init hinit hidle, hst, htk]
    rfl
  step := by
    intro s s' hreach hs
    have h := bbInv_reachable hreach
    cases hs with
    | putWait t x v ht hv =>
        exact .inr (channel_congr rfl rfl rfl (filled_goto ht rfl (by rfl)) rfl rfl)
    | putSection t ht => exact .inl (channel_store h ht)
    | putPost t ht =>
        refine .inr (channel_congr rfl rfl rfl (filled_goto ht rfl ?_) rfl rfl)
        obtain ⟨f, hf⟩ := numAt_succ (· = BbPoint.stored) ht
        rw [BbInv, hf] at h
        have hp := h.semPost_full
        show s.filled + s.q.full + 1 + 0 = s.filled + semPost s.q.full + 0 + 0
        omega
    | takeWait t v ht hv =>
        refine .inr (channel_congr rfl rfl rfl (filled_goto ht rfl ?_) rfl rfl)
        have hv' := semWait_eq_some.1 hv
        show s.filled + s.q.full + 0 + 0 = s.filled + v + 0 + 1
        omega
    | takeSection t ht => exact .inl (channel_fetch h ht)
    | takePost t ht =>
        exact .inr (channel_congr rfl rfl rfl (filled_goto ht rfl (by rfl)) rfl rfl)

/-! ### First in, first out -/

omit [DecidableEq T] in
/-- The threads between a wait and the post that follows it. -/
theorem numAt_between (pc : T → BbPoint) :
    numAt (· ≠ .idle) pc = numAt (· = .gotEmpty) pc + numAt (· = .stored) pc
      + numAt (· = .gotFull) pc + numAt (· = .took) pc := by
  simp only [numAt, Finset.card_filter, ← Finset.sum_add_distrib]
  refine Finset.sum_congr rfl fun t _ => ?_
  cases pc t <;> rfl

/-- The buffer is a first-in first-out channel.  The takes are an initial part of the
stores, slot by slot; a producer about to store faces a slot no tray waits in; a consumer
about to read faces the oldest tray not taken; and the semaphores with the threads in
between always add up to the capacity. -/
theorem bb_fifo {capacity : Int} (h : (bbSystem T Tray capacity).Reachable s) :
    s.taken <+: s.stored
      ∧ s.taken.map Prod.snd <+: s.stored.map Prod.snd
      ∧ s.taken.length ≤ s.stored.length
      ∧ s.stored.length - s.taken.length ≤ s.q.cap
      ∧ (∀ t, s.pc t = .gotEmpty → ∀ x ∈ s.stored.drop s.taken.length, x.1 ≠ s.q.tail)
      ∧ (∀ t, s.pc t = .gotFull →
          (s.stored.drop s.taken.length).head? = some (s.q.head, s.q.buf s.q.head))
      ∧ s.q.empty + s.q.full + numAt (· ≠ .idle) s.pc = s.q.cap
      ∧ (s.q.cap : Int) = capacity := by
  have hinv := bbInv_reachable h
  obtain ⟨hst, hlen⟩ := Channel.stored_eq ((bb_refines_channel capacity).reachable h)
  -- what is stored and not taken is the window of the ring
  have hst' : s.stored = s.taken ++ s.channel.queue := hst
  have hpre : s.taken <+: s.stored := ⟨s.channel.queue, hst'.symm⟩
  have hdrop : s.stored.drop s.taken.length = s.channel.queue := by
    rw [hst', List.drop_left]
  refine ⟨hpre, hpre.map Prod.snd, hpre.length_le, ?_, ?_, ?_, ?_, ?_⟩
  · rw [← List.length_drop, hdrop, hinv.cap_eq]
    exact hlen
  · intro t ht x hx
    rw [hdrop] at hx
    rw [hinv.tail_eq]
    exact Channel.slot_ne_of_mem_window (hinv.filled_lt ht) hx
  · intro t ht
    obtain ⟨n, hn⟩ := filled_pos ht
    rw [hdrop, BbState.channel, hn, Channel.window_take (hinv.cap_eq ▸ hinv.head)]
    rfl
  · rw [numAt_between, hinv.cap_eq, ← hinv.slots]
    omega
  · rw [hinv.cap_eq]
    exact Int.toNat_of_nonneg (by have := hinv.pos; omega)

/-- One slot and two threads: the first is past its wait for a free slot, with tray 7. -/
def bbClaimed : BbState Bool Nat :=
  { q := { buf := fun _ => none, cap := 1, head := 0, tail := 0, empty := 0, full := 0 }
    pc := Function.update (fun _ => .idle) false .gotEmpty
    tray := Function.update (fun _ => none) false (some 7)
    stored := []
    taken := [] }

theorem bbClaimed_reachable : (bbSystem Bool Nat 1).Reachable bbClaimed := by
  refine .next (.start (s := { bbClaimed with
    q := { bbClaimed.q with empty := 1 }, pc := fun _ => .idle, tray := fun _ => none })
    ⟨rfl, fun _ => rfl, rfl, rfl⟩) ?_
  exact BbStep.putWait _ false (some 7) 0 rfl rfl

theorem bb_fifo_claimed :
    (bbClaimed.store false).stored = [(0, some 7)]
      ∧ (bbClaimed.store false).taken <+: (bbClaimed.store false).stored
      ∧ (bbClaimed.store false).q.empty + (bbClaimed.store false).q.full
          + numAt (· ≠ .idle) (bbClaimed.store false).pc = (bbClaimed.store false).q.cap :=
  have h := bb_fifo (bbClaimed_reachable.next (BbStep.putSection _ false rfl))
  ⟨rfl, h.1, h.2.2.2.2.2.2.1⟩

end SystemsPortfolio.Sync
