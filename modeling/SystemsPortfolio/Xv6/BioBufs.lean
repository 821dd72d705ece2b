/-
SystemsPortfolio/Xv6/BioBufs.lean

One buffer and the processes at it.

Every step of `BioStep` concerns one buffer: the other buffers and the places of the
processes at them stay as they are.  `BufOk` is what holds of a buffer, of the place of every
process at it, and of its membership in the queue of the driver; there is one lemma for
each way in which a step changes them.
-/
import Mathlib.Algebra.BigOperators.Ring.Finset
import SystemsPortfolio.Lib.Threads
import SystemsPortfolio.Xv6.Bio

namespace SystemsPortfolio.Xv6

open Threads

/-- The place of a process at a given buffer. -/
inductive Place
  | out
  | acquiring
  | lockSleep
  | reading
  | waiting
  | ioSleep
  | releasing
deriving DecidableEq

namespace Place

/-- One for a process that counts in `refcnt` without having the lock. -/
def pend : Place → Nat
  | acquiring | lockSleep | releasing => 1
  | _ => 0

/-- The process is in a call that needs the lock. -/
def busy : Place → Bool
  | reading | waiting | ioSleep => true
  | _ => false

/-- The process has put the buffer into the queue. -/
def inIde : Place → Bool
  | waiting | ioSleep => true
  | _ => false

theorem busy_of_inIde {p : Place} (h : p.inIde = true) : p.busy = true := by
  cases p <;> first | rfl | cases h

theorem pend_of_busy {p : Place} (h : p.busy = true) : p.pend = 0 := by
  cases p <;> first | rfl | cases h

/-- `releasesleep`. -/
def unlocked : Place → Place
  | lockSleep => acquiring
  | p => p

/-- The `wakeup` of `ideintr`. -/
def served : Place → Place
  | ioSleep => waiting
  | p => p

theorem pend_unlocked (p : Place) : p.unlocked.pend = p.pend := by cases p <;> rfl

theorem busy_unlocked (p : Place) : p.unlocked.busy = p.busy := by cases p <;> rfl

theorem pend_served (p : Place) : p.served.pend = p.pend := by cases p <;> rfl

theorem busy_served (p : Place) : p.served.busy = p.busy := by cases p <;> rfl

end Place

/-- Where a process is as seen from buffer `b`. -/
def BioProc.on {β : Type} [DecidableEq β] (b : β) : BioProc β → Place
  | .run => .out
  | .acquiring c => if c = b then .acquiring else .out
  | .lockSleep c => if c = b then .lockSleep else .out
  | .reading c => if c = b then .reading else .out
  | .waiting c => if c = b then .waiting else .out
  | .ioSleep c => if c = b then .ioSleep else .out
  | .releasing c => if c = b then .releasing else .out

variable {ι : Type}

/-- Nothing is left to do for `iderw`. -/
def Buf.done (x : Buf ι) : Bool := x.valid && !x.dirty

/-- A buffer, the processes at it, whether its contents are unmarked changes, and whether it is in
the queue. -/
structure BufOk [Fintype ι] (x : Buf ι) (w : ι → Place) (z : Bool) (q : Prop) : Prop where
  dev : x.key.1 < 2
  count : x.refcnt = (∑ u, (w u).pend) + if x.lock.isSome then 1 else 0
  dirty : x.dirty = true → x.valid = true
  busy : ∀ u, (w u).busy = true → x.lock = some u
  held : ∀ u, x.lock = some u → (w u).busy = false → x.valid = true
  lockSleep : ∀ u, w u = .lockSleep → x.lock ≠ none
  touched : z = true → x.lock ≠ none
  queued : q ↔ ∃ u, (w u).inIde = true ∧ x.done = false
  ioSleep : ∀ u, w u = .ioSleep → q

section BufOk

variable [Fintype ι] {x : Buf ι} {w : ι → Place} {z : Bool} {q : Prop} {t u : ι}

/-- The queue has a buffer only while its holder waits in `iderw`. -/
theorem BufOk.not_queued (h : BufOk x w z q) (hl : x.lock = some t)
    (ht : (w t).inIde = false) : ¬ q := by
  rw [h.queued]
  rintro ⟨u, hu, -⟩
  have hlu := h.busy u (Place.busy_of_inIde hu)
  rw [hl] at hlu
  rw [← Option.some.inj hlu, ht] at hu
  cases hu

/-- With the lock free nobody is in a call that needs it. -/
theorem BufOk.not_busy (h : BufOk x w z q) (hl : x.lock = none) (u : ι) :
    (w u).busy = false := by
  rw [← Bool.not_eq_true]
  intro hu
  rw [h.busy u hu] at hl
  cases hl

theorem BufOk.busy_unique (h : BufOk x w z q) (hl : x.lock = some t) (hu : u ≠ t) :
    (w u).busy = false := by
  rw [← Bool.not_eq_true]
  intro hb
  have hlu := h.busy u hb
  rw [hl] at hlu
  exact hu (Option.some.inj hlu).symm

/-- A buffer that nobody uses is not locked. -/
theorem BufOk.lock_none (h : BufOk x w z q) (h₀ : x.refcnt = 0) : x.lock = none := by
  have hc := h.count
  rcases hl : x.lock with - | t
  · rfl
  · rw [hl, h₀] at hc
    simp at hc

theorem BufOk.out_of_unused (h : BufOk x w z q) (h₀ : x.refcnt = 0) (u : ι) :
    w u = .out := by
  have hc := h.count
  have hle := Finset.single_le_sum (fun v _ => Nat.zero_le (w v).pend) (Finset.mem_univ u)
  have hpend : (w u).pend = 0 := by omega
  have hbusy := h.not_busy (h.lock_none h₀) u
  revert hpend hbusy
  cases w u <;> decide

theorem BufOk.refcnt_pos (h : BufOk x w z q) (hl : x.lock = some t) : 0 < x.refcnt := by
  have hc := h.count
  rw [hl] at hc
  simp at hc
  omega

/-! ### The ways in which a buffer changes -/

variable [DecidableEq ι]

/-- The sum over the processes when one of them moves. -/
theorem sum_pend (w : ι → Place) (t : ι) (p : Place) :
    (∑ u, (Function.update w t p u).pend) + (w t).pend = (∑ u, (w u).pend) + p.pend :=
  sum_update Place.pend w t p

/-- One for a locked buffer. -/
def Buf.locked (x : Buf ι) : Nat := if x.lock.isSome then 1 else 0

/-- Process `t` moves to `p` and changes the buffer, leaving alone what the others rely on. -/
theorem BufOk.change {x' : Buf ι} {p : Place} {z' : Bool} {q' : Prop} (h : BufOk x w z q)
    (hdev : x'.key.1 < 2) (hcount : x'.refcnt + (w t).pend + x.locked = x.refcnt + p.pend + x'.locked)
    (hdirty : x'.dirty = true → x'.valid = true)
    (hlock : ∀ u, u ≠ t → (x'.lock = some u ↔ x.lock = some u))
    (hvalid : ∀ u, x'.lock = some u → x.valid = true → x'.valid = true)
    (hbusy : p.busy = true → x'.lock = some t)
    (hheld : x'.lock = some t → p.busy = false → x'.valid = true)
    (hsleep : ∀ u, Function.update w t p u = .lockSleep → x'.lock ≠ none)
    (htouched : z' = true → x'.lock ≠ none)
    (hqueued : q' ↔ ∃ u, (Function.update w t p u).inIde = true ∧ x'.done = false)
    (hio : ∀ u, Function.update w t p u = .ioSleep → q') :
    BufOk x' (Function.update w t p) z' q' where
  dev := hdev
  count := by
    have hs := sum_pend w t p
    have hc : x.refcnt = (∑ u, (w u).pend) + x.locked := h.count
    show x'.refcnt = _ + x'.locked
    omega
  dirty := hdirty
  busy u hu := by
    rcases eq_or_ne u t with rfl | hut
    · rw [Function.update_self] at hu
      exact hbusy hu
    · rw [Function.update_of_ne hut] at hu
      exact (hlock u hut).mpr (h.busy u hu)
  held u hl hu := by
    rcases eq_or_ne u t with rfl | hut
    · rw [Function.update_self] at hu
      exact hheld hl hu
    · rw [Function.update_of_ne hut] at hu
      exact hvalid u hl (h.held u ((hlock u hut).mp hl) hu)
  lockSleep := hsleep
  touched := htouched
  queued := hqueued
  ioSleep := hio

theorem BufOk.sleep_update {p : Place} (h : BufOk x w z q) (hp : p ≠ .lockSleep) (u : ι)
    (hu : Function.update w t p u = .lockSleep) : x.lock ≠ none := by
  rcases eq_or_ne u t with rfl | hut
  · rw [Function.update_self] at hu
    exact absurd hu hp
  · rw [Function.update_of_ne hut] at hu
    exact h.lockSleep u hu

theorem BufOk.queued_update {p : Place} {x' : Buf ι} (h : BufOk x w z q)
    (hp : p.inIde = (w t).inIde) (hdone : x'.done = x.done) :
    q ↔ ∃ u, (Function.update w t p u).inIde = true ∧ x'.done = false := by
  rw [h.queued, hdone]
  refine exists_congr fun u => ?_
  rcases eq_or_ne u t with rfl | hut
  · rw [Function.update_self, hp]
  · rw [Function.update_of_ne hut]

theorem BufOk.io_update {p : Place} (h : BufOk x w z q) (hp : p = .ioSleep → q) (u : ι)
    (hu : Function.update w t p u = .ioSleep) : q := by
  rcases eq_or_ne u t with rfl | hut
  · rw [Function.update_self] at hu
    exact hp hu
  · rw [Function.update_of_ne hut] at hu
    exact h.ioSleep u hu

/-- `bget` finds the buffer. -/
theorem BufOk.refer (h : BufOk x w z q) (ht : w t = .out) :
    BufOk { x with refcnt := x.refcnt + 1 } (Function.update w t .acquiring) z q := by
  refine h.change h.dev ?_ h.dirty (fun _ _ => Iff.rfl) (fun _ _ => id) (fun e => by cases e)
    (fun hl _ => ?_) (h.sleep_update (fun e => by cases e)) h.touched (h.queued_update ?_ rfl)
    (h.io_update fun e => by cases e)
  · rw [ht]
    show x.refcnt + 1 + 0 + x.locked = x.refcnt + 1 + x.locked
    omega
  · exact h.held t hl (by rw [ht]; rfl)
  · rw [ht]
    rfl

/-- `bget` takes an unused buffer for another block. -/
theorem BufOk.recycle {a : BlockId} (h : BufOk x w z q) (h₀ : x.refcnt = 0) (ha : a.1 < 2) :
    BufOk { x with key := a, valid := false, dirty := false, refcnt := 1 }
      (Function.update w t .acquiring) z q := by
  have hout := h.out_of_unused h₀
  have hno (u : ι) : x.lock ≠ some u := by
    rw [h.lock_none h₀]
    exact fun e => by cases e
  have hq : ¬ q := by
    rw [h.queued]
    rintro ⟨u, hu, -⟩
    rw [hout u] at hu
    cases hu
  refine h.change ha ?_ (fun e => by cases e) (fun _ _ => Iff.rfl) (fun u hl => absurd hl (hno u))
    (fun e => by cases e) (fun hl _ => absurd hl (hno t)) (h.sleep_update (fun e => by cases e))
    h.touched (iff_of_false hq ?_) (h.io_update fun e => by cases e)
  · rw [hout t, h₀]
    rfl
  · rintro ⟨u, hu, -⟩
    rcases eq_or_ne u t with rfl | hut
    · rw [Function.update_self] at hu
      cases hu
    · rw [Function.update_of_ne hut, hout u] at hu
      cases hu

/-- `acquiresleep` gets the lock. -/
theorem BufOk.acquire (h : BufOk x w z q) (hl : x.lock = none) (ht : w t = .acquiring) :
    BufOk { x with lock := some t } (Function.update w t .reading) z q := by
  have hother {u : ι} (hu : u ≠ t) : (some t : Option ι) = some u ↔ x.lock = some u := by
    rw [hl]
    exact iff_of_false (fun e => hu (Option.some.inj e).symm) (fun e => by cases e)
  refine h.change h.dev ?_ h.dirty (fun _ hu => hother hu) (fun _ _ => id) (fun _ => rfl)
    (fun _ e => by cases e) (fun _ _ e => by cases e) (fun _ e => by cases e) (h.queued_update ?_ rfl)
    (h.io_update fun e => by cases e)
  · rw [ht, Buf.locked, hl]
    show x.refcnt + 1 + 0 = x.refcnt + 0 + 1
    omega
  · rw [ht]
    rfl

/-- A process waits for the lock. -/
theorem BufOk.lockWait (h : BufOk x w z q) (hl : x.lock ≠ none) (ht : w t = .acquiring) :
    BufOk x (Function.update w t .lockSleep) z q := by
  refine h.change h.dev ?_ h.dirty (fun _ _ => Iff.rfl) (fun _ _ => id) (fun e => by cases e)
    (fun hlt _ => h.held t hlt (by rw [ht]; rfl)) (fun _ _ => hl) h.touched (h.queued_update ?_ rfl)
    (h.io_update fun e => by cases e)
  · rw [ht]
    rfl
  · rw [ht]
    rfl

/-- A call that needs the lock ends: `bread` finds a valid buffer, or the loop of `iderw` is
left. -/
theorem BufOk.finish (h : BufOk x w z q) (ht : (w t).busy = true) (hv : x.valid = true)
    (hd : (w t).inIde = true → x.done = true) : BufOk x (Function.update w t .out) z q := by
  refine h.change h.dev ?_ h.dirty (fun _ _ => Iff.rfl) (fun _ _ => id) (fun e => by cases e)
    (fun _ _ => hv) (h.sleep_update fun e => by cases e) h.touched ?_ (h.io_update fun e => by cases e)
  · rw [Place.pend_of_busy ht]
    rfl
  · rw [h.queued]
    refine exists_congr fun u => ?_
    rcases eq_or_ne u t with rfl | hut
    · rw [Function.update_self]
      refine iff_of_false (fun hu => ?_) (fun hu => by cases hu.1)
      rw [hd hu.1] at hu
      cases hu.2
    · rw [Function.update_of_ne hut]

/-- The holder puts the buffer into the queue. -/
theorem BufOk.enqueue (h : BufOk x w z q) (hl : x.lock = some t) (hp : (w t).pend = 0)
    (hd : x.done = false) : BufOk x (Function.update w t .waiting) z True := by
  refine h.change h.dev ?_ h.dirty (fun _ _ => Iff.rfl) (fun _ _ => id) (fun _ => hl)
    (fun _ e => by cases e) (h.sleep_update fun e => by cases e) h.touched ?_ fun _ _ => trivial
  · rw [hp]
    rfl
  · refine iff_of_true trivial ⟨t, ?_, hd⟩
    rw [Function.update_self]
    rfl

/-- The loop of `iderw` goes to sleep. -/
theorem BufOk.ioWait (h : BufOk x w z q) (ht : w t = .waiting) (hd : x.done = false) :
    BufOk x (Function.update w t .ioSleep) z q := by
  have hq : q := by
    rw [h.queued]
    exact ⟨t, by rw [ht]; rfl, hd⟩
  refine h.change h.dev ?_ h.dirty (fun _ _ => Iff.rfl) (fun _ _ => id) (fun _ => ?_)
    (fun _ e => by cases e) (h.sleep_update fun e => by cases e) h.touched (h.queued_update ?_ rfl)
    fun _ _ => hq
  · rw [ht]
    rfl
  · exact h.busy t (by rw [ht]; rfl)
  · rw [ht]
    rfl

/-- The rest of `brelse`. -/
theorem BufOk.unref (h : BufOk x w z q) (ht : w t = .releasing) :
    BufOk { x with refcnt := x.refcnt - 1 } (Function.update w t .out) z q := by
  refine h.change h.dev ?_ h.dirty (fun _ _ => Iff.rfl) (fun _ _ => id) (fun e => by cases e)
    (fun hl _ => h.held t hl (by rw [ht]; rfl)) (h.sleep_update fun e => by cases e) h.touched
    (h.queued_update ?_ rfl) (h.io_update fun e => by cases e)
  · have hs := sum_pend w t .out
    have hc : x.refcnt = (∑ u, (w u).pend) + x.locked := h.count
    have h₁ : Place.releasing.pend = 1 := rfl
    have h₂ : Place.out.pend = 0 := rfl
    rw [ht] at hs ⊢
    show x.refcnt - 1 + 1 + x.locked = x.refcnt + 0 + x.locked
    omega
  · rw [ht]
    rfl

omit [DecidableEq ι] in
/-- The holder changes the contents. -/
theorem BufOk.modify {data : Block} (h : BufOk x w z q) (hl : x.lock = some t) :
    BufOk { x with data := data } w true q where
  dev := h.dev
  count := h.count
  dirty := h.dirty
  busy := h.busy
  held := h.held
  lockSleep := h.lockSleep
  touched _ e := by
    rw [show x.lock = none from e] at hl
    cases hl
  queued := h.queued
  ioSleep := h.ioSleep

omit [DecidableEq ι] in
/-- The holder marks the buffer. -/
theorem BufOk.mark (h : BufOk x w z q) (hl : x.lock = some t) (ht : (w t).busy = false) :
    BufOk { x with dirty := true } w false q where
  dev := h.dev
  count := h.count
  dirty _ := h.held t hl ht
  busy := h.busy
  held := h.held
  lockSleep := h.lockSleep
  touched e := by cases e
  queued := by
    have hide : (w t).inIde = false := by
      rw [← Bool.not_eq_true]
      intro hu
      rw [Place.busy_of_inIde hu] at ht
      cases ht
    refine iff_of_false (h.not_queued hl hide) ?_
    rintro ⟨u, hu, -⟩
    have hlu := h.busy u (Place.busy_of_inIde hu)
    rw [hl] at hlu
    rw [← Option.some.inj hlu, hide] at hu
    cases hu
  ioSleep := h.ioSleep

/-- The first part of `brelse`: the lock is free, and those who wait for it try again. -/
theorem BufOk.release (h : BufOk x w z q) (hl : x.lock = some t) (ht : w t = .out) :
    BufOk { x with lock := none } (Function.update (fun u => (w u).unlocked) t .releasing) false q := by
  have hrest {u : ι} (hu : u ≠ t) : (w u).busy = false := h.busy_unique hl hu
  have hnot (u : ι) :
      (Function.update (fun u => (w u).unlocked) t .releasing u).busy = false := by
    rcases eq_or_ne u t with rfl | hut
    · rw [Function.update_self]
      rfl
    · rw [Function.update_of_ne hut, Place.busy_unlocked, hrest hut]
  refine ⟨h.dev, ?_, h.dirty, fun u hu => ?_, (fun u hu => by cases hu), fun u hu => ?_,
    (fun e => by cases e), iff_of_false (h.not_queued hl (by rw [ht]; rfl)) ?_, fun u hu => ?_⟩
  · have hs := sum_pend (fun u => (w u).unlocked) t .releasing
    have hc := h.count
    rw [hl] at hc
    simp only [Place.pend_unlocked, ht] at hs
    have h₁ : Place.releasing.pend = 1 := rfl
    have h₂ : Place.out.pend = 0 := rfl
    simp only [Option.isSome_some, if_true] at hc
    simp only [Option.isSome_none, Bool.false_eq_true, if_false]
    omega
  · rw [hnot u] at hu
    cases hu
  · rcases eq_or_ne u t with rfl | hut
    · rw [Function.update_self] at hu
      cases hu
    · rw [Function.update_of_ne hut] at hu
      revert hu
      cases w u <;> exact fun e => by cases e
  · rintro ⟨u, hu, -⟩
    have := Place.busy_of_inIde hu
    rw [hnot u] at this
    cases this
  · have := hnot u
    rw [hu] at this
    cases this

omit [DecidableEq ι] in
/-- The interrupt handler serves the buffer. -/
theorem BufOk.serve {data : Block} (h : BufOk x w z q) :
    BufOk { x with data := data, valid := true, dirty := false } (fun u => (w u).served) z False where
  dev := h.dev
  count := by
    simp only [Place.pend_served]
    exact h.count
  dirty e := by cases e
  busy u hu := h.busy u (by rwa [Place.busy_served] at hu)
  held _ _ _ := rfl
  lockSleep u hu := by
    refine h.lockSleep u ?_
    revert hu
    cases w u <;> first | exact fun _ => rfl | exact fun e => by cases e
  touched := h.touched
  queued := by
    refine iff_of_false id ?_
    rintro ⟨u, -, hd⟩
    cases hd
  ioSleep u hu := by
    revert hu
    cases w u <;> exact fun e => by cases e

end BufOk

end SystemsPortfolio.Xv6
