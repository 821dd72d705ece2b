/-
SystemsPortfolio/Sync/Snacks.lean

The threads of `snacks_run` (`bounded_buffer.c`) around the bounded buffer.

The main thread initialises the buffer, starts the cooks and the attendees, joins the
attendees one after the other and destroys the buffer.  An attendee takes its trays and
ends; a cook puts trays for ever and is never joined.  `bb_destroy` assumes that nobody
uses the buffer any more.  For the attendees this is so: a thread that has been joined
takes no further step.  A cook can stand anywhere in `bb_put` when the buffer goes, and
with one cook there is always a run in which it stands between its `sem_wait` and its
section.

The spawns are not steps of their own: a thread that has not been started yet is one
that has not moved yet.
-/
import SystemsPortfolio.Sync.BoundedBuffer
import Mathlib.Algebra.BigOperators.Group.Finset.Basic
import Mathlib.Algebra.Order.BigOperators.Group.Finset

namespace SystemsPortfolio.Sync

open Threads

variable {Tray : Type*} {m n : Nat}

/-! ### Puts and takes of one thread -/

section One

variable {T : Type*} [DecidableEq T]

/-- A step of `bb_put` by thread `t`. -/
inductive BbPut (t : T) : BbState T Tray → BbState T Tray → Prop
  | wait (s : BbState T Tray) (x : Option Tray) (v : Nat) (h : s.pc t = .idle)
      (hv : semWait s.q.empty = some v) :
      BbPut t s { s.goto t .gotEmpty with
        q := { s.q with empty := v }, tray := Function.update s.tray t x }
  | putSection (s : BbState T Tray) (h : s.pc t = .gotEmpty) : BbPut t s (s.store t)
  | post (s : BbState T Tray) (h : s.pc t = .stored) :
      BbPut t s { s.goto t .idle with q := { s.q with full := semPost s.q.full } }

/-- A step of `bb_take` by thread `t`. -/
inductive BbTake (t : T) : BbState T Tray → BbState T Tray → Prop
  | wait (s : BbState T Tray) (v : Nat) (h : s.pc t = .idle)
      (hv : semWait s.q.full = some v) :
      BbTake t s { s.goto t .gotFull with q := { s.q with full := v } }
  | takeSection (s : BbState T Tray) (h : s.pc t = .gotFull) : BbTake t s (s.fetch t)
  | post (s : BbState T Tray) (h : s.pc t = .took) :
      BbTake t s { s.goto t .idle with q := { s.q with empty := semPost s.q.empty } }

variable {s s' : BbState T Tray} {t : T}

/-- They are the steps of the buffer, one thread at a time. -/
theorem bbStep_iff : BbStep s s' ↔ ∃ t, BbPut t s s' ∨ BbTake t s s' := by
  constructor
  · intro h
    cases h with
    | putWait t x v ht hv => exact ⟨t, .inl (.wait s x v ht hv)⟩
    | putSection t ht => exact ⟨t, .inl (.putSection s ht)⟩
    | putPost t ht => exact ⟨t, .inl (.post s ht)⟩
    | takeWait t v ht hv => exact ⟨t, .inr (.wait s v ht hv)⟩
    | takeSection t ht => exact ⟨t, .inr (.takeSection s ht)⟩
    | takePost t ht => exact ⟨t, .inr (.post s ht)⟩
  · rintro ⟨t, h | h⟩
    · cases h with
      | wait x v ht hv => exact .putWait s t x v ht hv
      | putSection ht => exact .putSection s t ht
      | post ht => exact .putPost s t ht
    · cases h with
      | wait v ht hv => exact .takeWait s t v ht hv
      | takeSection ht => exact .takeSection s t ht
      | post ht => exact .takePost s t ht

theorem BbStep.cap_eq (h : BbStep s s') : s'.q.cap = s.q.cap := by
  cases h <;> rfl

theorem BbPut.pc_of_ne (h : BbPut t s s') {u : T} (hu : u ≠ t) : s'.pc u = s.pc u := by
  cases h <;> exact Function.update_of_ne hu ..

theorem BbTake.pc_of_ne (h : BbTake t s s') {u : T} (hu : u ≠ t) : s'.pc u = s.pc u := by
  cases h <;> exact Function.update_of_ne hu ..

end One

/-! ### The threads of `snacks_run` -/

/-- Where the main thread is: at `join(people[i])`, or past `bb_destroy`. -/
inductive MainPoint
  | joining (i : Nat)
  | destroyed
  deriving DecidableEq, Repr

/-- The main thread, `m` cooks and `n` attendees.  `served a` is the loop counter of
attendee `a`, and `bufNull` says that `buf` is NULL. -/
structure SnacksState (m n : Nat) (Tray : Type*) where
  main : MainPoint
  bb : BbState (Fin m ⊕ Fin n) Tray
  served : Fin n → Nat
  bufNull : Bool

/-- `bb_destroy`, `buf` apart. -/
def bbDestroy (q : BoundedBuffer Tray) : BoundedBuffer Tray :=
  { q with buf := fun _ => none, cap := 0, head := 0, tail := 0 }

/-- Attendee `a`, who takes `takes a` trays, has returned. -/
def SnacksState.Ended (takes : Fin n → Nat) (s : SnacksState m n Tray) (a : Fin n) : Prop :=
  takes a ≤ s.served a ∧ s.bb.pc (.inr a) = .idle

/-- One atomic step of some thread. -/
inductive SnacksStep (takes : Fin n → Nat) : SnacksState m n Tray → SnacksState m n Tray → Prop
  | cook (s : SnacksState m n Tray) (c : Fin m) (b : BbState (Fin m ⊕ Fin n) Tray)
      (h : BbPut (.inl c) s.bb b) : SnacksStep takes s { s with bb := b }
  | attendee (s : SnacksState m n Tray) (a : Fin n) (b : BbState (Fin m ⊕ Fin n) Tray)
      (ha : s.served a < takes a) (h : BbTake (.inr a) s.bb b) :
      SnacksStep takes s { s with
        bb := b
        -- the call returns with its post
        served := if b.pc (.inr a) = .idle then Function.update s.served a (s.served a + 1)
          else s.served }
  | join (s : SnacksState m n Tray) (a : Fin n) (hm : s.main = .joining a)
      (h : s.Ended takes a) : SnacksStep takes s { s with main := .joining (a + 1) }
  | destroy (s : SnacksState m n Tray) (hm : s.main = .joining n) :
      SnacksStep takes s { s with
        main := .destroyed, bb := { s.bb with q := bbDestroy s.bb.q }, bufNull := true }

/-- `snacks_run` with a buffer of this capacity. -/
def snacksRun (m : Nat) (Tray : Type*) (capacity : Int) (takes : Fin n → Nat) :
    Transition.System (SnacksState m n Tray) where
  init s := bbInit Tray capacity = some s.bb.q ∧ (∀ t, s.bb.pc t = .idle)
    ∧ s.main = .joining 0 ∧ (∀ a, s.served a = 0) ∧ s.bufNull = false
  step := SnacksStep takes

variable {takes : Fin n → Nat} {capacity : Int} {s s' : SnacksState m n Tray}

/-! ### Attendees -/

/-- What holds of the attendees and of the buffer: who has been joined has ended, and the
buffer is there until it is destroyed. -/
structure SnacksInv (takes : Fin n → Nat) (s : SnacksState m n Tray) : Prop where
  joined : ∀ i, s.main = .joining i → ∀ a : Fin n, a.val < i → s.Ended takes a
  ended : s.main = .destroyed → ∀ a, s.Ended takes a
  alive : s.main ≠ .destroyed → s.bb.q.cap ≠ 0 ∧ s.bufNull = false

/-- An attendee that has ended stays so. -/
theorem ended_step (hs : SnacksStep takes s s') {a : Fin n} (h : s.Ended takes a) :
    s'.Ended takes a := by
  cases hs with
  | cook c b hb => exact ⟨h.1, (hb.pc_of_ne (by simp)).trans h.2⟩
  | attendee a' b ha' hb =>
      have hne : a ≠ a' := by
        rintro rfl
        exact absurd h.1 (not_le.2 ha')
      refine ⟨?_, (hb.pc_of_ne (by simpa using hne)).trans h.2⟩
      show takes a ≤ (if _ then Function.update s.served a' _ else s.served) a
      split
      · rw [Function.update_of_ne hne]
        exact h.1
      · exact h.1
  | join a' hm h' => exact h
  | destroy hm => exact h

/-- Only the main thread moves the main thread. -/
theorem snacksInv_move {b : BbState (Fin m ⊕ Fin n) Tray} {f : Fin n → Nat}
    (h : SnacksInv takes s) (hs : SnacksStep takes s { s with bb := b, served := f })
    (hb : BbStep s.bb b) : SnacksInv takes { s with bb := b, served := f } := by
  refine ⟨fun i hi a ha => ended_step hs (h.joined i hi a ha),
    fun hd a => ended_step hs (h.ended hd a), fun hd => ?_⟩
  show b.q.cap ≠ 0 ∧ s.bufNull = false
  rw [hb.cap_eq]
  exact h.alive hd

theorem snacksInv_step (h : SnacksInv takes s) (hs : SnacksStep takes s s') :
    SnacksInv takes s' := by
  cases hs with
  | cook c b hb => exact snacksInv_move h (.cook s c b hb) (bbStep_iff.2 ⟨_, .inl hb⟩)
  | attendee a b ha hb =>
      exact snacksInv_move h (.attendee s a b ha hb) (bbStep_iff.2 ⟨_, .inr hb⟩)
  | join a hm ha =>
      refine ⟨fun i hi a' ha' => ?_, fun hd => absurd hd (by simp), fun _ => h.alive (by simp [hm])⟩
      obtain rfl : a.val + 1 = i := MainPoint.joining.inj hi
      rcases Nat.lt_succ_iff_lt_or_eq.1 ha' with hlt | heq
      · exact h.joined a hm a' hlt
      · rw [Fin.ext heq]
        exact ha
  | destroy hm =>
      exact ⟨fun i hi => absurd hi (by simp), fun _ a => h.joined n hm a a.isLt,
        fun hd => absurd rfl hd⟩

theorem snacksInv_reachable (h : (snacksRun m Tray capacity takes).Reachable s) :
    SnacksInv takes s := by
  refine h.invariant ?_ fun _ _ _ => snacksInv_step
  rintro s ⟨hq, -, hmain, -, hbuf⟩
  refine ⟨fun i hi a ha => ?_, fun hd => absurd (hmain.symm.trans hd) (by simp), fun _ => ⟨?_, hbuf⟩⟩
  · obtain rfl : 0 = i := MainPoint.joining.inj (hmain.symm.trans hi)
    exact absurd ha (Nat.not_lt_zero _)
  · have hb := bbBook_init hq
    have hpos := hb.pos
    rw [hb.cap_eq]
    omega

/-! ### A run in which every attendee is served -/

/-- A whole `bb_put` by a cook. -/
theorem put_run (hr : (snacksRun m Tray capacity takes).Reachable s) {c : Fin m}
    (hc : s.bb.pc (.inl c) = .idle) {v : Nat} (hv : s.bb.q.empty = v + 1) :
    ∃ b, (snacksRun m Tray capacity takes).Reachable { s with bb := b } ∧ b.pc = s.bb.pc
      ∧ b.q.empty = v ∧ b.q.full = semPost s.bb.q.full := by
  have h₁ := hr.next (.cook s c _ (.wait _ none v hc (semWait_eq_some.2 hv)))
  have h₂ := h₁.next (.cook _ c _ (.putSection _ (Function.update_self ..)))
  have h₃ := h₂.next (.cook _ c _ (.post _ (Function.update_self ..)))
  refine ⟨_, h₃, ?_, rfl, rfl⟩
  show Function.update (Function.update (Function.update s.bb.pc _ _) _ _) _ _ = s.bb.pc
  rw [Function.update_idem, Function.update_idem, ← hc, Function.update_eq_self]

/-- A step of `bb_take` after which the attendee is still inside. -/
theorem take_inside (hr : (snacksRun m Tray capacity takes).Reachable s) {a : Fin n}
    (ha : s.served a < takes a) {b : BbState (Fin m ⊕ Fin n) Tray} (h : BbTake (.inr a) s.bb b)
    {p : BbPoint} (hb : b.pc (.inr a) = p) (hp : p ≠ .idle) :
    (snacksRun m Tray capacity takes).Reachable { s with bb := b } := by
  have hnext := hr.next (.attendee s a b ha h)
  rw [if_neg (by rw [hb]; exact hp)] at hnext
  exact hnext

/-- The step with which `bb_take` returns. -/
theorem take_return (hr : (snacksRun m Tray capacity takes).Reachable s) {a : Fin n}
    (ha : s.served a < takes a) {b : BbState (Fin m ⊕ Fin n) Tray} (h : BbTake (.inr a) s.bb b)
    (hb : b.pc (.inr a) = .idle) :
    (snacksRun m Tray capacity takes).Reachable { s with
      bb := b, served := Function.update s.served a (s.served a + 1) } := by
  have hnext := hr.next (.attendee s a b ha h)
  rw [if_pos hb] at hnext
  exact hnext

/-- A whole `bb_take` by an attendee. -/
theorem take_run (hr : (snacksRun m Tray capacity takes).Reachable s) {a : Fin n}
    (ha : s.served a < takes a) (hpc : s.bb.pc (.inr a) = .idle) {v : Nat}
    (hv : s.bb.q.full = v + 1) :
    ∃ b, (snacksRun m Tray capacity takes).Reachable { s with
        bb := b, served := Function.update s.served a (s.served a + 1) }
      ∧ b.pc = s.bb.pc ∧ b.q.full = v ∧ b.q.empty = semPost s.bb.q.empty := by
  have h₁ := take_inside hr ha (.wait _ v hpc (semWait_eq_some.2 hv)) (Function.update_self ..)
    (by simp)
  have h₂ := take_inside h₁ ha (.takeSection _ (Function.update_self ..))
    (Function.update_self ..) (by simp)
  have h₃ := take_return h₂ ha (.post _ (Function.update_self ..)) (Function.update_self ..)
  refine ⟨_, h₃, ?_, rfl, rfl⟩
  show Function.update (Function.update (Function.update s.bb.pc _ _) _ _) _ _ = s.bb.pc
  rw [Function.update_idem, Function.update_idem, ← hpc, Function.update_eq_self]

/-- Nobody is inside `bb_put` or `bb_take`, no tray waits and a slot is free. -/
structure AtRest (s : SnacksState m n Tray) : Prop where
  idle : ∀ t, s.bb.pc t = .idle
  main : s.main = .joining 0
  empty : 0 < s.bb.q.empty
  full : s.bb.q.full = 0

/-- A cook serves all attendees, one tray after the other. -/
theorem serve_all (c : Fin m) {k : Nat} (hk : ∑ a, (takes a - s.served a) = k)
    (hr : (snacksRun m Tray capacity takes).Reachable s) (h : AtRest s) :
    ∃ s', (snacksRun m Tray capacity takes).Reachable s' ∧ AtRest s'
      ∧ ∀ a, takes a ≤ s'.served a := by
  induction k generalizing s with
  | zero =>
      refine ⟨s, hr, h, fun a => Nat.sub_eq_zero_iff_le.1 ?_⟩
      exact Finset.sum_eq_zero_iff.1 hk a (Finset.mem_univ a)
  | succ k ih =>
      -- somebody is still hungry
      obtain ⟨a, -, ha⟩ : ∃ a ∈ Finset.univ, takes a - s.served a ≠ 0 := by
        refine Finset.exists_ne_zero_of_sum_ne_zero ?_
        rw [hk]
        exact Nat.succ_ne_zero k
      obtain ⟨v, hv⟩ := Nat.exists_eq_succ_of_ne_zero h.empty.ne'
      obtain ⟨b, hb, hpc, -, hfull⟩ := put_run hr (h.idle (.inl c)) hv
      have hf : b.q.full = 0 + 1 := by
        rw [hfull, h.full]
        decide
      obtain ⟨b', hb', hpc', hfull', hempty'⟩ :=
        take_run hb (a := a) (by show s.served a < _; omega) (by rw [hpc]; exact h.idle _) hf
      refine ih ?_ hb' ⟨fun t => ?_, h.main, ?_, hfull'⟩
      · -- one tray less is owed
        have hold := Finset.add_sum_erase Finset.univ (fun a => takes a - s.served a)
          (Finset.mem_univ a)
        have hnew := Finset.add_sum_erase Finset.univ
          (fun x => takes x - Function.update s.served a (s.served a + 1) x) (Finset.mem_univ a)
        have hrest : ∑ x ∈ Finset.univ.erase a,
              (takes x - Function.update s.served a (s.served a + 1) x)
            = ∑ x ∈ Finset.univ.erase a, (takes x - s.served x) := by
          refine Finset.sum_congr rfl fun x hx => ?_
          rw [Function.update_of_ne (Finset.ne_of_mem_erase hx)]
        rw [Function.update_self] at hnew
        show ∑ x, (takes x - Function.update s.served a (s.served a + 1) x) = k
        omega
      · rw [hpc', hpc]
        exact h.idle t
      · rw [hempty']
        exact semPost_pos _

/-- The main thread joins the attendees, who have all ended. -/
theorem join_all (hr : (snacksRun m Tray capacity takes).Reachable s) (h : AtRest s)
    (hended : ∀ a, takes a ≤ s.served a) {i : Nat} (hi : i ≤ n) :
    (snacksRun m Tray capacity takes).Reachable { s with main := .joining i } := by
  induction i with
  | zero =>
      have : { s with main := .joining 0 } = s := by rw [← h.main]
      rw [this]
      exact hr
  | succ i ih =>
      have hlt : i < n := hi
      exact (ih hlt.le).next (.join _ ⟨i, hlt⟩ rfl ⟨hended _, h.idle _⟩)

/-- With a cook there is a run that destroys the buffer while the cook stands between its
wait and its section. -/
theorem destroyed_under_cook {q : BoundedBuffer Tray} (hq : bbInit Tray capacity = some q)
    (takes : Fin n → Nat) (c : Fin m) :
    ∃ s, (snacksRun m Tray capacity takes).Reachable s ∧ s.main = .destroyed
      ∧ s.bb.pc (.inl c) = .gotEmpty ∧ s.bb.q.cap = 0 ∧ s.bufNull = true := by
  have hstart : (snacksRun m Tray capacity takes).Reachable
      { main := .joining 0, bb := ⟨q, fun _ => .idle, fun _ => none, [], []⟩,
        served := fun _ => 0, bufNull := false } :=
    .start ⟨hq, fun _ => rfl, rfl, fun _ => rfl, rfl⟩
  have hb := bbBook_init hq
  have hempty : 0 < q.empty := by
    have hslots := hb.slots
    have hpos := hb.pos
    have hfull := full_init hq
    omega
  obtain ⟨s, hs, hrest, hended⟩ :=
    serve_all c rfl hstart ⟨fun _ => rfl, rfl, hempty, full_init hq⟩
  obtain ⟨v, hv⟩ := Nat.exists_eq_succ_of_ne_zero hrest.empty.ne'
  have hjoined := join_all hs hrest hended le_rfl
  have hwait := hjoined.next (.cook _ c _ (.wait _ none v (hrest.idle _) (semWait_eq_some.2 hv)))
  exact ⟨_, hwait.next (.destroy _ rfl), rfl, Function.update_self .., rfl, rfl⟩

/-! ### When the buffer is left alone -/

/-- After `bb_destroy` no cook takes a step of `bb_put`, and no thread comes to its section
with a capacity of zero or a null `buf`: exactly when there is no cook. -/
theorem snacks_safe_iff {q : BoundedBuffer Tray} (hq : bbInit Tray capacity = some q) (m : Nat)
    (takes : Fin n → Nat) :
    (∀ s, (snacksRun m Tray capacity takes).Reachable s →
        (s.main = .destroyed → ∀ c b, ¬ BbPut (.inl c) s.bb b)
        ∧ ∀ t, s.bb.pc t = .gotEmpty ∨ s.bb.pc t = .gotFull →
            s.bb.q.cap ≠ 0 ∧ s.bufNull = false)
      ↔ m = 0 := by
  constructor
  · intro h
    by_contra hm
    obtain ⟨s, hs, hd, hpc, -, -⟩ := destroyed_under_cook hq takes ⟨0, Nat.pos_of_ne_zero hm⟩
    exact (h s hs).1 hd _ _ (.putSection _ hpc)
  · rintro rfl s hs
    refine ⟨fun _ c => c.elim0, fun t ht => ?_⟩
    have hinv := snacksInv_reachable hs
    refine hinv.alive fun hd => ?_
    -- a thread at its section is an attendee that has not ended
    rcases t with c | a
    · exact c.elim0
    · have hidle := (hinv.ended hd a).2
      rcases ht with ht | ht <;> exact absurd (hidle.symm.trans ht) (by simp)

/-- The eight slots, the forty attendees and the two cooks of the module. -/
theorem snacks_safe_iff_module :
    (∀ s, (snacksRun 2 Nat 8 fun _ : Fin 40 => 1).Reachable s →
        (s.main = .destroyed → ∀ c b, ¬ BbPut (.inl c) s.bb b)
        ∧ ∀ t, s.bb.pc t = .gotEmpty ∨ s.bb.pc t = .gotFull →
            s.bb.q.cap ≠ 0 ∧ s.bufNull = false)
      ↔ 2 = 0 :=
  snacks_safe_iff rfl 2 fun _ => 1

/-- There, a cook comes to its section when `cap` is zero and `buf` is NULL. -/
theorem cook_uses_destroyed_buffer :
    ∃ s, (snacksRun 2 Nat 8 fun _ : Fin 40 => 1).Reachable s ∧ s.main = .destroyed
      ∧ s.bb.q.cap = 0 ∧ s.bufNull = true
      ∧ ∃ c : Fin 2, BbPut (.inl c) s.bb (s.bb.store (.inl c)) := by
  obtain ⟨s, hs, hd, hpc, hcap, hbuf⟩ := destroyed_under_cook
    (show bbInit Nat 8 = some _ from rfl) (fun _ : Fin 40 => 1) (⟨0, Nat.two_pos⟩ : Fin 2)
  exact ⟨s, hs, hd, hcap, hbuf, _, .putSection _ hpc⟩

end SystemsPortfolio.Sync
