/-
SystemsPortfolio/Xv6/BioQueue.lean

What holds in every state of the buffer cache, and how the queue of the driver moves.

A buffer is served when all buffers before it have been: `ide_fifo` follows a request through
any run, and at its turn the interrupt handler serves it and wakes its process.  Nobody sleeps
for a buffer that is not in the queue, nor for a lock that is free (`bio_sleepers`).
-/
import SystemsPortfolio.Xv6.BioRuns

namespace SystemsPortfolio.Xv6

open CacheView Transition

variable {ι β : Type} [DecidableEq ι] [DecidableEq β] [Fintype ι] {havedisk1 : Bool} {reliable : Prop}
  {s s' s'' : BioState ι β} {t : ι} {b : β}

/-! ### A process that reads a block -/

/-- Two buffers after `binit`, and blank disks. -/
def bioStart : BioState Bool Bool where
  buf _ := ⟨(0, 0), false, false, none, 0, fun _ => 0⟩
  order := [true, false]
  queue := []
  ctl := none
  disk _ _ := 0
  proc _ := .run
  touched _ := false
  panicked := none

/-- A process asks for block 7 of disk 1 and waits for it. -/
def bioReading : BioState Bool Bool :=
  (((bioStart.bget false (1, 7)).acquiresleep false false).bread true false false).iowait false false

theorem bioReading_reachable : (bioSystem true True).Reachable bioReading := by
  have h₀ : (bioSystem true True).Reachable bioStart := by
    refine .start ⟨fun _ => ⟨_, rfl⟩, by decide, by decide, rfl, rfl, fun _ => rfl, fun _ => rfl, rfl⟩
  have h₁ := h₀.next ⟨_, .bget bioStart false (1, 7) rfl (by decide) rfl⟩
  have h₂ := h₁.next ⟨_, .acquiresleep _ false false (by decide) (by decide)⟩
  have h₃ := h₂.next ⟨_, .bread _ false false (by decide) (by decide)⟩
  exact h₃.next ⟨_, .iowait _ false false (by decide) (by decide)⟩

/-! ### Every state -/

/-- The processes that want a buffer, have it, or are giving it back. -/
def BioState.users (s : BioState ι β) (b : β) : Nat :=
  (∑ u, (s.on b u).pend) + if (s.buf b).lock.isSome then 1 else 0

/-- **The buffer cache is consistent.**  In every state `refcnt` counts the users of a buffer, no
block is in two buffers that are in use, and callers that keep the rules never meet the panics
that are there for those who do not. -/
theorem bio_consistent (h : (bioSystem havedisk1 reliable).Reachable s) :
    (∀ b, (s.buf b).refcnt = s.users b) ∧
    (∀ b c, s.used b → s.used c → (s.buf b).key = (s.buf c).key → b = c) ∧
    ∀ p, s.panicked = some p → p = .noBuffers ∨ p = .noDisk ∨ p = .blockno := by
  have hi := bioInv_of_reachable h
  refine ⟨fun b => (hi.bufs b).count, fun b c hb hc e => ?_, fun p hp => ?_⟩
  · have hb' : s.cached (s.buf b).key = some b := hi.sound.first b hb
    have hc' : s.cached (s.buf c).key = some c := hi.sound.first c hc
    rw [e, hc'] at hb'
    exact (Option.some.inj hb').symm
  · have hm := hi.panicked p hp
    revert hm
    cases p <;> decide

/-- While the process waits one buffer is in use, once. -/
theorem bio_consistent_reading : (bioReading.buf false).refcnt = 1 ∧ bioReading.users false = 1 := by
  have h := (bio_consistent bioReading_reachable).1 false
  exact ⟨by decide, h ▸ by decide⟩

/-- **No lost wake-up.**  Who sleeps in `iderw` has locked the buffer and has it in the queue, who
sleeps in `acquiresleep` waits for a lock that someone has, and the controller is busy while
the queue is not empty. -/
theorem bio_sleepers (h : (bioSystem havedisk1 reliable).Reachable s) :
    (∀ t b, s.proc t = .ioSleep b → (s.buf b).lock = some t ∧ b ∈ s.queue) ∧
    (∀ t b, s.proc t = .lockSleep b → ∃ u, (s.buf b).lock = some u) ∧
    (s.panicked = none → s.queue ≠ [] → s.ctl ≠ none) := by
  have hi := bioInv_of_reachable h
  refine ⟨fun t b hp => ?_, fun t b hp => ?_, fun hk hq hctl => ?_⟩
  · have hon : s.on b t = .ioSleep := (on_of_eq hp).trans (if_pos rfl)
    exact ⟨(hi.bufs b).busy t (by rw [hon]; rfl), (hi.bufs b).ioSleep t hon⟩
  · have hon : s.on b t = .lockSleep := (on_of_eq hp).trans (if_pos rfl)
    exact Option.ne_none_iff_exists'.mp ((hi.bufs b).lockSleep t hon)
  · rw [hi.ctl hk] at hctl
    rcases e : s.queue with - | ⟨b, rest⟩
    · exact hq e
    · rw [e] at hctl
      cases hctl

theorem bio_sleepers_reading :
    bioReading.proc false = .ioSleep false ∧ false ∈ bioReading.queue :=
  ⟨by decide, ((bio_sleepers bioReading_reachable).1 false false (by decide)).2⟩

/-! ### The queue -/

/-- A run of the system, with the buffers that were put into the queue and the number of
buffers that the interrupt handler served. -/
inductive IdeRun (havedisk1 : Bool) (reliable : Prop) (s : BioState ι β) :
    List β → Nat → BioState ι β → Prop
  | refl : IdeRun havedisk1 reliable s [] 0 s
  | request {l : List β} {n : Nat} {s' s'' : BioState ι β} {b : β}
      (h : IdeRun havedisk1 reliable s l n s') (hs : (bioSystem havedisk1 reliable).step s' s'')
      (hq : s''.queue = s'.queue ++ [b]) : IdeRun havedisk1 reliable s (l ++ [b]) n s''
  | serve {l : List β} {n : Nat} {s' s'' : BioState ι β} (h : IdeRun havedisk1 reliable s l n s')
      (hs : (bioSystem havedisk1 reliable).step s' s'') (hne : s'.queue ≠ [])
      (hq : s''.queue = s'.queue.tail) : IdeRun havedisk1 reliable s l (n + 1) s''
  | silent {l : List β} {n : Nat} {s' s'' : BioState ι β} (h : IdeRun havedisk1 reliable s l n s')
      (hs : (bioSystem havedisk1 reliable).step s' s'') (hq : s''.queue = s'.queue) :
      IdeRun havedisk1 reliable s l n s''

omit [Fintype ι] [DecidableEq ι] [DecidableEq β] in
theorem idestart_queue (s : BioState ι β) (b : β) : (s.idestart b).queue = s.queue := by
  rw [BioState.idestart]
  split <;> rfl

omit [Fintype ι] in
theorem iderw_queue (s : BioState ι β) (t : ι) (b : β) :
    (s.iderw havedisk1 t b).queue = s.queue ∨ (s.iderw havedisk1 t b).queue = s.queue ++ [b] := by
  rw [BioState.iderw]
  split_ifs
  · exact Or.inl rfl
  · exact Or.inl rfl
  · exact Or.inl rfl
  · exact Or.inr (idestart_queue _ b)
  · exact Or.inr rfl

omit [Fintype ι] [DecidableEq ι] in
theorem ideintr_queue (s : BioState ι β) (ok : Bool) : (s.ideintr ok).queue = s.queue.tail := by
  rw [BioState.ideintr]
  rcases hq : s.queue with - | ⟨b, - | ⟨b', rest⟩⟩
  · exact hq
  · rfl
  · exact idestart_queue _ b'

omit [Fintype ι] in
/-- What a step does to the queue. -/
theorem step_queue (hs : (bioSystem havedisk1 reliable).step s s') :
    s'.queue = s.queue ∨ (∃ b, s'.queue = s.queue ++ [b]) ∨ s'.queue = s.queue.tail := by
  obtain ⟨_, hs⟩ := hs
  cases hs with
  | bget _ t a hp ha hk =>
      left
      rw [BioState.bget]
      rcases s.cached a with - | b
      · rcases s.unused with - | b <;> rfl
      · rfl
  | acquiresleep _ t b hp hk =>
      left
      rw [BioState.acquiresleep]
      split_ifs <;> rfl
  | bread _ t b hp hk =>
      rw [BioState.bread]
      split_ifs
      · exact Or.inl rfl
      · exact (iderw_queue s t b).imp_right fun e => Or.inl ⟨b, e⟩
  | iowait _ t b hp hk =>
      left
      rw [BioState.iowait]
      split_ifs <;> rfl
  | modify _ t b data hp hl hk => exact Or.inl rfl
  | mark _ t b hp hl hk => exact Or.inl rfl
  | bwrite _ t b hp hl hk =>
      rw [BioState.bwrite, if_neg (fun e => e hl)]
      exact (iderw_queue (s.mark b) t b).imp_right fun e => Or.inl ⟨b, e⟩
  | brelse _ t b hp hl ht hk =>
      left
      rw [BioState.brelse, if_neg (fun e => e hl)]
      rfl
  | unref _ t b hp hk =>
      left
      rw [BioState.unref]
      split_ifs <;> rfl
  | ideintr _ ok hok hk => exact Or.inr (Or.inr (ideintr_queue s ok))

omit [Fintype ι] in
/-- Every run can be followed. -/
theorem exists_ideRun (h : Relation.ReflTransGen (bioSystem havedisk1 reliable).step s s') :
    ∃ l n, IdeRun havedisk1 reliable s l n s' := by
  induction h with
  | refl => exact ⟨[], 0, .refl⟩
  | @tail s' s'' _ hs ih =>
      obtain ⟨l, n, hrun⟩ := ih
      rcases step_queue hs with e | ⟨b, e⟩ | e
      · exact ⟨l, n, hrun.silent hs e⟩
      · exact ⟨l ++ [b], n, hrun.request hs e⟩
      · rcases hq : s'.queue with - | ⟨b, rest⟩
        · refine ⟨l, n, hrun.silent hs ?_⟩
          rw [e, hq]
          rfl
        · exact ⟨l, n + 1, hrun.serve hs (by rw [hq]; exact List.cons_ne_nil b rest) e⟩

omit [Fintype ι] in
/-- The queue after a run: what was there and what came, without what was served. -/
theorem IdeRun.queue_eq {l : List β} {n : Nat} (h : IdeRun havedisk1 reliable s l n s') :
    n ≤ (s.queue ++ l).length ∧ s'.queue = (s.queue ++ l).drop n := by
  induction h with
  | refl => simp
  | @request l n s' s'' b _ _ hq ih =>
      obtain ⟨hle, e⟩ := ih
      rw [hq, e, ← List.append_assoc, List.drop_append_of_le_length hle]
      refine ⟨?_, rfl⟩
      rw [List.length_append]
      omega
  | @serve l n s' s'' _ _ hne hq ih =>
      obtain ⟨hle, e⟩ := ih
      rw [e] at hne
      have hlt : n < (s.queue ++ l).length := by
        by_contra hge
        exact hne (List.drop_eq_nil_of_le (not_lt.mp hge))
      refine ⟨hlt, ?_⟩
      rw [hq, e, List.tail_drop]
  | silent _ _ hq ih => exact ⟨ih.1, hq.trans ih.2⟩

omit [Fintype ι] in
theorem IdeRun.reachable {l : List β} {n : Nat} (h : IdeRun havedisk1 reliable s l n s')
    (hs : (bioSystem havedisk1 reliable).Reachable s) : (bioSystem havedisk1 reliable).Reachable s' := by
  induction h with
  | refl => exact hs
  | request _ hstep _ ih => exact ih.next hstep
  | serve _ hstep _ _ ih => exact ih.next hstep
  | silent _ hstep _ ih => exact ih.next hstep

omit [DecidableEq ι] [Fintype ι] in
/-- The first buffer of the queue is served, and its processes are awake. -/
theorem ideintr_serves {rest : List β} (hq : s.queue = b :: rest) (ok : Bool) :
    ((s.ideintr ok).buf b).done = true ∧ ∀ u, (s.ideintr ok).proc u ≠ .ioSleep b := by
  have hserve (rest : List β) : ((s.serve b rest ok).buf b).done = true ∧
      ∀ u, (s.serve b rest ok).proc u ≠ .ioSleep b := by
    refine ⟨?_, fun u => ?_⟩
    · rw [show (s.serve b rest ok).buf b = _ from Function.update_self ..]
      rfl
    · show (if s.proc u = .ioSleep b then BioProc.waiting b else s.proc u) ≠ _
      split_ifs with hu
      · exact fun e => by cases e
      · exact hu
  rw [BioState.ideintr, hq]
  rcases rest with - | ⟨b', rest⟩
  · exact hserve []
  · dsimp only
    rw [BioState.idestart]
    split_ifs
    · exact hserve (b' :: rest)
    · exact hserve (b' :: rest)
    · exact hserve (b' :: rest)

/-- **The driver serves requests in order.**  A buffer with `i` others before it is not overtaken:
after `n` services it has `i - n` before it, and after `i` the controller works on it and the next
interrupt serves it. -/
theorem ide_fifo {l : List β} {n i : Nat} (h : (bioSystem havedisk1 reliable).Reachable s)
    (hb : s.queue[i]? = some b) (hrun : IdeRun havedisk1 reliable s l n s') (hn : n ≤ i) :
    s'.queue[i - n]? = some b ∧ (n = i → s'.panicked = none →
      s'.ctl = some (s'.buf b).request ∧
      ∀ ok, ((s'.ideintr ok).buf b).done = true ∧ ∀ u, (s'.ideintr ok).proc u ≠ .ioSleep b) := by
  have hlt : i < s.queue.length := (List.getElem?_eq_some_iff.mp hb).1
  have hpos : s'.queue[i - n]? = some b := by
    rw [hrun.queue_eq.2, List.getElem?_drop, show n + (i - n) = i by omega,
      List.getElem?_append_left hlt, hb]
  refine ⟨hpos, fun hni hk => ?_⟩
  have hreach := hrun.reachable h
  rw [hni, Nat.sub_self] at hpos
  rcases hq : s'.queue with - | ⟨b', rest⟩
  · rw [hq] at hpos
    cases hpos
  · rw [hq] at hpos
    obtain rfl : b' = b := Option.some.inj hpos
    refine ⟨?_, fun ok => ideintr_serves hq ok⟩
    rw [(bioInv_of_reachable hreach).ctl hk, hq]
    rfl

/-- While it waits, the other process asks for block 8 of the same disk. -/
def bioQueued : BioState Bool Bool :=
  ((bioReading.bget true (1, 8)).acquiresleep true true).bread true true true

theorem bioQueued_reachable : (bioSystem true True).Reachable bioQueued := by
  have h₁ := bioReading_reachable.next ⟨_, .bget _ true (1, 8) (by decide) (by decide) (by decide)⟩
  have h₂ := h₁.next ⟨_, .acquiresleep _ true true (by decide) (by decide)⟩
  exact h₂.next ⟨_, .bread _ true true (by decide) (by decide)⟩

/-- Two requests are queued; after the first has been served the controller works on the second,
and the next interrupt serves it. -/
theorem ide_fifo_queued : bioQueued.queue = [false, true] ∧
    (bioQueued.ideintr true).queue[0]? = some true ∧
    (bioQueued.ideintr true).ctl = some ((bioQueued.ideintr true).buf true).request ∧
    (((bioQueued.ideintr true).ideintr true).buf true).done = true := by
  have hserve : IdeRun true True bioQueued [] 1 (bioQueued.ideintr true) :=
    .serve .refl ⟨_, .ideintr _ true (fun _ => rfl) (by decide)⟩ (by decide) (by decide)
  have h := ide_fifo bioQueued_reachable (b := true) (i := 1) (by decide) hserve le_rfl
  have hturn := h.2 rfl (by decide)
  exact ⟨by decide, h.1, hturn.1, (hturn.2 true).1⟩

end SystemsPortfolio.Xv6
