/-
SystemsPortfolio/Xv6/LogRoom.lean

When the checks of `log_write` never fail, and who waits in `begin_op`.

`log_write` panics if the header is as long as `LOGSIZE` or as the log has blocks for
copies, even if the block to be written is listed already.  What `begin_op` reserves
keeps the header below `logPeak k` for operations that change at most `k` blocks each,
and two processes can reach that many (`exists_panic`).  So the exact condition is that
`logPeak k` is less than both limits.  With the log that `mkfs` makes, of `LOGSIZE` blocks
with the header, operations of nine blocks are safe, and operations of `MAXOPBLOCKS` are not.

`asleep_has_waker` says that nobody sleeps in `begin_op` without reason, nor without
someone who will wake them.
-/
import SystemsPortfolio.Xv6.LogProcs

namespace SystemsPortfolio.Xv6

open RedoLog Transition

variable {ι : Type} [DecidableEq ι] [Fintype ι] {start size k : Nat} {s s' : LogState ι}

/-! ### Enough room -/

omit [DecidableEq ι] in
theorem ProcInv.length_le (h : ProcInv k s) (hrec : s.task.recovering = false) :
    s.lh.length ≤ logPeak k := by
  have := h.room hrec
  omega

/-- The length at which `log_write` panics. -/
def logLimit (size : Nat) : Nat := min logSize (size - 1)

theorem no_panic_step {act : Option (LogAct ι)} (hroom : logPeak k < logLimit size)
    (hi : ProcInv k s) (h : s.panicked = false) (hs : LogStep start size k act s s') : s'.panicked = false := by
  cases hs with
  | call _ t hp => exact h
  | beginOp _ t hp =>
      rw [LogState.beginOp]
      split_ifs <;> exact h
  | logCheck _ t w b data hp =>
      have hwt : (s.proc t).written = some w := by rw [hp]; rfl
      have hlen := hi.length_le (hi.calm hwt).2
      have hpos := hi.outstanding_pos hwt
      rw [logLimit] at hroom
      rw [LogState.logCheck, if_neg (by omega)]
      exact h
  | logWrite _ t w b data hp => exact h
  | endOp _ t w hp =>
      have hwt : (s.proc t).written = some w := by rw [hp]; rfl
      rw [LogState.endOp, if_neg (by rw [(hi.calm hwt).1]; decide)]
      split_ifs <;> exact h
  | work _ ht =>
      rw [(@LogState.work_frame ι start s).2.2.2]
      exact h
  | endCommit _ t hp ht => exact h
  | crash => rfl

/-! ### Too little room -/

/-- The blocks that the run below changes, one after the other. -/
def blockNo (start size n : Nat) : Nat := start + size + n

theorem blockNo_home (n : Nat) : ¬ Region start size (blockNo start size n) := by
  rintro ⟨-, hlt⟩
  rw [blockNo] at hlt
  omega

/-- A stage of the run: `A` has changed the blocks `w`, `B` is at `p`, `out` operations are under
way, and `n` blocks are listed. -/
structure Stage (start size k : Nat) (A B : ι) (w : List Nat) (p : LogProc) (out n : Nat)
    (s : LogState ι) : Prop where
  reach : (logSystem start size k).Reachable s
  panicked : s.panicked = false
  committing : s.committing = false
  outstanding : s.outstanding = out
  lh : s.lh = (List.range n).map (blockNo start size)
  procA : s.proc A = .inOp w
  procB : s.proc B = p

variable {A B : ι} {w v : List Nat} {p : LogProc} {out n : Nat}

omit [Fintype ι] in
theorem Stage.length (h : Stage start size k A B w p out n s) : s.lh.length = n := by
  rw [h.lh, List.length_map, List.length_range]

/-- The next block is new to every operation. -/
theorem Stage.fresh (h : Stage start size k A B w p out n s) (hk : k ≤ maxOpBlocks) {t : ι}
    (hv : (s.proc t).written = some v) : blockNo start size n ∉ v := by
  intro hmem
  have hlh := (procInv_of_reachable hk h.reach).listed t v hv _ hmem
  rw [h.lh, List.mem_map] at hlh
  obtain ⟨m, hm, e⟩ := hlh
  rw [List.mem_range] at hm
  rw [blockNo, blockNo] at e
  omega

omit [Fintype ι] in
theorem Stage.fresh_lh (h : Stage start size k A B w p out n s) :
    absorb s.lh (blockNo start size n) = (List.range (n + 1)).map (blockNo start size) := by
  have hno : blockNo start size n ∉ s.lh := by
    rw [h.lh, List.mem_map]
    rintro ⟨m, hm, e⟩
    rw [List.mem_range] at hm
    rw [blockNo, blockNo] at e
    omega
  rw [absorb, if_neg hno, h.lh, List.range_succ, List.map_append]
  rfl

theorem Stage.call (h : Stage start size k A B w .idle out n s) (hk : k ≤ maxOpBlocks)
    (hAB : A ≠ B) : ∃ s', Stage start size k A B w .begin out n s' := by
  have hrec : s.task.recovering = false := by
    rw [← Bool.not_eq_true]
    intro hr
    have := (procInv_of_reachable hk h.reach).recovering hr A
    rw [h.procA] at this
    cases this
  refine ⟨_, h.reach.next ⟨_, .call s B h.procB hrec h.panicked⟩, h.panicked, h.committing,
    h.outstanding, h.lh, ?_, Function.update_self ..⟩
  exact (Function.update_of_ne hAB ..).trans h.procA

omit [Fintype ι] in
theorem Stage.admit (h : Stage start size k A B w .begin out n s) (hAB : A ≠ B)
    (hroom : n + (out + 1) * maxOpBlocks ≤ logSize) :
    ∃ s', Stage start size k A B w (.inOp []) (out + 1) n s' := by
  have hgo : ¬ s.mustWait := by
    rw [LogState.mustWait, h.committing, h.length, h.outstanding]
    rintro (hc | hlt)
    · cases hc
    · omega
  have hs : (logSystem start size k).step s (s.beginOp B) := ⟨_, .beginOp s B h.procB h.panicked⟩
  rw [LogState.beginOp, if_neg hgo] at hs
  refine ⟨_, h.reach.next hs, h.panicked, h.committing, ?_, h.lh, ?_, Function.update_self ..⟩
  · exact congrArg (· + 1) h.outstanding
  · exact (Function.update_of_ne hAB ..).trans h.procA

omit [Fintype ι] in
theorem Stage.leave (h : Stage start size k A B w (.inOp v) (out + 2) n s) (hAB : A ≠ B) :
    ∃ s', Stage start size k A B w .idle (out + 1) n s' := by
  have hs : (logSystem start size k).step s (s.endOp B) := ⟨_, .endOp s B v h.procB h.panicked⟩
  have hout : s.outstanding - 1 ≠ 0 := by rw [h.outstanding]; omega
  rw [LogState.endOp, if_neg (by rw [h.committing]; decide), if_neg hout] at hs
  refine ⟨_, h.reach.next hs, h.panicked, h.committing, ?_, h.lh, ?_, ?_⟩
  · show s.outstanding - 1 = out + 1
    rw [h.outstanding]
    omega
  · rw [LogState.wakeup_proc]
    dsimp only
    rw [Function.update_of_ne hAB, h.procA]
    rfl
  · rw [LogState.wakeup_proc]
    dsimp only
    rw [Function.update_self]
    rfl

/-- Below the limit a process lists a new block. -/
theorem Stage.write (h : Stage start size k A B w p out n s) {t : ι} (hk : k ≤ maxOpBlocks)
    (ht : s.proc t = .inOp v) (hv : v.length < k) (hlim : n < logLimit size)
    (hfs : blockNo start size n < fsSize) :
    ∃ s', (logSystem start size k).Reachable s' ∧ s'.panicked = false ∧ s'.committing = false ∧
      s'.outstanding = out ∧ s'.lh = (List.range (n + 1)).map (blockNo start size) ∧
      s'.proc = Function.update s.proc t (.inOp (v ++ [blockNo start size n])) := by
  have hwt : (s.proc t).written = some v := by rw [ht]; rfl
  have hpos := (procInv_of_reachable hk h.reach).outstanding_pos hwt
  have hlen := h.length
  have habsorb : absorb v (blockNo start size n) = v ++ [blockNo start size n] :=
    if_neg (h.fresh hk hwt)
  have hcheck : (logSystem start size k).step s
      (s.logCheck size t v (blockNo start size n) fun _ => 0) := by
    refine ⟨_, .logCheck s t v _ _ ht ?_ (blockNo_home n) hfs h.panicked⟩
    rw [habsorb, List.length_append, List.length_singleton]
    omega
  rw [logLimit] at hlim
  rw [LogState.logCheck, if_neg (by omega)] at hcheck
  refine ⟨_, (h.reach.next hcheck).next
    ⟨_, .logWrite _ t v _ _ (Function.update_self ..) h.panicked⟩, h.panicked, h.committing, h.outstanding, h.fresh_lh, ?_⟩
  dsimp only [LogState.logWrite]
  rw [Function.update_idem, habsorb]

theorem Stage.writeA (h : Stage start size k A B w p out n s) (hk : k ≤ maxOpBlocks) (hAB : A ≠ B)
    (hw : w.length < k) (hlim : n < logLimit size) (hfs : blockNo start size n < fsSize) :
    ∃ s', Stage start size k A B (w ++ [blockNo start size n]) p out (n + 1) s' := by
  obtain ⟨s', hr, hpanic, hcom, hout, hlh, hproc⟩ := h.write hk h.procA hw hlim hfs
  refine ⟨s', hr, hpanic, hcom, hout, hlh, ?_, ?_⟩
  · rw [hproc, Function.update_self]
  · rw [hproc, Function.update_of_ne hAB.symm, h.procB]

theorem Stage.writeB (h : Stage start size k A B w (.inOp v) out n s) (hk : k ≤ maxOpBlocks)
    (hAB : A ≠ B) (hv : v.length < k) (hlim : n < logLimit size)
    (hfs : blockNo start size n < fsSize) :
    ∃ s', Stage start size k A B w (.inOp (v ++ [blockNo start size n])) out (n + 1) s' := by
  obtain ⟨s', hr, hpanic, hcom, hout, hlh, hproc⟩ := h.write hk h.procB hv hlim hfs
  refine ⟨s', hr, hpanic, hcom, hout, hlh, ?_, ?_⟩
  · rw [hproc, Function.update_of_ne hAB, h.procA]
  · rw [hproc, Function.update_self]

/-- At the limit the next `log_write` panics, also for a block that is listed. -/
theorem Stage.panic (h : Stage start size k A B w p out n s) (h₁ : 0 < k) (hk : k ≤ maxOpBlocks)
    (hlim : logLimit size ≤ n) (hfs : start + size + logSize ≤ fsSize) :
    ∃ s' : LogState ι, (logSystem start size k).Reachable s' ∧ s'.panicked = true := by
  have hwt : (s.proc A).written = some w := by rw [h.procA]; rfl
  have hi := procInv_of_reachable hk h.reach
  obtain ⟨b, hb, hhome, hlt⟩ : ∃ b, (absorb w b).length ≤ k ∧ ¬ Region start size b ∧ b < fsSize := by
    rcases w with - | ⟨b, w⟩
    · refine ⟨blockNo start size 0, h₁, blockNo_home 0, ?_⟩
      have : logSize = 30 := rfl
      rw [blockNo]
      omega
    · -- a block that `A` has changed before
      have hlh := hi.listed A _ hwt b List.mem_cons_self
      rw [h.lh, List.mem_map] at hlh
      obtain ⟨m, hm, rfl⟩ := hlh
      rw [List.mem_range] at hm
      have hpeak := hi.length_le (hi.calm hwt).2
      rw [h.length] at hpeak
      refine ⟨blockNo start size m, ?_, blockNo_home m, ?_⟩
      · rw [absorb_of_mem List.mem_cons_self]
        exact hi.bound A _ hwt
      · have h₂ : logPeak k ≤ logSize := by
          dsimp only [logPeak, logSize, maxOpBlocks] at hk ⊢
          omega
        rw [blockNo]
        omega
  have hcheck : (logSystem start size k).step s (s.logCheck size A w b fun _ => 0) :=
    ⟨_, .logCheck s A w b _ h.procA hb hhome hlt h.panicked⟩
  have hlen := h.length
  rw [logLimit] at hlim
  rw [LogState.logCheck, if_pos (by omega)] at hcheck
  exact ⟨_, h.reach.next hcheck, rfl⟩

theorem readHeader_zero : readHeader (fun _ => 0) = [] := by
  have hn : ByteStore.loadInt (fun _ => 0) 0 4 = 0 := ByteStore.loadInt_eq_zero fun _ _ => rfl
  rw [readHeader, hn]
  rfl

/-- A blank disk, from which the machine starts. -/
def blankState (ι : Type) : LogState ι where
  disk := fun _ _ => 0
  cache := fun _ _ => 0
  lh := []
  outstanding := 0
  committing := false
  task := .none
  proc := fun _ => .idle
  panicked := false

omit [Fintype ι] in
/-- The machine starts on a blank disk and finds nothing to recover. -/
theorem exists_started : ∃ s : LogState ι, (logSystem start size k).Reachable s ∧
    s.panicked = false ∧ s.committing = false ∧ s.outstanding = 0 ∧ s.lh = [] ∧ s.task = .none ∧
    (∀ t, s.proc t = .idle) ∧ ∀ b, b ≠ start → s.disk b = fun _ => 0 := by
  have h₀ : (logSystem start size k).Reachable (blankState ι).crash :=
    .start ⟨blankState ι, readHeader_zero, rfl⟩
  have h₁ := h₀.next ⟨_, .work _ ⟨(fun e => by cases e), (fun e => by cases e)⟩ rfl⟩
  have e₁ : (blankState ι).crash.work start =
      { (blankState ι).crash with lh := [], task := .reinstall 0 } :=
    congrArg (fun l => { (blankState ι).crash with lh := l, task := .reinstall 0 }) readHeader_zero
  rw [e₁] at h₁
  have h₂ := h₁.next ⟨_, .work _ ⟨(fun e => by cases e), (fun e => by cases e)⟩ rfl⟩
  have h₃ := h₂.next ⟨_, .work _ ⟨(fun e => by cases e), (fun e => by cases e)⟩ rfl⟩
  exact ⟨_, h₃, rfl, rfl, rfl, rfl, rfl, fun _ => rfl, fun b hb => Function.update_of_ne hb ..⟩

omit [Fintype ι] in
/-- `A` begins an operation. -/
theorem exists_stage (hAB : A ≠ B) : ∃ s, Stage start size k A B [] .idle 1 0 s := by
  obtain ⟨s, hr, hpanic, hcom, hout, hlh, htask, hidle, -⟩ := @exists_started ι _ start size k
  have h₁ := hr.next ⟨_, .call s A (hidle A) (by rw [htask]; rfl) hpanic⟩
  have h₂ : (logSystem start size k).step { s with proc := Function.update s.proc A .begin } _ :=
    ⟨_, .beginOp _ A (Function.update_self ..) hpanic⟩
  have hgo : ¬ LogState.mustWait { s with proc := Function.update s.proc A .begin } := by
    rw [LogState.mustWait]
    dsimp only
    rw [hcom, hlh, hout]
    decide
  rw [LogState.beginOp, if_neg hgo] at h₂
  refine ⟨_, h₁.next h₂, hpanic, hcom, ?_, hlh, Function.update_self .., ?_⟩
  · exact congrArg (· + 1) hout
  · dsimp only
    rw [Function.update_of_ne hAB.symm, Function.update_of_ne hAB.symm, hidle]

/-- A run to a panic: `B` fills the header with operations of one block each while `A` holds
the transaction open, and then both change all the blocks they may. -/
theorem exists_panic (hAB : A ≠ B) (h₁ : 0 < k) (hk : k ≤ maxOpBlocks)
    (hfs : start + size + logSize ≤ fsSize) (hlim : logLimit size ≤ logPeak k) :
    ∃ s : LogState ι, (logSystem start size k).Reachable s ∧ s.panicked = true := by
  by_contra hno
  have hbelow {w : List Nat} {p : LogProc} {out n : Nat} {s : LogState ι}
      (h : Stage start size k A B w p out n s) : n < logLimit size :=
    not_le.mp fun hle => hno (h.panic h₁ hk hle hfs)
  have hblock {n : Nat} (hn : n < logLimit size) : blockNo start size n < fsSize := by
    rw [logLimit] at hn
    rw [blockNo]
    omega
  -- as long as there is room for two operations, `B` comes and goes
  have hfill : ∀ n ≤ logSize - 2 * maxOpBlocks, ∃ s, Stage start size k A B [] .idle 1 n s := by
    intro n
    induction n with
    | zero => exact fun _ => exists_stage hAB
    | succ n ih =>
        intro hn
        obtain ⟨s, hs⟩ := ih (by omega)
        obtain ⟨s, hs⟩ := hs.call hk hAB
        obtain ⟨s, hs⟩ := hs.admit hAB (by dsimp only [logSize, maxOpBlocks] at hn ⊢; omega)
        obtain ⟨s, hs⟩ := hs.writeB hk hAB h₁ (hbelow hs) (hblock (hbelow hs))
        exact hs.leave hAB
  have hA : ∀ i ≤ k, ∃ s w, w.length = i ∧
      Stage start size k A B w (.inOp []) 2 (logSize - 2 * maxOpBlocks + i) s := by
    intro i
    induction i with
    | zero =>
        intro _
        obtain ⟨s, hs⟩ := hfill _ le_rfl
        obtain ⟨s, hs⟩ := hs.call hk hAB
        obtain ⟨s, hs⟩ := hs.admit hAB (by decide)
        exact ⟨s, [], rfl, hs⟩
    | succ i ih =>
        intro hi
        obtain ⟨s, w, hw, hs⟩ := ih (by omega)
        obtain ⟨s, hs⟩ := hs.writeA hk hAB (by omega) (hbelow hs) (hblock (hbelow hs))
        exact ⟨s, _, by rw [List.length_append, hw]; rfl, hs⟩
  have hB : ∀ j ≤ k, ∃ s w v, v.length = j ∧
      Stage start size k A B w (.inOp v) 2 (logSize - 2 * maxOpBlocks + k + j) s := by
    intro j
    induction j with
    | zero =>
        intro _
        obtain ⟨s, w, -, hs⟩ := hA k le_rfl
        exact ⟨s, w, [], rfl, hs⟩
    | succ j ih =>
        intro hj
        obtain ⟨s, w, v, hv, hs⟩ := ih (by omega)
        obtain ⟨s, hs⟩ := hs.writeB hk hAB (by omega) (hbelow hs) (hblock (hbelow hs))
        exact ⟨s, w, _, by rw [List.length_append, hv]; rfl, hs⟩
  obtain ⟨s, w, v, -, hs⟩ := hB k le_rfl
  have := hbelow hs
  rw [logPeak] at hlim
  omega

/-- **The room in the log.**  With operations that change at most `k` blocks each, and two
processes or more, no check of `log_write` or `end_op` ever fails if and only if `logPeak k` is
below `LOGSIZE` and the number of copies that fit into the log. -/
theorem log_never_panics_iff [Nontrivial ι] (h₁ : 0 < k) (hk : k ≤ maxOpBlocks)
    (hfs : start + size + logSize ≤ fsSize) :
    (∀ s : LogState ι, (logSystem start size k).Reachable s → s.panicked = false) ↔
      logPeak k < min logSize (size - 1) := by
  constructor
  · intro hall
    by_contra hlim
    obtain ⟨A, B, hAB⟩ := exists_pair_ne ι
    obtain ⟨s, hr, hs⟩ := exists_panic hAB h₁ hk hfs (not_lt.mp hlim)
    rw [hall s hr] at hs
    cases hs
  · intro hroom s hs
    refine hs.invariant (P := fun s => s.panicked = false) ?_ ?_
    · rintro _ ⟨s₀, -, rfl⟩
      rfl
    · rintro s s' hr h ⟨_, hstep⟩
      exact no_panic_step hroom (procInv_of_reachable hk hr) h hstep

/-- With the log of `mkfs` operations of nine blocks are safe and operations of ten are not. -/
theorem log_never_panics_mkfs :
    (∀ s : LogState (Fin 2), (logSystem 2 30 9).Reachable s → s.panicked = false) ∧
    ¬ ∀ s : LogState (Fin 2), (logSystem 2 30 10).Reachable s → s.panicked = false := by
  constructor
  · exact (log_never_panics_iff (by decide) (by decide) (by decide)).mpr (by decide)
  · exact mt (log_never_panics_iff (by decide) (by decide) (by decide)).mp (by decide)

/-! ### Sleepers -/

/-- Who sleeps in `begin_op` still has to. -/
def SleepInv (s : LogState ι) : Prop := s.panicked = false → ∀ t, s.proc t = .asleep → s.mustWait

omit [DecidableEq ι] [Fintype ι] in
theorem sleepInv_wakeup : SleepInv s.wakeup := by
  intro _ t ht
  rw [LogState.wakeup_proc] at ht
  exact absurd ht (LogProc.awake_ne_asleep _)

theorem SleepInv.step {act : Option (LogAct ι)} (hi : ProcInv k s) (h : SleepInv s)
    (hs : LogStep start size k act s s') : SleepInv s' := by
  have hmove {p : LogProc} (t : ι) (hp : p = .asleep → s.mustWait) (u : ι)
      (hk : s.panicked = false) (hu : Function.update s.proc t p u = .asleep) : s.mustWait := by
    rcases eq_or_ne u t with rfl | hut
    · rw [Function.update_self] at hu
      exact hp hu
    · rw [Function.update_of_ne hut] at hu
      exact h hk u hu
  cases hs with
  | call _ t hp ht hk => exact fun _ u hu => hmove t (fun e => by cases e) u hk hu
  | beginOp _ t hp hk =>
      rw [LogState.beginOp]
      split_ifs with hwait
      · exact fun _ _ _ => hwait
      · intro _ u hu
        exact absurd (hmove t (fun e => by cases e) u hk hu) hwait
  | logCheck _ t w b data hp hw hb hfs hk =>
      rw [LogState.logCheck]
      split_ifs
      · exact fun hk' => by cases hk'
      · exact fun _ u hu => hmove t (fun e => by cases e) u hk hu
  | logWrite _ t w b data hp hk =>
      intro _ u hu
      rcases hmove t (fun e => by cases e) u hk hu with hc | hlt
      · exact Or.inl hc
      · refine Or.inr (hlt.trans_le (Nat.add_le_add_right ?_ _))
        dsimp only [LogState.logWrite]
        rw [absorb]
        split_ifs <;> simp
  | endOp _ t w hp hk =>
      rw [LogState.endOp]
      by_cases hc : s.committing = true
      · rw [if_pos hc]
        exact fun hk' => by cases hk'
      rw [if_neg hc]
      by_cases hlast : s.outstanding - 1 = 0
      · rw [if_pos hlast]
        exact fun _ _ _ => Or.inl rfl
      · rw [if_neg hlast]
        exact sleepInv_wakeup
  | work _ ht hk =>
      obtain ⟨hproc, -, hcom, hpanic⟩ := @LogState.work_frame ι start s
      intro _ u hu
      rw [hproc] at hu
      rcases Task.busy ht with hc | hr
      · refine Or.inl ?_
        rw [hcom, hi.task, hc]
      · rw [hi.recovering hr u] at hu
        cases hu
  | endCommit _ t hp ht hk => exact sleepInv_wakeup
  | crash => exact fun _ u hu => by cases hu

/-- **No lost wake-up at the log.**  Whoever sleeps in `begin_op` has to: a commit is under way,
or the operations that are would not leave room for another one.  And someone is left to wake the
sleeper: a process that commits, or one in an operation, whose `end_op` does. -/
theorem asleep_has_waker (hk : k ≤ maxOpBlocks) (h : (logSystem start size k).Reachable s)
    (hpanic : s.panicked = false) (ht : s.proc t = .asleep) :
    s.mustWait ∧ ∃ u, s.proc u = .commit ∨ ∃ w, (s.proc u).written = some w := by
  have hi := procInv_of_reachable hk h
  have hsleep : SleepInv s := by
    refine h.invariant ?_ ?_
    · rintro _ ⟨s₀, -, rfl⟩ _ u hu
      cases hu
    · rintro s s' hr hs ⟨_, hstep⟩
      exact hs.step (procInv_of_reachable hk hr) hstep
  have hwait := hsleep hpanic t ht
  refine ⟨hwait, ?_⟩
  by_contra hno
  push Not at hno
  -- with nobody in an operation or a commit the header is empty, and there is room
  have hout : s.outstanding = 0 := by
    rw [← hi.count]
    refine Finset.sum_eq_zero fun u _ => ?_
    rw [LogProc.ops, Option.eq_none_iff_forall_ne_some.mpr (hno u).2]
    rfl
  have hcom : s.committing = false := by
    have hsum : ∑ u, (s.proc u).commits = 0 :=
      Finset.sum_eq_zero fun u _ => LogProc.commits_eq_zero (hno u).1
    have hc := hi.committer
    rw [hsum] at hc
    by_contra hne
    rw [if_pos (by simpa using hne)] at hc
    cases hc
  have hrec : s.task.recovering = false := by
    rw [← Bool.not_eq_true]
    intro hr
    rw [hi.recovering hr t] at ht
    cases ht
  rw [LogState.mustWait, hcom, hi.empty hrec hcom hout, hout] at hwait
  exact absurd hwait (by decide)

omit [Fintype ι] in
/-- `A` ends the only operation and commits, `B` comes meanwhile and has to wait. -/
theorem exists_asleep (hAB : A ≠ B) : ∃ s : LogState ι, (logSystem start size k).Reachable s ∧
    s.panicked = false ∧ s.proc B = .asleep := by
  obtain ⟨s, hs⟩ := @exists_stage ι _ start size k A B hAB
  have hlh : s.lh = [] := hs.lh
  have h₁ : (logSystem start size k).step s (s.endOp A) :=
    ⟨_, .endOp s A [] hs.procA hs.panicked⟩
  rw [LogState.endOp, if_neg (by rw [hs.committing]; decide), hs.outstanding, if_pos rfl, hlh,
    if_pos rfl] at h₁
  have hB : Function.update s.proc A .commit B = .idle := by
    rw [Function.update_of_ne hAB.symm, hs.procB]
  have h₂ := (hs.reach.next h₁).next ⟨_, .call _ B hB rfl hs.panicked⟩
  have h₃ := h₂.next ⟨_, .beginOp _ B (Function.update_self ..) hs.panicked⟩
  rw [LogState.beginOp, if_pos (show LogState.mustWait _ from Or.inl rfl)] at h₃
  exact ⟨_, h₃, hs.panicked, Function.update_self ..⟩

/-- Two processes, one of them asleep. -/
theorem asleep_has_waker_two : ∃ s : LogState (Fin 2), s.proc 1 = .asleep ∧
    s.mustWait ∧ ∃ u, s.proc u = .commit ∨ ∃ w, (s.proc u).written = some w := by
  obtain ⟨s, hr, hpanic, hs⟩ := @exists_asleep (Fin 2) _ 2 30 9 0 1 (by decide)
  exact ⟨s, hs, asleep_has_waker (by decide) hr hpanic hs⟩

end SystemsPortfolio.Xv6
