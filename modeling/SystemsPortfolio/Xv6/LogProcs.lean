/-
SystemsPortfolio/Xv6/LogProcs.lean

The processes at the log: how much of it is promised to the operations under way, who
commits, and who waits.

`begin_op` admits an operation only if the log has room for `MAXOPBLOCKS` blocks of each
operation under way and of the new one.  `ProcInv` carries what follows over all steps.
With operations that change at most `k` blocks the header never lists more than
`logPeak k` of them.
-/
import Mathlib.Algebra.BigOperators.Ring.Finset
import SystemsPortfolio.Lib.Threads
import SystemsPortfolio.Xv6.Log

namespace SystemsPortfolio.Xv6

open RedoLog Transition Threads

variable {ι : Type} [DecidableEq ι] {start size k : Nat} {s s' : LogState ι} {t u : ι}

/-! ### What a process holds -/

/-- The blocks a process has changed in its operation. -/
def LogProc.written : LogProc → Option (List Nat)
  | .inOp w | .logging w _ _ => some w
  | _ => none

/-- One for a process in an operation. -/
def LogProc.ops (p : LogProc) : Nat := if p.written.isSome then 1 else 0

/-- How many more blocks the operation of a process may change. -/
def LogProc.left (k : Nat) (p : LogProc) : Nat :=
  match p.written with
  | some w => k - w.length
  | none => 0

/-- One for the process that commits. -/
def LogProc.commits : LogProc → Nat
  | .commit => 1
  | _ => 0

theorem LogProc.left_le (k : Nat) (p : LogProc) : p.left k ≤ k * p.ops := by
  rcases p with _ | _ | _ | w | ⟨w, b, data⟩ | _ <;> simp [left, ops, written]

theorem LogProc.commits_eq_zero {p : LogProc} (h : p ≠ .commit) : p.commits = 0 := by
  rcases p with _ | _ | _ | w | ⟨w, b, data⟩ | _
  all_goals first | rfl | exact absurd rfl h

/-- The process after `wakeup(&log)`. -/
def LogProc.awake : LogProc → LogProc
  | .asleep => .begin
  | p => p

omit [DecidableEq ι] in
theorem LogState.wakeup_proc (s : LogState ι) (t : ι) : s.wakeup.proc t = (s.proc t).awake := by
  show (match s.proc t with
    | .asleep => LogProc.begin
    | p => p) = _
  rcases s.proc t with _ | _ | _ | w | ⟨w, b, data⟩ | _ <;> rfl

@[simp] theorem LogProc.awake_written (p : LogProc) : p.awake.written = p.written := by
  cases p <;> rfl

@[simp] theorem LogProc.awake_ops (p : LogProc) : p.awake.ops = p.ops := by
  rw [ops, ops, awake_written]

@[simp] theorem LogProc.awake_left (p : LogProc) : p.awake.left k = p.left k := by
  rw [left, left, awake_written]

@[simp] theorem LogProc.awake_commits (p : LogProc) : p.awake.commits = p.commits := by
  cases p <;> rfl

theorem LogProc.awake_ne_asleep (p : LogProc) : p.awake ≠ .asleep := by
  cases p <;> simp [awake]

theorem LogProc.awake_eq_logging {w : List Nat} {b : Nat} {data : Block} {p : LogProc}
    (h : p.awake = .logging w b data) : p = .logging w b data := by
  cases p <;> simp_all [awake]

/-! ### The invariant -/

/-- The most blocks that a header ever lists: two operations can be under way when it has
`LOGSIZE - 2 * MAXOPBLOCKS` already. -/
def logPeak (k : Nat) : Nat := logSize - 2 * maxOpBlocks + 2 * k

/-- Tasks of a commit. -/
def Task.ofCommit : Task → Bool
  | .writeLog _ | .writeHead | .install _ | .clear | .done => true
  | _ => false

/-- The processes and the header fit together. -/
structure ProcInv [Fintype ι] (k : Nat) (s : LogState ι) : Prop where
  count : ∑ t, (s.proc t).ops = s.outstanding
  committer : ∑ t, (s.proc t).commits = if s.committing then 1 else 0
  listed : ∀ t w, (s.proc t).written = some w → ∀ b ∈ w, b ∈ s.lh
  bound : ∀ t w, (s.proc t).written = some w → w.length ≤ k
  logging : ∀ t w b data, s.proc t = .logging w b data → (absorb w b).length ≤ k
  task : s.committing = s.task.ofCommit
  quiet : s.committing = true ∨ s.task.recovering = true → s.outstanding = 0
  empty : s.task.recovering = false → s.committing = false → s.outstanding = 0 → s.lh = []
  cleared : s.task = .clear ∨ s.task = .done ∨ s.task = .reclear → s.lh = []
  room : s.task.recovering = false → s.lh.length + ∑ t, (s.proc t).left k ≤ logPeak k
  recovering : s.task.recovering = true → ∀ t, s.proc t = .idle

/-! ### The block writes of a commit or of recovery -/

section work

omit [DecidableEq ι]

theorem Task.busy {task : Task} (h : task ≠ .none ∧ task ≠ .done) :
    task.ofCommit = true ∨ task.recovering = true := by
  rcases task with _ | tail | _ | tail | _ | _ | _ | tail | _ <;>
    simp_all [Task.ofCommit, Task.recovering]

/-- The processes do not move. -/
theorem LogState.work_frame : (s.work start).proc = s.proc ∧
    (s.work start).outstanding = s.outstanding ∧ (s.work start).committing = s.committing ∧
    (s.work start).panicked = s.panicked := by
  unfold LogState.work
  split <;> try split_ifs
  all_goals exact ⟨rfl, rfl, rfl, rfl⟩

/-- A commit goes on until `endCommit`. -/
theorem LogState.work_ofCommit : (s.work start).task.ofCommit = s.task.ofCommit := by
  unfold LogState.work
  split <;> try split_ifs
  all_goals simp [*, Task.ofCommit]

theorem LogState.work_recovering (h : (s.work start).task.recovering = true) :
    s.task.recovering = true := by
  revert h
  unfold LogState.work
  split <;> try split_ifs
  all_goals simp_all [Task.recovering]

/-- The header is empty before the task that clears it on the disk. -/
theorem LogState.work_cleared (h : s.task = .clear ∨ s.task = .done ∨ s.task = .reclear → s.lh = [])
    (h' : (s.work start).task = .clear ∨ (s.work start).task = .done ∨
      (s.work start).task = .reclear) : (s.work start).lh = [] := by
  revert h'
  unfold LogState.work
  split <;> try split_ifs
  all_goals simp_all [LogState.bwrite]

/-- Outside recovery the header is kept or emptied. -/
theorem LogState.work_lh (h : s.task = .clear ∨ s.task = .done ∨ s.task = .reclear → s.lh = [])
    (h' : (s.work start).task.recovering = false) :
    (s.work start).lh = [] ∨ (s.work start).lh = s.lh ∧ s.task.recovering = false := by
  revert h'
  unfold LogState.work
  split <;> try split_ifs
  all_goals simp_all [LogState.bwrite, Task.recovering]

/-- When a task is over, so is the header. -/
theorem LogState.work_over (h : s.task = .clear ∨ s.task = .done ∨ s.task = .reclear → s.lh = [])
    (ht : s.task ≠ .none) (h' : (s.work start).task.ofCommit = false) :
    (s.work start).lh = [] ∨ (s.work start).task.recovering = true := by
  revert h'
  unfold LogState.work
  split <;> try split_ifs
  all_goals simp_all [LogState.bwrite, Task.recovering, Task.ofCommit]

end work

/-! ### One step -/

section Fintype

variable [Fintype ι]

/-- A process moves without changing what it holds. -/
theorem ProcInv.move {p : LogProc} (h : ProcInv k s) (hw : p.written = (s.proc t).written)
    (hc : p.commits = (s.proc t).commits) (hrec : s.task.recovering = false)
    (hlog : ∀ w b data, p = .logging w b data → (absorb w b).length ≤ k) :
    ProcInv k { s with proc := Function.update s.proc t p } := by
  have hops := sum_update LogProc.ops s.proc t p
  have hleft := sum_update (LogProc.left k) s.proc t p
  have hcom := sum_update LogProc.commits s.proc t p
  rw [LogProc.ops, LogProc.ops, hw] at hops
  rw [LogProc.left, LogProc.left, hw] at hleft
  have hwritten (u : ι) : (Function.update s.proc t p u).written = (s.proc u).written := by
    rcases eq_or_ne u t with rfl | hu
    · rw [Function.update_self, hw]
    · rw [Function.update_of_ne hu]
  refine { h with
    count := ?_, committer := ?_, listed := ?_, bound := ?_, logging := ?_, room := ?_,
    recovering := ?_ }
  · have := h.count
    dsimp only at hops ⊢
    omega
  · have := h.committer
    dsimp only at hcom ⊢
    omega
  · intro u w hu
    rw [hwritten] at hu
    exact h.listed u w hu
  · intro u w hu
    rw [hwritten] at hu
    exact h.bound u w hu
  · intro u w b data hu
    dsimp only at hu
    rcases eq_or_ne u t with rfl | hut
    · exact hlog w b data (by rwa [Function.update_self] at hu)
    · exact h.logging u w b data (by rwa [Function.update_of_ne hut] at hu)
  · intro _
    have := h.room hrec
    dsimp only at hleft ⊢
    omega
  · intro hr
    rw [show s.task.recovering = true from hr] at hrec
    cases hrec

omit [DecidableEq ι] in
theorem ProcInv.outstanding_pos {w : List Nat} (h : ProcInv k s)
    (hw : (s.proc t).written = some w) : 0 < s.outstanding := by
  have hone : (s.proc t).ops = 1 := by
    rw [LogProc.ops, hw]
    rfl
  have hle := Finset.single_le_sum (fun u _ => Nat.zero_le (s.proc u).ops) (Finset.mem_univ t)
  rw [h.count, hone] at hle
  exact hle

omit [DecidableEq ι] in
theorem ProcInv.written_none (h : ProcInv k s) (h₀ : s.outstanding = 0) (t : ι) :
    (s.proc t).written = none := by
  rcases hw : (s.proc t).written with - | w
  · rfl
  · have := h.outstanding_pos hw
    omega

omit [DecidableEq ι] in
theorem ProcInv.sum_left_le (h : ProcInv k s) : ∑ t, (s.proc t).left k ≤ k * s.outstanding := by
  rw [← h.count, Finset.mul_sum]
  exact Finset.sum_le_sum fun t _ => LogProc.left_le k (s.proc t)

omit [DecidableEq ι] in
/-- A process in an operation is neither in a commit nor in recovery. -/
theorem ProcInv.calm {w : List Nat} (h : ProcInv k s) (hw : (s.proc t).written = some w) :
    s.committing = false ∧ s.task.recovering = false := by
  have hpos := h.outstanding_pos hw
  rw [← Bool.not_eq_true, ← Bool.not_eq_true, ← not_or]
  intro hor
  have := h.quiet hor
  omega

omit [DecidableEq ι] in
theorem ProcInv.panic (h : ProcInv k s) : ProcInv k { s with panicked := true } :=
  { h with }

/-- A process is let in. -/
theorem ProcInv.admit (h : ProcInv k s) (hk : k ≤ maxOpBlocks) (hp : s.proc t = .begin)
    (hroom : ¬ s.mustWait) :
    ProcInv k { s with
      outstanding := s.outstanding + 1
      proc := Function.update s.proc t (.inOp []) } := by
  have hcom : s.committing = false := by
    rw [← Bool.not_eq_true]
    exact fun hc => hroom (Or.inl hc)
  have hfit : s.lh.length + (s.outstanding + 1) * maxOpBlocks ≤ logSize :=
    not_lt.mp fun hlt => hroom (Or.inr hlt)
  have hrec : s.task.recovering = false := by
    rw [← Bool.not_eq_true]
    intro hr
    rw [h.recovering hr t] at hp
    cases hp
  have hops := sum_update LogProc.ops s.proc t (.inOp [])
  have hleft := sum_update (LogProc.left k) s.proc t (.inOp [])
  have hcoms := sum_update LogProc.commits s.proc t (.inOp [])
  rw [hp] at hops hleft hcoms
  have hnew (u : ι) (w : List Nat) (hu : (Function.update s.proc t (.inOp []) u).written = some w) :
      w = [] ∨ (s.proc u).written = some w := by
    rcases eq_or_ne u t with rfl | hut
    · rw [Function.update_self] at hu
      exact Or.inl (Option.some.inj hu).symm
    · rw [Function.update_of_ne hut] at hu
      exact Or.inr hu
  refine ⟨?_, ?_, fun u w hu b hb => ?_, fun u w hu => ?_, fun u w b data hu => ?_, h.task,
    fun hor => ?_, fun _ _ h₀ => ?_, h.cleared, fun _ => ?_, fun hr => ?_⟩
  · have := h.count
    have h₁ : (LogProc.inOp []).ops = 1 := rfl
    have h₂ : LogProc.begin.ops = 0 := rfl
    dsimp only
    omega
  · have := h.committer
    have h₁ : (LogProc.inOp []).commits = 0 := rfl
    have h₂ : LogProc.begin.commits = 0 := rfl
    dsimp only
    omega
  · rcases hnew u w hu with rfl | hw
    · cases hb
    · exact h.listed u w hw b hb
  · rcases hnew u w hu with rfl | hw
    · exact Nat.zero_le k
    · exact h.bound u w hw
  · dsimp only at hu
    rcases eq_or_ne u t with rfl | hut
    · rw [Function.update_self] at hu
      cases hu
    · rw [Function.update_of_ne hut] at hu
      exact h.logging u w b data hu
  · dsimp only at hor
    rw [hcom, hrec] at hor
    simp at hor
  · cases h₀
  · -- at most two were under way, and if none was the header is empty
    have h₁ : (LogProc.inOp []).left k = k := rfl
    have h₂ : LogProc.begin.left k = 0 := rfl
    have hsum := h.sum_left_le
    have hempty := h.empty hrec hcom
    dsimp only [maxOpBlocks, logSize] at hfit hk
    dsimp only [logPeak, logSize, maxOpBlocks]
    have hout : s.outstanding ≤ 2 := by omega
    rcases Nat.eq_zero_or_pos s.outstanding with h₀ | hpos
    · rw [h₀, Nat.mul_zero] at hsum
      rw [hempty h₀, List.length_nil]
      omega
    · have hcases : s.outstanding = 1 ∨ s.outstanding = 2 := by omega
      rcases hcases with h₀ | h₀
      · rw [h₀] at hsum hfit
        omega
      · rw [h₀] at hsum hfit
        omega
  · rw [show s.task.recovering = true from hr] at hrec
    cases hrec

/-- A block is listed. -/
theorem ProcInv.logWrite {w : List Nat} {b : Nat} {data : Block} (h : ProcInv k s)
    (hp : s.proc t = .logging w b data) : ProcInv k (s.logWrite t w b data) := by
  have hwt : (s.proc t).written = some w := by rw [hp]; rfl
  obtain ⟨hcom, hrec⟩ := h.calm hwt
  have hpos := h.outstanding_pos hwt
  have hlen := h.logging t w b data hp
  have hops := sum_update LogProc.ops s.proc t (.inOp (absorb w b))
  have hleft := sum_update (LogProc.left k) s.proc t (.inOp (absorb w b))
  have hcoms := sum_update LogProc.commits s.proc t (.inOp (absorb w b))
  rw [hp] at hops hleft hcoms
  have hnew (u : ι) (v : List Nat)
      (hu : (Function.update s.proc t (.inOp (absorb w b)) u).written = some v) :
      v = absorb w b ∨ (s.proc u).written = some v := by
    rcases eq_or_ne u t with rfl | hut
    · rw [Function.update_self] at hu
      exact Or.inl (Option.some.inj hu).symm
    · rw [Function.update_of_ne hut] at hu
      exact Or.inr hu
  refine ⟨?_, ?_, fun u v hu c hc => ?_, fun u v hu => ?_, fun u v c d hu => ?_, h.task, h.quiet,
    fun _ _ h₀ => ?_, fun htask => ?_, fun _ => ?_, fun hr => ?_⟩
  · have := h.count
    have h₁ : (LogProc.inOp (absorb w b)).ops = 1 := rfl
    have h₂ : (LogProc.logging w b data).ops = 1 := rfl
    dsimp only [LogState.logWrite]
    omega
  · refine Eq.trans ?_ h.committer
    have h₁ : (LogProc.inOp (absorb w b)).commits = 0 := rfl
    have h₂ : (LogProc.logging w b data).commits = 0 := rfl
    dsimp only [LogState.logWrite]
    omega
  · rw [LogState.logWrite, mem_absorb]
    rcases hnew u v hu with rfl | hv
    · rcases mem_absorb.mp hc with hc | rfl
      · exact Or.inl (h.listed t w hwt c hc)
      · exact Or.inr rfl
    · exact Or.inl (h.listed u v hv c hc)
  · rcases hnew u v hu with rfl | hv
    · exact hlen
    · exact h.bound u v hv
  · dsimp only [LogState.logWrite] at hu
    rcases eq_or_ne u t with rfl | hut
    · rw [Function.update_self] at hu
      cases hu
    · rw [Function.update_of_ne hut] at hu
      exact h.logging u v c d hu
  · have : s.outstanding = 0 := h₀
    omega
  · -- no commit and no recovery is under way
    have hboth := h.task
    rw [hcom] at hboth
    dsimp only [LogState.logWrite] at htask
    rcases htask with e | e | e
    · rw [e] at hboth
      cases hboth
    · rw [e] at hboth
      cases hboth
    · rw [e] at hrec
      cases hrec
  · have hr := h.room hrec
    have h₁ : (LogProc.inOp (absorb w b)).left k = k - (absorb w b).length := rfl
    have h₂ : (LogProc.logging w b data).left k = k - w.length := rfl
    dsimp only [LogState.logWrite]
    by_cases hb : b ∈ s.lh
    · have hge : w.length ≤ (absorb w b).length := by
        rw [absorb]
        split_ifs <;> simp
      rw [absorb_of_mem hb]
      omega
    · -- a block that is new in the header is new in the operation
      have hbw : b ∉ w := fun hbw => hb (h.listed t w hwt b hbw)
      have hw : (absorb w b).length = w.length + 1 := by
        rw [absorb, if_neg hbw, List.length_append, List.length_singleton]
      have hl := @length_absorb_le b s.lh
      omega
  · rw [show s.task.recovering = true from hr] at hrec
    cases hrec

omit [DecidableEq ι] in
/-- What the processes hold does not depend on who sleeps. -/
theorem ProcInv.wakeup (h : ProcInv k s) : ProcInv k s.wakeup := by
  refine ⟨?_, ?_, fun t w hw => ?_, fun t w hw => ?_, fun t w b data hp => ?_, h.task, h.quiet,
    h.empty, h.cleared, fun hrec => ?_, fun hrec t => ?_⟩
  · simp only [LogState.wakeup_proc, LogProc.awake_ops]
    exact h.count
  · simp only [LogState.wakeup_proc, LogProc.awake_commits]
    exact h.committer
  · rw [LogState.wakeup_proc, LogProc.awake_written] at hw
    exact h.listed t w hw
  · rw [LogState.wakeup_proc, LogProc.awake_written] at hw
    exact h.bound t w hw
  · rw [LogState.wakeup_proc] at hp
    exact h.logging t w b data (LogProc.awake_eq_logging hp)
  · simp only [LogState.wakeup_proc, LogProc.awake_left]
    exact h.room hrec
  · rw [LogState.wakeup_proc, h.recovering hrec t]
    rfl

/-- A process leaves its operation; `p` is what it does next. -/
theorem ProcInv.leave {p : LogProc} {w : List Nat} {task : Task} {committing : Bool}
    (h : ProcInv k s) (hp : s.proc t = .inOp w) (hw : p.written = none)
    (hcom : p.commits = if committing then 1 else 0) (htask : committing = task.ofCommit)
    (hlast : committing = decide (s.outstanding = 1)) (hrec : task.recovering = false)
    (hclear : task = .clear ∨ task = .done ∨ task = .reclear → s.lh = []) :
    ProcInv k { s with
      outstanding := s.outstanding - 1
      committing := committing
      task := task
      proc := Function.update s.proc t p } := by
  have hwt : (s.proc t).written = some w := by rw [hp]; rfl
  obtain ⟨hcom₀, hrec₀⟩ := h.calm hwt
  have hpos := h.outstanding_pos hwt
  have hops := sum_update LogProc.ops s.proc t p
  have hleft := sum_update (LogProc.left k) s.proc t p
  have hcoms := sum_update LogProc.commits s.proc t p
  have h₁ : p.ops = 0 := by rw [LogProc.ops, hw]; rfl
  have h₂ : p.left k = 0 := by rw [LogProc.left, hw]
  rw [hp, h₁] at hops
  rw [hp, h₂] at hleft
  rw [hp, hcom] at hcoms
  have hold (u : ι) (v : List Nat) (hu : (Function.update s.proc t p u).written = some v) :
      (s.proc u).written = some v := by
    rcases eq_or_ne u t with rfl | hut
    · rw [Function.update_self, hw] at hu
      cases hu
    · rwa [Function.update_of_ne hut] at hu
  refine ⟨?_, ?_, fun u v hu => ?_, fun u v hu => ?_, fun u v b data hu => ?_, htask, fun hor => ?_,
    fun _ hc h₀ => ?_, hclear, fun _ => ?_, fun hr => ?_⟩
  · have := h.count
    have h₃ : (LogProc.inOp w).ops = 1 := rfl
    dsimp only
    omega
  · have := h.committer
    rw [hcom₀] at this
    have h₃ : (LogProc.inOp w).commits = 0 := rfl
    have h₄ : (if false = true then 1 else 0) = 0 := rfl
    dsimp only at hcoms ⊢
    omega
  · exact h.listed u v (hold u v hu)
  · exact h.bound u v (hold u v hu)
  · dsimp only at hu
    rcases eq_or_ne u t with rfl | hut
    · rw [Function.update_self] at hu
      rw [hu] at hw
      cases hw
    · rw [Function.update_of_ne hut] at hu
      exact h.logging u v b data hu
  · dsimp only at hor ⊢
    rw [hrec] at hor
    have hc := hor.resolve_right (by decide)
    rw [hlast, decide_eq_true_iff] at hc
    omega
  · dsimp only at hc h₀
    rw [hlast, decide_eq_false_iff_not] at hc
    omega
  · have := h.room hrec₀
    dsimp only
    omega
  · rw [show task.recovering = true from hr] at hrec
    cases hrec

theorem ProcInv.endOp {w : List Nat} (h : ProcInv k s) (hp : s.proc t = .inOp w) :
    ProcInv k (s.endOp t) := by
  have hwt : (s.proc t).written = some w := by rw [hp]; rfl
  obtain ⟨hcom, hrec⟩ := h.calm hwt
  have hpos := h.outstanding_pos hwt
  have htask := h.task
  rw [LogState.endOp, if_neg (by rw [hcom]; decide)]
  by_cases hlast : s.outstanding - 1 = 0
  · rw [if_pos hlast]
    by_cases hlh : s.lh = []
    · rw [if_pos hlh]
      refine h.leave hp rfl rfl rfl ?_ rfl fun _ => hlh
      exact (decide_eq_true (by omega)).symm
    · rw [if_neg hlh]
      refine h.leave hp rfl rfl rfl ?_ rfl fun hor => ?_
      · exact (decide_eq_true (by omega)).symm
      · rcases hor with e | e | e <;> cases e
  · rw [if_neg hlast]
    refine (@ProcInv.leave ι _ k s t _ .idle w s.task s.committing h hp rfl ?_ htask ?_ hrec
      h.cleared).wakeup
    · rw [hcom]
      rfl
    · rw [hcom]
      exact (decide_eq_false (by omega)).symm

omit [DecidableEq ι] in
/-- Block writes of a commit or of recovery: no operation is under way, and the header is kept
or emptied. -/
theorem ProcInv.atWork {s' : LogState ι} (h : ProcInv k s)
    (hold : s.task.ofCommit = true ∨ s.task.recovering = true)
    (hproc : s'.proc = s.proc) (hout : s'.outstanding = s.outstanding)
    (hcom : s'.committing = s.committing) (htask : s'.task.ofCommit = s.task.ofCommit)
    (hrec : s'.task.recovering = true → s.task.recovering = true)
    (hlh : s'.task.recovering = false → s'.lh = [] ∨ s'.lh = s.lh ∧ s.task.recovering = false)
    (hclear : s'.task = .clear ∨ s'.task = .done ∨ s'.task = .reclear → s'.lh = [])
    (hnone : s'.task.ofCommit = false → s'.lh = [] ∨ s'.task.recovering = true) : ProcInv k s' := by
  have h₀ : s.outstanding = 0 := by
    refine h.quiet (hold.imp_left fun hc => ?_)
    rw [h.task, hc]
  have hnow (t : ι) (w : List Nat) : (s'.proc t).written ≠ some w := by
    rw [hproc, h.written_none h₀ t]
    exact fun e => by cases e
  refine ⟨?_, ?_, fun t w hw => absurd hw (hnow t w), fun t w hw => absurd hw (hnow t w),
    fun t w b data hp => ?_, ?_, fun _ => by rw [hout, h₀], fun hr hc _ => ?_, hclear, fun hr => ?_,
    fun hr t => ?_⟩
  · rw [hproc, hout]
    exact h.count
  · rw [hproc, hcom]
    exact h.committer
  · refine absurd ?_ (hnow t w)
    rw [hp]
    rfl
  · rw [hcom, htask]
    exact h.task
  · rw [hcom, h.task, ← htask] at hc
    rcases hnone hc with e | e
    · exact e
    · rw [e] at hr
      cases hr
  · have hsum := h.sum_left_le
    rw [h₀, Nat.mul_zero] at hsum
    rw [hproc]
    rcases hlh hr with e | ⟨e, hr₀⟩
    · rw [e, List.length_nil]
      omega
    · rw [e]
      exact h.room hr₀
  · rw [hproc]
    exact h.recovering (hrec hr) t

omit [DecidableEq ι] in
theorem ProcInv.work (h : ProcInv k s) (ht : s.task ≠ .none ∧ s.task ≠ .done) :
    ProcInv k (s.work start) := by
  obtain ⟨hproc, hout, hcom, -⟩ := @LogState.work_frame ι start s
  refine h.atWork (Task.busy ht) hproc hout hcom LogState.work_ofCommit LogState.work_recovering ?_ ?_ ?_
  · exact LogState.work_lh h.cleared
  · exact LogState.work_cleared h.cleared
  · exact LogState.work_over h.cleared ht.1

theorem ProcInv.endCommit (h : ProcInv k s) (hp : s.proc t = .commit) (ht : s.task = .done) :
    ProcInv k (s.endCommit t) := by
  have hlh := h.cleared (Or.inr (Or.inl ht))
  have hcom : s.committing = true := by rw [h.task, ht]; rfl
  have h₀ := h.quiet (Or.inl hcom)
  have hnone := h.written_none h₀
  have hops := sum_update LogProc.ops s.proc t .idle
  have hleft := sum_update (LogProc.left k) s.proc t .idle
  have hcoms := sum_update LogProc.commits s.proc t .idle
  rw [hp] at hops hleft hcoms
  have hnow (u : ι) (w : List Nat) : (Function.update s.proc t .idle u).written ≠ some w := by
    rcases eq_or_ne u t with rfl | hut
    · rw [Function.update_self]
      exact fun e => by cases e
    · rw [Function.update_of_ne hut, hnone u]
      exact fun e => by cases e
  rw [LogState.endCommit]
  refine ProcInv.wakeup ⟨?_, ?_, fun u w hu => absurd hu (hnow u w), fun u w hu => absurd hu (hnow u w),
    fun u w b data hu => ?_, rfl, fun _ => h₀, fun _ _ _ => hlh, fun _ => hlh, fun _ => ?_,
    fun hr => by cases hr⟩
  · have := h.count
    have h₁ : LogProc.commit.ops = 0 := rfl
    have h₂ : LogProc.idle.ops = 0 := rfl
    dsimp only
    omega
  · have := h.committer
    rw [hcom] at this
    have h₁ : LogProc.commit.commits = 1 := rfl
    have h₂ : LogProc.idle.commits = 0 := rfl
    have h₃ : (if true = true then 1 else 0) = 1 := rfl
    have h₄ : (if false = true then 1 else 0) = 0 := rfl
    dsimp only
    omega
  · refine absurd ?_ (hnow u w)
    rw [show Function.update s.proc t .idle u = _ from hu]
    rfl
  · have := h.sum_left_le
    rw [h₀, Nat.mul_zero] at this
    have h₁ : LogProc.commit.left k = 0 := rfl
    have h₂ : LogProc.idle.left k = 0 := rfl
    dsimp only
    rw [hlh, List.length_nil]
    omega

omit [DecidableEq ι] in
theorem procInv_crash (s : LogState ι) : ProcInv k s.crash where
  count := Finset.sum_eq_zero fun _ _ => rfl
  committer := Finset.sum_eq_zero fun _ _ => rfl
  listed t w hw := by cases hw
  bound t w hw := by cases hw
  logging t w b data hp := by cases hp
  task := rfl
  quiet _ := rfl
  empty hr := by cases hr
  cleared hor := by rcases hor with e | e | e <;> cases e
  room hr := by cases hr
  recovering _ _ := rfl

/-- The step lemma. -/
theorem ProcInv.step {act : Option (LogAct ι)} (hk : k ≤ maxOpBlocks) (h : ProcInv k s)
    (hs : LogStep start size k act s s') : ProcInv k s' := by
  cases hs with
  | call _ t hp ht =>
      refine h.move ?_ ?_ ht fun w b data e => by cases e
      · rw [hp]
        rfl
      · rw [hp]
        rfl
  | beginOp _ t hp =>
      rw [LogState.beginOp]
      split_ifs with hwait
      · refine h.move ?_ ?_ ?_ fun w b data e => by cases e
        · rw [hp]
          rfl
        · rw [hp]
          rfl
        · rw [← Bool.not_eq_true]
          intro hr
          rw [h.recovering hr t] at hp
          cases hp
      · exact h.admit hk hp hwait
  | logCheck _ t w b data hp hw =>
      have hwt : (s.proc t).written = some w := by rw [hp]; rfl
      rw [LogState.logCheck]
      split_ifs
      · exact h.panic
      · refine h.move (by rw [hwt]; rfl) ?_ (h.calm hwt).2 fun w' b' data' e => ?_
        · rw [hp]
          rfl
        · cases e
          exact hw
  | logWrite _ t w b data hp => exact h.logWrite hp
  | endOp _ t w hp => exact h.endOp hp
  | work _ ht => exact h.work ht
  | endCommit _ t hp ht => exact h.endCommit hp ht
  | crash => exact procInv_crash s

theorem procInv_of_reachable (hk : k ≤ maxOpBlocks)
    (h : (logSystem start size k).Reachable s) : ProcInv k s := by
  refine h.invariant ?_ ?_
  · rintro _ ⟨s₀, -, rfl⟩
    exact procInv_crash s₀
  · rintro s s' - hi ⟨_, hs⟩
    exact hi.step hk hs

end Fintype

end SystemsPortfolio.Xv6
