/-
SystemsPortfolio/Stcf/Picker.lean

What the two passes of `scheduler` choose.  A pass is a selection with the order "less
time left, then the higher pid"; the first one leaves out the processes that `give_cpu`
has marked, by their flag `skip_once` or by `skip_target`, and the second one takes them
in when nobody else is runnable.  When no two runnable processes share a pid there is one
choice (`pick_eq_some_iff`), and it does not depend on the order of the slots.
-/
import SystemsPortfolio.Stcf.Proc
import SystemsPortfolio.Lib.Selection

namespace SystemsPortfolio.Stcf

open Selection

variable {C : Type*}

/-! ### The order -/

theorem better_iff {p q : Proc} : better p q = true ↔
    p.tRemain.toInt < q.tRemain.toInt
      ∨ p.tRemain.toInt = q.tRemain.toInt ∧ q.pid.toInt < p.pid.toInt := by
  rw [better, Bool.or_eq_true, Bool.and_eq_true, BitVec.slt_iff_toInt_lt, beq_iff_eq,
    BitVec.slt_iff_toInt_lt, BitVec.toInt_inj]

theorem better_eq_false_iff {p q : Proc} : better p q = false ↔
    q.tRemain.toInt < p.tRemain.toInt
      ∨ p.tRemain.toInt = q.tRemain.toInt ∧ p.pid.toInt ≤ q.pid.toInt := by
  rw [← Bool.not_eq_true, better_iff]
  omega

theorem better_comparison (proc : Slot → Proc) :
    Comparison fun i b => better (proc i) (proc b) where
  asymm := by
    intro a b h
    rw [better_iff] at h
    rw [better_eq_false_iff]
    omega
  trans := by
    intro a b c hab hbc
    rw [better_eq_false_iff] at hab hbc ⊢
    omega

/-- Who is not better has at least as much time left. -/
theorem le_of_not_better {p q : Proc} (h : better p q = false) :
    q.tRemain.toInt ≤ p.tRemain.toInt := by
  rw [better_eq_false_iff] at h
  omega

/-- `p` has less time left than `q`, or as much and the higher pid. -/
def Before (p q : Proc) : Prop :=
  p.tRemain.toInt < q.tRemain.toInt
    ∨ p.tRemain.toInt = q.tRemain.toInt ∧ q.pid.toInt < p.pid.toInt

theorem before_of_not_better {p q : Proc} (h : better p q = false) (hpid : p.pid ≠ q.pid) :
    Before q p := by
  have hne : p.pid.toInt ≠ q.pid.toInt := fun e => hpid (BitVec.toInt_inj.mp e)
  rw [better_eq_false_iff] at h
  rw [Before]
  omega

theorem Before.asymm {p q : Proc} (h : Before p q) : ¬ Before q p := by
  rw [Before] at h ⊢
  omega

/-! ### The passes -/

/-- The process has asked to be skipped. -/
def Kernel.Marked (k : Kernel C) (i : Slot) : Prop :=
  (k.proc i).skipOnce = true ∨ k.skipTarget = some i

instance (k : Kernel C) (i : Slot) : Decidable (k.Marked i) :=
  inferInstanceAs (Decidable (_ ∨ _))

/-- Slot `b` is one of the slots in `Q` and none of these comes before it. -/
def Kernel.First (k : Kernel C) (Q : Slot → Prop) (b : Slot) : Prop :=
  IsBest (fun i b => better (k.proc i) (k.proc b)) Q b

theorem scan_eq (proc : Slot → Proc) (eligible : Slot → Bool) :
    scan proc eligible = (List.finRange nproc).foldl
      (keepBest eligible fun i b => better (proc i) (proc b)) none := by
  have h : consider proc eligible = keepBest eligible fun i b => better (proc i) (proc b) := by
    funext best i
    rcases best with - | b <;> rfl
  rw [scan, h]

theorem scan_spec (k : Kernel C) (Q : Slot → Prop) [DecidablePred Q] :
    (scan k.proc fun i => Q i) = none ∧ (∀ i, ¬ Q i)
      ∨ ∃ b, (scan k.proc fun i => Q i) = some b ∧ k.First Q b := by
  rw [scan_eq]
  rcases foldl_keepBest (better_comparison k.proc) (List.finRange nproc) with
    ⟨e, h⟩ | ⟨b, e, h, hbest⟩
  · exact .inl ⟨e, fun i => of_decide_eq_false (h i (List.mem_finRange i))⟩
  · refine .inr ⟨b, e, of_decide_eq_true h.2, fun i hi => ?_⟩
    exact hbest i ⟨List.mem_finRange i, decide_eq_true hi⟩

/-- The choice of `scheduler`: the first of the runnable processes that are not marked, or
the first of all when every one is, or none. -/
theorem pick_spec (k : Kernel C) :
    k.pick = none ∧ (∀ i, (k.proc i).state ≠ .runnable)
      ∨ ∃ b, k.pick = some b
        ∧ (k.First (fun i => (k.proc i).state = .runnable ∧ ¬ k.Marked i) b
          ∨ (∀ i, (k.proc i).state = .runnable → k.Marked i)
            ∧ k.First (fun i => (k.proc i).state = .runnable) b) := by
  rcases scan_spec k (fun i => (k.proc i).state = .runnable
    ∧ ¬ ((k.proc i).skipOnce = true ∨ k.skipTarget = some i)) with ⟨e, h⟩ | ⟨b, e, hb⟩
  · -- nobody but marked processes: the second pass decides
    have hall : ∀ i, (k.proc i).state = .runnable → k.Marked i := fun i hi =>
      not_not.1 fun hm => h i ⟨hi, hm⟩
    rcases scan_spec k (fun i => (k.proc i).state = .runnable) with ⟨e', h'⟩ | ⟨b, e', hb⟩
    · refine .inl ⟨?_, h'⟩
      rw [Kernel.pick, e, e']
    · refine .inr ⟨b, ?_, .inr ⟨hall, hb⟩⟩
      rw [Kernel.pick, e, e']
  · refine .inr ⟨b, ?_, .inl hb⟩
    rw [Kernel.pick, e]

/-- A process that is passed over while it is runnable and not marked does not come before
the one that is chosen. -/
theorem not_better_of_pick {k : Kernel C} {b i : Slot} (h : k.pick = some b)
    (hi : (k.proc i).state = .runnable) (hm : ¬ k.Marked i) :
    better (k.proc i) (k.proc b) = false := by
  rcases pick_spec k with ⟨e, -⟩ | ⟨b', e, hb⟩
  · exact absurd (e.symm.trans h) (by simp)
  · obtain rfl := Option.some.inj (e.symm.trans h)
    rcases hb with hb | ⟨hall, -⟩
    · exact hb.2 i ⟨hi, hm⟩
    · exact absurd (hall i hi) hm

/-- Among equals the pass keeps the one with the lower slot. -/
theorem better_of_scan {k : Kernel C} {Q : Slot → Prop} [DecidablePred Q] {b i : Slot}
    (h : (scan k.proc fun i => Q i) = some b) (hi : Q i) (hlt : i < b) :
    better (k.proc b) (k.proc i) = true := by
  rw [scan_eq] at h
  obtain ⟨l₁, l₂, hl, hfirst⟩ := foldl_keepBest_first (better_comparison k.proc) _ h
  have hsorted := List.pairwise_lt_finRange nproc
  rw [hl, List.pairwise_append, List.pairwise_cons] at hsorted
  have hmem : i ∈ l₁ ++ b :: l₂ := hl ▸ List.mem_finRange i
  refine hfirst i ?_ (decide_eq_true hi)
  rcases List.mem_append.mp hmem with h₁ | h₂
  · exact h₁
  · rcases List.mem_cons.mp h₂ with rfl | h₂
    · exact absurd hlt (lt_irrefl i)
    · exact absurd (hsorted.2.1.1 i h₂) (lt_asymm hlt)

/-- A process that is chosen comes before every lower slot that is runnable and not marked. -/
theorem better_of_pick {k : Kernel C} {b i : Slot} (h : k.pick = some b)
    (hi : (k.proc i).state = .runnable) (hm : ¬ k.Marked i) (hlt : i < b) :
    better (k.proc b) (k.proc i) = true := by
  rw [Kernel.pick] at h
  rcases e : scan k.proc fun i => (k.proc i).state = .runnable
      ∧ ¬ ((k.proc i).skipOnce = true ∨ k.skipTarget = some i) with - | b'
  · rw [e] at h
    exact better_of_scan h hi hlt
  · rw [e] at h
    obtain rfl := Option.some.inj h
    exact better_of_scan e ⟨hi, hm⟩ hlt

/-- Between two candidates the time left decides, then the higher pid, then the lower slot. -/
theorem pick_left_iff {k : Kernel C} {a b : Slot} (hpick : k.pick = some a ∨ k.pick = some b)
    (hne : a ≠ b) (ha : (k.proc a).state = .runnable) (hma : ¬ k.Marked a)
    (hb : (k.proc b).state = .runnable) (hmb : ¬ k.Marked b) :
    k.pick = some a ↔ Before (k.proc a) (k.proc b)
      ∨ ((k.proc a).tRemain.toInt = (k.proc b).tRemain.toInt
        ∧ (k.proc a).pid.toInt = (k.proc b).pid.toInt) ∧ a < b := by
  rw [Before]
  constructor
  · intro h
    have hnot := better_eq_false_iff.mp (not_better_of_pick h hb hmb)
    rcases lt_or_gt_of_ne hne with hlt | hgt
    · rw [and_iff_left hlt]
      omega
    · exact .inl (better_iff.mp (better_of_pick h hb hmb hgt))
  · intro h
    refine hpick.resolve_right fun hpick' => ?_
    have hnot := better_eq_false_iff.mp (not_better_of_pick hpick' ha hma)
    rcases h with h | ⟨htie, hlt⟩
    · omega
    · have := better_iff.mp (better_of_pick hpick' ha hma hlt)
      omega

/-- A marked process is chosen only when every runnable one is marked. -/
theorem marked_of_pick {k : Kernel C} {b i : Slot} (h : k.pick = some b) (hb : k.Marked b)
    (hi : (k.proc i).state = .runnable) : k.Marked i := by
  rcases pick_spec k with ⟨e, -⟩ | ⟨b', e, hb'⟩
  · exact absurd (e.symm.trans h) (by simp)
  · obtain rfl := Option.some.inj (e.symm.trans h)
    rcases hb' with hb' | ⟨hall, -⟩
    · exact absurd hb hb'.1.2
    · exact hall i hi

/-! ### Distinct pids -/

/-- No two runnable processes have the same pid. -/
def Kernel.DistinctPids (k : Kernel C) : Prop :=
  ∀ i j, (k.proc i).state = .runnable → (k.proc j).state = .runnable →
    (k.proc i).pid = (k.proc j).pid → i = j

instance (k : Kernel C) : Decidable k.DistinctPids :=
  inferInstanceAs (Decidable (∀ _ _, _))

/-- Slot `b` is one of the slots in `Q` and comes before every other one. -/
def Kernel.Least (k : Kernel C) (Q : Slot → Prop) (b : Slot) : Prop :=
  Q b ∧ ∀ i, Q i → i ≠ b → Before (k.proc b) (k.proc i)

variable {k : Kernel C} {Q : Slot → Prop} {b b' : Slot}

theorem Kernel.First.least (h : k.First Q b) (hpid : k.DistinctPids)
    (hQ : ∀ i, Q i → (k.proc i).state = .runnable) : k.Least Q b := by
  refine ⟨h.1, fun i hi hne => before_of_not_better (h.2 i hi) fun e => hne ?_⟩
  exact hpid i b (hQ i hi) (hQ b h.1) e

theorem Kernel.Least.unique (h : k.Least Q b) (h' : k.Least Q b') : b = b' := by
  by_contra hne
  exact (h.2 b' h'.1 (Ne.symm hne)).asymm (h'.2 b h.1 hne)

/-- What the two passes look for. -/
def Kernel.Choice (k : Kernel C) (b : Slot) : Prop :=
  k.Least (fun i => (k.proc i).state = .runnable ∧ ¬ k.Marked i) b
    ∨ (∀ i, (k.proc i).state = .runnable → k.Marked i)
      ∧ k.Least (fun i => (k.proc i).state = .runnable) b

theorem Kernel.Choice.unique (h : k.Choice b) (h' : k.Choice b') : b = b' := by
  rcases h with h | ⟨hall, h⟩
  · rcases h' with h' | ⟨hall, -⟩
    · exact h.unique h'
    · exact absurd (hall b h.1.1) h.1.2
  · rcases h' with h' | ⟨-, h'⟩
    · exact absurd (hall b' h'.1.1) h'.1.2
    · exact h.unique h'

theorem pick_eq_none_iff : k.pick = none ↔ ∀ i, (k.proc i).state ≠ .runnable := by
  rcases pick_spec k with ⟨e, hnone⟩ | ⟨b, e, hb⟩
  · exact iff_of_true e hnone
  · refine iff_of_false (by simp [e]) fun hnone => ?_
    rcases hb with hb | ⟨-, hb⟩
    · exact hnone b hb.1.1
    · exact hnone b hb.1

/-- With distinct pids there is one choice. -/
theorem pick_eq_some_iff (hpid : k.DistinctPids) : k.pick = some b ↔ k.Choice b := by
  have hchoice : ∀ b, k.pick = some b → k.Choice b := by
    intro b hb
    rcases pick_spec k with ⟨e, -⟩ | ⟨b', e, hb'⟩
    · exact absurd (e.symm.trans hb) (by simp)
    obtain rfl := Option.some.inj (e.symm.trans hb)
    rcases hb' with hb' | ⟨hall, hb'⟩
    · exact .inl (hb'.least hpid fun i hi => hi.1)
    · exact .inr ⟨hall, hb'.least hpid fun i hi => hi⟩
  refine ⟨hchoice b, fun hb => ?_⟩
  rcases e : k.pick with - | b'
  · have hnone := pick_eq_none_iff.1 e
    rcases hb with hb | ⟨-, hb⟩
    · exact absurd hb.1.1 (hnone b)
    · exact absurd hb.1 (hnone b)
  · rw [(hchoice b' e).unique hb]

/-! ### The order of the slots -/

/-- The slots are renamed in what a process sleeps on. -/
def Chan.rename (σ : Equiv.Perm Slot) : Chan → Chan
  | .proc i => .proc (σ i)
  | chan => chan

/-- The table with slot `i` where slot `σ i` was, and every pointer into it moved along. -/
def Kernel.permute (k : Kernel C) (σ : Equiv.Perm Slot) : Kernel C :=
  { k with
    proc := fun i => { k.proc (σ i) with
      parent := (k.proc (σ i)).parent.map σ.symm
      chan := (k.proc (σ i)).chan.map (Chan.rename σ.symm) }
    initproc := σ.symm k.initproc
    skipTarget := k.skipTarget.map σ.symm
    cpu := fun c => (k.cpu c).map σ.symm }

variable {σ : Equiv.Perm Slot}

theorem marked_permute (i : Slot) : (k.permute σ).Marked i ↔ k.Marked (σ i) := by
  have htarget : k.skipTarget.map σ.symm = some i ↔ k.skipTarget = some (σ i) := by
    rw [Option.map_eq_some_iff]
    constructor
    · rintro ⟨j, hj, rfl⟩
      rw [hj, Equiv.apply_symm_apply]
    · intro h
      exact ⟨σ i, h, Equiv.symm_apply_apply σ i⟩
  exact or_congr Iff.rfl htarget

theorem least_permute (Q : Slot → Prop) (b : Slot) :
    (k.permute σ).Least (fun i => Q (σ i)) b ↔ k.Least Q (σ b) := by
  constructor
  · rintro ⟨hb, hbest⟩
    refine ⟨hb, fun i hi hne => ?_⟩
    obtain ⟨j, rfl⟩ := σ.surjective i
    exact hbest j hi fun e => hne (by rw [e])
  · rintro ⟨hb, hbest⟩
    exact ⟨hb, fun i hi hne => hbest (σ i) hi fun e => hne (σ.injective e)⟩

theorem choice_permute (b : Slot) : (k.permute σ).Choice b ↔ k.Choice (σ b) := by
  have hall : (∀ i, ((k.permute σ).proc i).state = .runnable → (k.permute σ).Marked i)
      ↔ ∀ i, (k.proc i).state = .runnable → k.Marked i := by
    rw [← σ.forall_congr_right (q := fun i => (k.proc i).state = .runnable → k.Marked i)]
    exact forall_congr' fun i => imp_congr Iff.rfl (marked_permute i)
  rw [Kernel.Choice, Kernel.Choice, hall, ← least_permute, ← least_permute]
  simp only [marked_permute]
  rfl

/-- The choice does not depend on the order of the slots. -/
theorem pick_permute (hpid : k.DistinctPids) (σ : Equiv.Perm Slot) :
    (k.permute σ).pick = k.pick.map σ.symm := by
  have hpid' : (k.permute σ).DistinctPids := fun i j hi hj e =>
    σ.injective (hpid (σ i) (σ j) hi hj e)
  refine Option.ext fun b => ?_
  rw [pick_eq_some_iff hpid', choice_permute, ← pick_eq_some_iff hpid, Option.map_eq_some_iff]
  constructor
  · intro h
    exact ⟨σ b, h, Equiv.symm_apply_apply σ b⟩
  · rintro ⟨i, hi, rfl⟩
    rwa [Equiv.apply_symm_apply]

end SystemsPortfolio.Stcf
