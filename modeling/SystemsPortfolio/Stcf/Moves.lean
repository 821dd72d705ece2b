/-
SystemsPortfolio/Stcf/Moves.lean

The steps of the kernel with their makers: a round of the scheduler on a CPU, a `give_cpu`
by the process of a CPU, another call by it, or a wake-up, kill or tick from outside.  For
each kind, what becomes of the marks of `give_cpu` (the flag `skip_once` of a slot and the
global `skip_target`) and of the processes on the CPUs.

Only `give_cpu` sets a mark and only the scheduler takes one away; a slot that is reused
starts without.
-/
import SystemsPortfolio.Stcf.Effects
import SystemsPortfolio.Stcf.Picker

namespace SystemsPortfolio.Stcf

variable {C : Type*} [DecidableEq C]

/-! ### Labelled steps -/

/-- Who makes a step. -/
inductive Label (C : Type*)
  | decision (c : C)
  | give (c : C) (p : Slot)
  | call (c : C) (p : Slot)
  | outside

/-- One step of the kernel and its maker. -/
inductive Does : Label C → Kernel C → Kernel C → Prop
  | dispatch (k : Kernel C) (c : C) (h : k.cpu c = none) :
      Does (.decision c) k (k.dispatch c)
  | giveCpu (k : Kernel C) (c : C) (cur : Slot) (h : k.cpu c = some cur) :
      Does (.give c cur) k (k.giveCpu c cur)
  | yield (k : Kernel C) (c : C) (cur : Slot) (h : k.cpu c = some cur) :
      Does (.call c cur) k (k.yield c cur)
  | sleep (k : Kernel C) (c : C) (cur : Slot) (chan : Option Chan) (h : k.cpu c = some cur) :
      Does (.call c cur) k (k.sleep c cur chan)
  | exit (k k' : Kernel C) (c : C) (cur : Slot) (h : k.cpu c = some cur)
      (hk : k.exit c cur = some k') : Does (.call c cur) k k'
  | fork (k : Kernel C) (c : C) (cur : Slot) (kallocOk copyOk : Bool)
      (h : k.cpu c = some cur) : Does (.call c cur) k (k.fork c cur kallocOk copyOk).2
  | clone (k : Kernel C) (c : C) (cur : Slot) (kallocOk : Bool) (h : k.cpu c = some cur) :
      Does (.call c cur) k (k.clone cur kallocOk).2
  | wait (k : Kernel C) (c : C) (cur : Slot) (h : k.cpu c = some cur) :
      Does (.call c cur) k (k.wait c cur).2
  | sysSleep (k : Kernel C) (c : C) (cur : Slot) (n : BitVec 32) (h : k.cpu c = some cur) :
      Does (.call c cur) k (k.sysSleep c cur n).2
  | sysSleepRound (k : Kernel C) (c : C) (cur : Slot) (ticks0 n : BitVec 32)
      (h : k.cpu c = some cur) : Does (.call c cur) k (k.sysSleepRound c cur ticks0 n).2
  | wakeup (k : Kernel C) (chan : Option Chan) : Does .outside k (k.wakeup chan)
  | kill (k : Kernel C) (pid : BitVec 32) : Does .outside k (k.kill pid).2
  | tick (k : Kernel C) : Does .outside k k.tick

variable {k k' k₁ : Kernel C} {c : C} {cur : Slot}

/-- The labels forget nothing and add nothing. -/
theorem step_iff_does : Step k k' ↔ ∃ l, Does l k k' := by
  constructor
  · intro h
    cases h with
    | dispatch c h => exact ⟨_, .dispatch k c h⟩
    | yield c cur h => exact ⟨_, .yield k c cur h⟩
    | sleep c cur chan h => exact ⟨_, .sleep k c cur chan h⟩
    | exit _ c cur h hk => exact ⟨_, .exit k k' c cur h hk⟩
    | wakeup chan => exact ⟨_, .wakeup k chan⟩
    | kill pid => exact ⟨_, .kill k pid⟩
    | fork c cur a b h => exact ⟨_, .fork k c cur a b h⟩
    | clone c cur a h => exact ⟨_, .clone k c cur a h⟩
    | wait c cur h => exact ⟨_, .wait k c cur h⟩
    | tick => exact ⟨_, .tick k⟩
    | giveCpu c cur h => exact ⟨_, .giveCpu k c cur h⟩
    | sysSleep c cur n h => exact ⟨_, .sysSleep k c cur n h⟩
    | sysSleepRound c cur t n h => exact ⟨_, .sysSleepRound k c cur t n h⟩
  · rintro ⟨l, h⟩
    cases h with
    | dispatch _ c h => exact .dispatch k c h
    | giveCpu _ c cur h => exact .giveCpu k c cur h
    | yield _ c cur h => exact .yield k c cur h
    | sleep _ c cur chan h => exact .sleep k c cur chan h
    | exit _ _ c cur h hk => exact .exit k k' c cur h hk
    | fork _ c cur a b h => exact .fork k c cur a b h
    | clone _ c cur a h => exact .clone k c cur a h
    | wait _ c cur h => exact .wait k c cur h
    | sysSleep _ c cur n h => exact .sysSleep k c cur n h
    | sysSleepRound _ c cur t n h => exact .sysSleepRound k c cur t n h
    | wakeup _ chan => exact .wakeup k chan
    | kill _ pid => exact .kill k pid
    | tick => exact .tick k

/-! ### One slot -/

/-- The flag of the slot stays, and the slot is not freed. -/
structure Same (p p' : Proc) : Prop where
  once : p'.skipOnce = p.skipOnce
  freed : p'.state = .unused → p.state = .unused

/-- The flag of the slot stays or goes with a new process, and only a zombie is freed. -/
structure Spared (p p' : Proc) : Prop where
  once : p'.skipOnce = p.skipOnce ∨ p.state = .unused ∧ p'.skipOnce = false
  freed : p'.state = .unused → p.state = .unused ∨ p.state = .zombie

theorem Same.refl (p : Proc) : Same p p :=
  ⟨rfl, id⟩

theorem Same.trans {p p' p'' : Proc} (h : Same p p') (h' : Same p' p'') : Same p p'' :=
  ⟨h'.once.trans h.once, fun e => h.freed (h'.freed e)⟩

theorem Same.spared {p p' : Proc} (h : Same p p') : Spared p p' :=
  ⟨.inl h.once, fun e => .inl (h.freed e)⟩

/-- A slot in use that keeps its process keeps its flag. -/
theorem Spared.once_eq {p p' : Proc} (h : Spared p p') (hp : p.state ≠ .unused) :
    p'.skipOnce = p.skipOnce :=
  h.once.resolve_right fun e => hp e.1

theorem same_update {proc : Slot → Proc} {i : Slot} {p : Proc} (h : Same (proc i) p)
    (j : Slot) : Same (proc j) (Function.update proc i p j) := by
  rcases eq_or_ne j i with rfl | hne
  · rw [Function.update_self]
    exact h
  · rw [Function.update_of_ne hne]
    exact .refl _

theorem spared_update {proc : Slot → Proc} {i : Slot} {p : Proc} (h : Spared (proc i) p)
    (j : Slot) : Spared (proc j) (Function.update proc i p j) := by
  rcases eq_or_ne j i with rfl | hne
  · rw [Function.update_self]
    exact h
  · rw [Function.update_of_ne hne]
    exact (Same.refl _).spared

theorem same_wakeProc (chan : Option Chan) (p : Proc) : Same p (wakeProc chan p) := by
  rw [wakeProc]
  split
  · exact ⟨rfl, fun e => absurd e (by simp)⟩
  · exact .refl p

theorem same_notifyProc (p : Proc) : Same p (notifyProc p) := by
  rw [notifyProc]
  split
  · split
    · exact ⟨rfl, fun e => absurd e (by simp)⟩
    · exact ⟨rfl, id⟩
  · exact .refl p

theorem unmoved_same (p : Proc) : Unmoved (Same p) where
  parent := by
    intro p' parent h
    exact h.trans ⟨rfl, id⟩
  wake := by
    intro p' chan _ h
    exact h.trans (same_wakeProc chan p')

theorem stcfAccountBeforeSwitch_skipOnce (now : BitVec 32) (p : Proc) :
    (stcfAccountBeforeSwitch now p).skipOnce = p.skipOnce := by
  rw [stcfAccountBeforeSwitch]
  split <;> rfl

theorem switchOut_proc_self (st : ProcState) : (k.switchOut c cur st).proc cur
    = { stcfAccountBeforeSwitch k.ticks (k.proc cur) with state := st } :=
  setProc_self ..

theorem switchOut_proc_of_ne (st : ProcState) {i : Slot} (hi : i ≠ cur) :
    (k.switchOut c cur st).proc i = k.proc i :=
  setProc_of_ne _ hi _

theorem switchOut_cpu (st : ProcState) :
    (k.switchOut c cur st).cpu = Function.update k.cpu c none :=
  rfl

theorem sleep_state (chan : Option Chan) : ((k.sleep c cur chan).proc cur).state = .sleeping := by
  rw [Kernel.sleep, switchOut_proc_self]

theorem sleep_chan (chan : Option Chan) : ((k.sleep c cur chan).proc cur).chan = chan := by
  rw [Kernel.sleep, switchOut_proc_self, setProc_self, stcfAccountBeforeSwitch]
  split <;> rfl

theorem sleep_proc_of_ne (chan : Option Chan) {i : Slot} (hi : i ≠ cur) :
    (k.sleep c cur chan).proc i = k.proc i := by
  rw [Kernel.sleep, switchOut_proc_of_ne _ hi, setProc_of_ne _ hi]

/-! ### Calls -/

/-- What a call by the process of CPU `c` leaves alone. -/
structure CallKept (c : C) (k k' : Kernel C) : Prop where
  target : k'.skipTarget = k.skipTarget
  cpu : k'.cpu = k.cpu ∨ k'.cpu = Function.update k.cpu c none
  slots : ∀ i, Spared (k.proc i) (k'.proc i)

/-- The common end of `yield`, `sleep` and `exit`. -/
theorem switchOut_kept {st : ProcState} (htarget : k₁.skipTarget = k.skipTarget)
    (hcpu : k₁.cpu = k.cpu) (hslots : ∀ i, Spared (k.proc i) (k₁.proc i))
    (hst : st ≠ .unused) : CallKept c k (k₁.switchOut c cur st) := by
  refine ⟨htarget, .inr ?_, fun i => ?_⟩
  · rw [← hcpu]
    rfl
  · rcases eq_or_ne i cur with rfl | hne
    · rw [switchOut_proc_self]
      refine ⟨?_, fun e => absurd e hst⟩
      rw [stcfAccountBeforeSwitch_skipOnce]
      exact (hslots i).once
    · rw [switchOut_proc_of_ne st hne]
      exact hslots i

theorem sleep_kept (chan : Option Chan) (htarget : k₁.skipTarget = k.skipTarget)
    (hcpu : k₁.cpu = k.cpu) (hslots : ∀ i, Same (k.proc i) (k₁.proc i)) :
    CallKept c k (k₁.sleep c cur chan) := by
  have hchan : Same (k₁.proc cur) { k₁.proc cur with chan := chan } := ⟨rfl, id⟩
  exact switchOut_kept htarget hcpu
    (fun i => ((hslots i).trans (same_update hchan i)).spared) (by decide)

theorem sysSleepRound_kept (ticks0 n : BitVec 32) (htarget : k₁.skipTarget = k.skipTarget)
    (hcpu : k₁.cpu = k.cpu) (hslots : ∀ i, Same (k.proc i) (k₁.proc i)) :
    CallKept c k (k₁.sysSleepRound c cur ticks0 n).2 := by
  rw [Kernel.sysSleepRound]
  split
  · split
    · exact ⟨htarget, .inl hcpu, fun i => (hslots i).spared⟩
    · exact sleep_kept _ htarget hcpu hslots
  · have hend : Same (k₁.proc cur) { k₁.proc cur with sleepticks := -1 } := ⟨rfl, id⟩
    exact ⟨htarget, .inl hcpu, fun i => ((hslots i).trans (same_update hend i)).spared⟩

theorem exit_kept (h : k.exit c cur = some k') : CallKept c k k' := by
  obtain ⟨proc', rfl, hkeep⟩ := exit_eq_some h
  refine switchOut_kept rfl rfl (fun i => ?_) (by decide)
  exact (hkeep _ (unmoved_same (k.proc i)) i (.refl _)).spared

theorem wait_kept : CallKept c k (k.wait c cur).2 := by
  rw [Kernel.wait]
  split
  · next i hi =>
      have hz : (k.proc i).parent = some cur ∧ (k.proc i).state = .zombie := by
        simpa using List.find?_some hi
      exact ⟨rfl, .inl rfl, spared_update ⟨.inl rfl, fun _ => .inr hz.2⟩⟩
  · split
    · exact ⟨rfl, .inl rfl, fun i => (Same.refl _).spared⟩
    · exact sleep_kept _ rfl rfl fun i => .refl _

omit [DecidableEq C] in
/-- `allocproc` takes a slot without a process and clears its flag. -/
theorem allocproc_kept (k : Kernel C) (kallocOk : Bool) :
    (∃ k', k.allocproc kallocOk = (none, k') ∧ k'.cpu = k.cpu ∧ k'.skipTarget = k.skipTarget
        ∧ ∀ i, Spared (k.proc i) (k'.proc i))
      ∨ ∃ i p k', k.allocproc kallocOk = (some i, k') ∧ k'.cpu = k.cpu
        ∧ k'.skipTarget = k.skipTarget ∧ (k.proc i).state = .unused
        ∧ k'.proc = Function.update k.proc i p ∧ p.skipOnce = false := by
  rcases allocproc_took k kallocOk with e | ⟨i, p, k', e, h, -, hp⟩ | ⟨i, p, k', e, h, -, hp, -⟩
  · exact .inl ⟨k, e, rfl, rfl, fun i => (Same.refl _).spared⟩
  · refine .inl ⟨k', e, h.cpu, h.skipTarget, ?_⟩
    rw [h.proc]
    exact spared_update ⟨.inl hp, fun _ => .inl h.unused⟩
  · exact .inr ⟨i, p, k', e, h.cpu, h.skipTarget, h.unused, h.proc, hp⟩

omit [DecidableEq C] in
/-- Nobody is marked at the start. -/
theorem userinit_unmarked : (zeroKernel C).userinit.skipTarget = none
    ∧ ∀ i, ((zeroKernel C).userinit.proc i).skipOnce = false := by
  have hzero : ∀ i, ((zeroKernel C).proc i).skipOnce = false := fun _ => rfl
  rw [Kernel.userinit]
  rcases allocproc_kept (zeroKernel C) true with ⟨k', e, -, ht, hs⟩
    | ⟨i, p, k', e, -, ht, -, hproc, hp⟩
  · rw [e]
    exact ⟨ht, fun i => (hs i).once.elim (·.trans (hzero i)) (·.2)⟩
  · rw [e]
    refine ⟨ht, fun j => ?_⟩
    show ((k'.setProc i _).proc j).skipOnce = false
    rcases eq_or_ne j i with rfl | hne
    · rw [setProc_self]
    · rw [setProc_of_ne _ hne, hproc, Function.update_of_ne hne]
      exact hzero j

theorem fork_kept (kallocOk copyOk : Bool) :
    CallKept c k (k.fork c cur kallocOk copyOk).2 := by
  rw [Kernel.fork]
  rcases allocproc_kept k kallocOk with ⟨k', e, hcpu, ht, hs⟩
    | ⟨i, p, k', e, hcpu, ht, hun, hproc, hp⟩
  · rw [e]
    exact ⟨ht, .inl hcpu, hs⟩
  · rw [e]
    have hfill (q : Proc) (hq : q.skipOnce = false) (j : Slot) :
        Spared (k.proc j) ((k'.setProc i q).proc j) := by
      show Spared _ (Function.update k'.proc i q j)
      rw [hproc, Function.update_idem]
      exact spared_update ⟨.inr ⟨hun, hq⟩, fun _ => .inl hun⟩ j
    dsimp only
    split
    · exact switchOut_kept ht hcpu (hfill _ rfl) (by decide)
    · refine ⟨ht, .inl hcpu, hfill _ ?_⟩
      rw [hproc, Function.update_self]
      exact hp

theorem clone_kept (kallocOk : Bool) : CallKept c k (k.clone cur kallocOk).2 := by
  rw [Kernel.clone]
  rcases allocproc_kept k kallocOk with ⟨k', e, hcpu, ht, hs⟩
    | ⟨i, p, k', e, hcpu, ht, hun, hproc, hp⟩
  · rw [e]
    exact ⟨ht, .inl hcpu, hs⟩
  · rw [e]
    have hcount : Same (k'.proc cur) { k'.proc cur with nclone := (k'.proc cur).nclone + 1 } :=
      ⟨rfl, id⟩
    refine ⟨ht, .inl hcpu, fun j => ?_⟩
    dsimp only [Kernel.cloneChild]
    rcases eq_or_ne j i with rfl | hne
    · -- the slot of the new process
      refine ⟨.inr ⟨hun, ?_⟩, fun _ => .inl hun⟩
      rw [setProc_self]
      refine (same_update hcount j).once.trans ?_
      rw [hproc, Function.update_self]
      exact hp
    · rw [setProc_of_ne _ hne]
      have hj := same_update hcount j
      rw [show k'.proc j = k.proc j by rw [hproc, Function.update_of_ne hne]] at hj
      exact hj.spared

/-- A call keeps the marks of the processes that stay. -/
theorem call_kept (h : Does (.call c cur) k k') : CallKept c k k' := by
  cases h with
  | yield _ _ _ h => exact switchOut_kept rfl rfl (fun i => (Same.refl _).spared) (by decide)
  | sleep _ _ _ chan h => exact sleep_kept _ rfl rfl fun i => .refl _
  | exit _ _ _ _ h hk => exact exit_kept hk
  | fork _ _ _ a b h => exact fork_kept a b
  | clone _ _ _ a h => exact clone_kept a
  | wait _ _ _ h => exact wait_kept
  | sysSleep _ _ _ n h =>
      have hn : Same (k.proc cur) { k.proc cur with sleepticks := n } := ⟨rfl, id⟩
      rw [Kernel.sysSleep]
      split
      · exact switchOut_kept rfl rfl (fun i => (Same.refl _).spared) (by decide)
      · exact sysSleepRound_kept _ _ rfl rfl (same_update hn)
  | sysSleepRound _ _ _ t n h => exact sysSleepRound_kept t n rfl rfl fun i => .refl _

/-! ### Steps from outside -/

/-- A wake-up, a kill or a tick frees no slot and changes no mark. -/
theorem outside_kept (h : Does .outside k k') :
    k'.skipTarget = k.skipTarget ∧ k'.cpu = k.cpu ∧ ∀ i, Same (k.proc i) (k'.proc i) := by
  cases h with
  | wakeup _ chan => exact ⟨rfl, rfl, fun i => same_wakeProc chan _⟩
  | kill _ pid =>
      rw [Kernel.kill]
      split
      · next i _ =>
          refine ⟨rfl, rfl, same_update ?_⟩
          dsimp only
          split
          · exact ⟨rfl, fun e => absurd e (by simp)⟩
          · exact ⟨rfl, id⟩
      · exact ⟨rfl, rfl, fun i => .refl _⟩
  | tick => exact ⟨rfl, rfl, fun i => same_notifyProc _⟩

/-! ### The scheduler -/

omit [DecidableEq C] in
/-- The marks after another process than `b` may have been passed over for `b`. -/
theorem consumeSkip_marks (k : Kernel C) (b : Slot) :
    (k.skipTarget = none ∨ k.skipTarget = some b) ∧ k.consumeSkip b = k
      ∨ ∃ s, k.skipTarget = some s ∧ b ≠ s
        ∧ k.consumeSkip b = { k.setProc s { k.proc s with skipOnce := false } with
            skipTarget := none } := by
  rw [Kernel.consumeSkip]
  split
  · next s hs =>
      split
      · next hne => exact .inr ⟨s, hs, hne, rfl⟩
      · next he =>
          rw [not_not] at he
          exact .inl ⟨.inr (he ▸ hs), rfl⟩
  · next hs => exact .inl ⟨.inl hs, rfl⟩

omit [DecidableEq C] in
/-- Of a slot, at most the flag is cleared. -/
theorem consumeSkip_proc (k : Kernel C) (b i : Slot) : (k.consumeSkip b).proc i = k.proc i
    ∨ (k.consumeSkip b).proc i = { k.proc i with skipOnce := false } := by
  rcases consumeSkip_marks k b with ⟨-, e⟩ | ⟨s, -, -, e⟩
  · exact .inl (by rw [e])
  · rw [e]
    rcases eq_or_ne i s with rfl | hne
    · exact .inr (setProc_self ..)
    · exact .inl (setProc_of_ne _ hne _)

/-- A round of the scheduler that chooses `b`: its slot, the other slots, the CPUs. -/
theorem dispatch_proc_self {b : Slot} (h : k.pick = some b) :
    (k.dispatch c).proc b = { (k.consumeSkip b).proc b with
      state := .running, tLastScheduled := (k.consumeSkip b).ticks, chan := none } := by
  rw [Kernel.dispatch, h]
  exact setProc_self ..

theorem dispatch_proc_of_ne {b i : Slot} (h : k.pick = some b) (hi : i ≠ b) :
    (k.dispatch c).proc i = (k.consumeSkip b).proc i := by
  rw [Kernel.dispatch, h]
  exact setProc_of_ne _ hi _

theorem dispatch_cpu {b : Slot} (h : k.pick = some b) :
    (k.dispatch c).cpu = Function.update k.cpu c (some b) := by
  rw [← (consumeSkip_effect k b).1, Kernel.dispatch, h]

theorem dispatch_skipTarget {b : Slot} (h : k.pick = some b) :
    (k.dispatch c).skipTarget = (k.consumeSkip b).skipTarget := by
  rw [Kernel.dispatch, h]
  rfl

theorem dispatch_skipOnce {b : Slot} (h : k.pick = some b) (i : Slot) :
    ((k.dispatch c).proc i).skipOnce = ((k.consumeSkip b).proc i).skipOnce := by
  rcases eq_or_ne i b with rfl | hne
  · rw [dispatch_proc_self h]
  · rw [dispatch_proc_of_ne h hne]

theorem dispatch_of_none (h : k.pick = none) : k.dispatch c = k := by
  rw [Kernel.dispatch, h]

theorem dispatch_cpu_eq_pick (hc : k.cpu c = none) : (k.dispatch c).cpu c = k.pick := by
  rcases hpick : k.pick with - | b
  · rw [dispatch_of_none hpick, hc]
  · rw [dispatch_cpu hpick, Function.update_self]

/-- The scheduler selects the right process: nobody exactly when nobody is runnable; else a
runnable process, which comes before every other one that is not marked, or before every
other one at all when each is marked; and the same one in every order of the slots. -/
theorem dispatch_choice (k : Kernel C) (hc : k.cpu c = none) (hpid : k.DistinctPids) :
    ((k.dispatch c).cpu c = none ↔ ∀ i, (k.proc i).state ≠ .runnable)
      ∧ (∀ b, (k.dispatch c).cpu c = some b → (k.proc b).state = .runnable
        ∧ ((∃ i, (k.proc i).state = .runnable ∧ ¬ k.Marked i) →
          k.Least (fun i => (k.proc i).state = .runnable ∧ ¬ k.Marked i) b)
        ∧ ((∀ i, (k.proc i).state = .runnable → k.Marked i) →
          k.Least (fun i => (k.proc i).state = .runnable) b))
      ∧ ∀ σ : Equiv.Perm Slot,
        ((k.permute σ).dispatch c).cpu c = ((k.dispatch c).cpu c).map σ.symm := by
  rw [dispatch_cpu_eq_pick hc]
  refine ⟨pick_eq_none_iff, fun b hb => ?_, fun σ => ?_⟩
  · refine ⟨pick_runnable hb, ?_⟩
    rcases (pick_eq_some_iff hpid).1 hb with h | ⟨hall, h⟩
    · exact ⟨fun _ => h, fun hall => absurd (hall b h.1.1) h.1.2⟩
    · exact ⟨fun ⟨i, hi, hm⟩ => absurd (hall i hi) hm, fun _ => h⟩
  · have hc' : (k.permute σ).cpu c = none := by
      show (k.cpu c).map σ.symm = none
      rw [hc]
      rfl
    rw [dispatch_cpu_eq_pick hc', pick_permute hpid]

/-- `init` has forked and both are runnable. -/
def forkedEarly : Kernel Unit :=
  let k := (zeroKernel Unit).userinit
  ((k.dispatch ()).fork () k.initproc true true).2

theorem dispatch_choice_forkedEarly : ∃ b, (forkedEarly.dispatch ()).cpu () = some b
    ∧ forkedEarly.Least (fun i => (forkedEarly.proc i).state = .runnable ∧ ¬ forkedEarly.Marked i) b := by
  have h := dispatch_choice forkedEarly (c := ()) (by decide +kernel) (by decide +kernel)
  have hsome : ((forkedEarly.dispatch ()).cpu ()).isSome = true := by decide +kernel
  obtain ⟨b, hb⟩ := Option.isSome_iff_exists.1 hsome
  refine ⟨b, hb, (h.2.1 b hb).2.1 ⟨forkedEarly.initproc, ?_⟩⟩
  decide +kernel

end SystemsPortfolio.Stcf
