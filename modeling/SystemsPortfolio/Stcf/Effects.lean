/-
SystemsPortfolio/Stcf/Effects.lean

What one step of the kernel does to the process table, said once.

Most steps leave every running process alone: they may wake sleepers, create a process
in an unused slot or free the slot of a zombie.  Two kinds of step do more.  One ends
the slice of the process of a CPU, with the charge of `stcf_account_before_switch`;
the other starts a slice on an idle CPU and notes the tick.  Every later result about
whole runs is read off this classification.
-/
import SystemsPortfolio.Stcf.Proc
import SystemsPortfolio.Lib.Transition

namespace SystemsPortfolio.Stcf

/-! ### Slots -/

/-- A change that leaves the time of a process alone, and its state too unless it wakes. -/
structure Nudge (p p' : Proc) : Prop where
  state : p'.state = p.state ∨ p.state = .sleeping ∧ p'.state = .runnable
  remain : p'.tRemain = p.tRemain
  last : p'.tLastScheduled = p.tLastScheduled

theorem Nudge.refl (p : Proc) : Nudge p p :=
  ⟨.inl rfl, rfl, rfl⟩

theorem Nudge.trans {p p' p'' : Proc} (h : Nudge p p') (h' : Nudge p' p'') : Nudge p p'' := by
  refine ⟨?_, h'.remain.trans h.remain, h'.last.trans h.last⟩
  rcases h.state with e | ⟨e₁, e₂⟩
  · rw [← e]
    exact h'.state
  · rcases h'.state with e' | ⟨e', -⟩
    · exact .inr ⟨e₁, e'.trans e₂⟩
    · exact absurd (e₂.symm.trans e') (by decide)

/-- What happens to a slot without a slice starting or ending in it. -/
inductive Quiet : Proc → Proc → Prop
  | nudge {p p' : Proc} (h : Nudge p p') : Quiet p p'
  | create {p p' : Proc} (h : p.state = .unused) (h' : p'.state = .runnable) : Quiet p p'
  | free {p p' : Proc} (h : p.state = .zombie) (h' : p'.state = .unused) : Quiet p p'
  | idle {p p' : Proc} (h : p.state = .unused) (h' : p'.state = .unused) : Quiet p p'

theorem Quiet.refl (p : Proc) : Quiet p p :=
  .nudge (.refl p)

/-- A running process is left alone. -/
theorem Quiet.of_running {p p' : Proc} (h : Quiet p p') (hp : p.state = .running) :
    p'.state = .running ∧ p'.tRemain = p.tRemain ∧ p'.tLastScheduled = p.tLastScheduled := by
  cases h with
  | nudge h =>
      rcases h.state with e | ⟨e, -⟩
      · exact ⟨e.trans hp, h.remain, h.last⟩
      · exact absurd (hp.symm.trans e) (by decide)
  | create h | free h | idle h => exact absurd (hp.symm.trans h) (by decide)

/-- No process starts to run quietly. -/
theorem Quiet.not_running {p p' : Proc} (h : Quiet p p') (hp : p.state ≠ .running) :
    p'.state ≠ .running := by
  cases h with
  | nudge h =>
      rcases h.state with e | ⟨-, e⟩ <;> rw [e]
      · exact hp
      · decide
  | create _ h | free _ h | idle _ h =>
      rw [h]
      decide

/-- The states a slice ends in. -/
def ProcState.Left (st : ProcState) : Prop :=
  st = .runnable ∨ st = .sleeping ∨ st = .zombie

/-- The end of a slice at tick `now`. -/
structure Leave (now : BitVec 32) (p p' : Proc) : Prop where
  before : p.state = .running
  after : p'.state.Left
  remain : p'.tRemain = (stcfAccountBeforeSwitch now p).tRemain

/-- The start of a slice at tick `now`. -/
structure Enter (now : BitVec 32) (p p' : Proc) : Prop where
  before : p.state = .runnable
  after : p'.state = .running
  remain : p'.tRemain = p.tRemain
  last : p'.tLastScheduled = now

/-! ### Steps -/

variable {C : Type*} [DecidableEq C]

/-- What a step does: nothing to any slice, the end of one, or the start of one. -/
inductive Effect (k k' : Kernel C) : Prop
  | calm (hcpu : k'.cpu = k.cpu) (hticks : k'.ticks = k.ticks ∨ k'.ticks = k.ticks + 1)
      (h : ∀ i, Quiet (k.proc i) (k'.proc i))
  | leave (c : C) (cur : Slot) (hc : k.cpu c = some cur)
      (hcpu : k'.cpu = Function.update k.cpu c none) (hticks : k'.ticks = k.ticks)
      (hcur : Leave k.ticks (k.proc cur) (k'.proc cur))
      (h : ∀ i, i ≠ cur → Quiet (k.proc i) (k'.proc i))
  | enter (c : C) (b : Slot) (hc : k.cpu c = none)
      (hcpu : k'.cpu = Function.update k.cpu c (some b)) (hticks : k'.ticks = k.ticks)
      (hb : Enter k.ticks (k.proc b) (k'.proc b))
      (h : ∀ i, i ≠ b → Quiet (k.proc i) (k'.proc i))

/-- Each CPU runs a running process, and no two run the same. -/
structure CpuOk (k : Kernel C) : Prop where
  running : ∀ c i, k.cpu c = some i → (k.proc i).state = .running
  inj : ∀ c c' i, k.cpu c = some i → k.cpu c' = some i → c = c'

omit [DecidableEq C] in
theorem setProc_self (k : Kernel C) (i : Slot) (p : Proc) : (k.setProc i p).proc i = p :=
  Function.update_self ..

omit [DecidableEq C] in
theorem setProc_of_ne (k : Kernel C) {i j : Slot} (h : j ≠ i) (p : Proc) :
    (k.setProc i p).proc j = k.proc j :=
  Function.update_of_ne h ..

omit [DecidableEq C] in
theorem quiet_setProc {k : Kernel C} {i : Slot} {p : Proc} (h : Quiet (k.proc i) p) (j : Slot) :
    Quiet (k.proc j) ((k.setProc i p).proc j) := by
  rcases eq_or_ne j i with rfl | hne
  · rw [setProc_self]
    exact h
  · rw [setProc_of_ne k hne]
    exact .refl _

/-- The common end of `yield`, `sleep` and `exit`, after changes that end no slice. -/
theorem switchOut_effect {k k₁ : Kernel C} {c : C} {cur : Slot} {st : ProcState}
    (hq : ∀ i, Quiet (k.proc i) (k₁.proc i)) (hcpu : k₁.cpu = k.cpu)
    (hticks : k₁.ticks = k.ticks) (hc : k.cpu c = some cur)
    (hrun : (k.proc cur).state = .running) (hst : st.Left) :
    Effect k (k₁.switchOut c cur st) := by
  obtain ⟨-, hrem, hlast⟩ := (hq cur).of_running hrun
  have hcur : (k₁.switchOut c cur st).proc cur
      = { stcfAccountBeforeSwitch k₁.ticks (k₁.proc cur) with state := st } :=
    setProc_self ..
  refine .leave c cur hc ?_ hticks ⟨hrun, ?_, ?_⟩ fun i hi => ?_
  · rw [← hcpu]
    rfl
  · rw [hcur]
    exact hst
  · rw [hcur, hticks]
    simp only [stcfAccountBeforeSwitch, hlast]
    split
    · show (k₁.proc cur).tRemain - _ = (k.proc cur).tRemain - _
      rw [hrem]
    · exact hrem
  · have : (k₁.switchOut c cur st).proc i = k₁.proc i := setProc_of_ne k₁ hi _
    rw [this]
    exact hq i

/-! ### Wake-ups -/

theorem nudge_wakeProc (chan : Option Chan) (p : Proc) : Nudge p (wakeProc chan p) := by
  rw [wakeProc]
  split
  · next h => exact ⟨.inr ⟨h.1, rfl⟩, rfl, rfl⟩
  · exact .refl p

theorem nudge_notifyProc (p : Proc) : Nudge p (notifyProc p) := by
  rw [notifyProc]
  split
  · next h =>
      split
      · exact ⟨.inr ⟨h.1, rfl⟩, rfl, rfl⟩
      · exact ⟨.inl rfl, rfl, rfl⟩
  · exact .refl p

theorem nudge_update {proc : Slot → Proc} {i : Slot} {p : Proc} (h : Nudge (proc i) p)
    (j : Slot) : Nudge (proc j) (Function.update proc i p j) := by
  rcases eq_or_ne j i with rfl | hne
  · rw [Function.update_self]
    exact h
  · rw [Function.update_of_ne hne]
    exact .refl _

/-- A property of slots that neither a new parent nor a wake-up changes, one on `&ticks`
apart. -/
structure Unmoved (P : Proc → Prop) : Prop where
  parent : ∀ p parent, P p → P { p with parent := parent }
  wake : ∀ p chan, chan ≠ some .ticks → P p → P (wakeProc chan p)

theorem Unmoved.adoptChild {P : Proc → Prop} (hP : Unmoved P) (cur initproc i : Slot)
    {proc : Slot → Proc} {j : Slot} (h : P (proc j)) : P (adoptChild cur initproc proc i j) := by
  have hadopt : P (Function.update proc i { proc i with parent := some initproc } j) := by
    rcases eq_or_ne j i with rfl | hne
    · rw [Function.update_self]
      exact hP.parent _ _ h
    · rw [Function.update_of_ne hne]
      exact h
  rw [Stcf.adoptChild]
  split
  · dsimp only
    split
    · exact hP.wake _ _ (by simp) hadopt
    · exact hadopt
  · exact h

theorem Unmoved.adoptChildren {P : Proc → Prop} (hP : Unmoved P) (cur initproc : Slot)
    (l : List Slot) {proc : Slot → Proc} {j : Slot} (h : P (proc j)) :
    P (l.foldl (Stcf.adoptChild cur initproc) proc j) := by
  induction l generalizing proc with
  | nil => exact h
  | cons i l ih => exact ih (hP.adoptChild cur initproc i h)

/-- `exit` wakes the parent, hands the children over and switches. -/
theorem exit_eq_some {k k' : Kernel C} {c : C} {cur : Slot} (h : k.exit c cur = some k') :
    ∃ proc', k' = ({ k with proc := proc' } : Kernel C).switchOut c cur .zombie
      ∧ ∀ P, Unmoved P → ∀ j, P (k.proc j) → P (proc' j) := by
  rw [Kernel.exit] at h
  split at h
  · exact absurd h (by simp)
  · refine ⟨_, (Option.some.inj h).symm, fun P hP j hj => ?_⟩
    refine hP.adoptChildren cur k.initproc _ (hP.wake _ _ ?_ hj)
    cases (k.proc cur).parent <;> simp

theorem unmoved_nudge (p : Proc) : Unmoved (Nudge p) where
  parent := by
    intro p' parent h
    exact h.trans ⟨.inl rfl, rfl, rfl⟩
  wake := by
    intro p' chan _ h
    exact h.trans (nudge_wakeProc chan p')

omit [DecidableEq C] in
theorem kill_effect (k : Kernel C) (pid : BitVec 32) :
    (k.kill pid).2.cpu = k.cpu ∧ (k.kill pid).2.ticks = k.ticks
      ∧ ∀ i, Quiet (k.proc i) ((k.kill pid).2.proc i) := by
  rw [Kernel.kill]
  split
  · next i _ =>
      refine ⟨rfl, rfl, quiet_setProc (.nudge ?_)⟩
      dsimp only
      split
      · next h => exact ⟨.inr ⟨h, rfl⟩, rfl, rfl⟩
      · exact ⟨.inl rfl, rfl, rfl⟩
  · exact ⟨rfl, rfl, fun i => .refl _⟩

/-! ### Creating processes -/

/-- The unused slot `i` holds `p` afterwards; `allocproc` changes besides only `nextpid`. -/
structure Took (i : Slot) (p : Proc) (k k' : Kernel C) : Prop where
  unused : (k.proc i).state = .unused
  proc : k'.proc = Function.update k.proc i p
  cpu : k'.cpu = k.cpu
  ticks : k'.ticks = k.ticks
  skipTarget : k'.skipTarget = k.skipTarget

omit [DecidableEq C] in
/-- `allocproc` finds no slot, gives the one it has found back when there is no page for the
kernel stack, or turns it into an embryo.  Only the last clears the flag of the slot. -/
theorem allocproc_took (k : Kernel C) (kallocOk : Bool) :
    k.allocproc kallocOk = (none, k)
      ∨ (∃ i p k', k.allocproc kallocOk = (none, k') ∧ Took i p k k' ∧ p.state = .unused
        ∧ p.skipOnce = (k.proc i).skipOnce)
      ∨ ∃ i p k', k.allocproc kallocOk = (some i, k') ∧ Took i p k k' ∧ p.state = .embryo
        ∧ p.skipOnce = false ∧ p.tRemain = stcfInitRemain ∧ p.tLastScheduled = -1 := by
  rw [Kernel.allocproc]
  split
  · exact .inl rfl
  · next i hi =>
      have hun : (k.proc i).state = .unused := by
        simpa using List.find?_some hi
      dsimp only
      split
      · exact .inr (.inr ⟨i, _, _, rfl, ⟨hun, rfl, rfl, rfl, rfl⟩, rfl, rfl, rfl, rfl⟩)
      · exact .inr (.inl ⟨i, _, _, rfl, ⟨hun, rfl, rfl, rfl, rfl⟩, rfl, rfl⟩)

omit [DecidableEq C] in
/-- `allocproc` fails without touching a process, or turns one unused slot into an
embryo. -/
theorem allocproc_cases (k : Kernel C) (kallocOk : Bool) :
    (∃ k', k.allocproc kallocOk = (none, k') ∧ k'.cpu = k.cpu ∧ k'.ticks = k.ticks
        ∧ ∀ i, Quiet (k.proc i) (k'.proc i))
      ∨ ∃ i p k', k.allocproc kallocOk = (some i, k') ∧ k'.cpu = k.cpu ∧ k'.ticks = k.ticks
        ∧ (k.proc i).state = .unused ∧ k'.proc = Function.update k.proc i p
        ∧ p.state = .embryo ∧ p.tRemain = stcfInitRemain ∧ p.tLastScheduled = -1 := by
  rcases allocproc_took k kallocOk with e | ⟨i, p, k', e, h, hp, -⟩
    | ⟨i, p, k', e, h, hp, -, hrem, hlast⟩
  · exact .inl ⟨k, e, rfl, rfl, fun i => .refl _⟩
  · refine .inl ⟨k', e, h.cpu, h.ticks, ?_⟩
    rw [h.proc]
    exact quiet_setProc (.idle h.unused hp)
  · exact .inr ⟨i, p, k', e, h.cpu, h.ticks, h.unused, h.proc, hp, hrem, hlast⟩

omit [DecidableEq C] in
/-- Filling the slot that `allocproc` has found changes no other one. -/
theorem quiet_fill {k k' : Kernel C} {i : Slot} {p : Proc}
    (hproc : k'.proc = Function.update k.proc i p) {q : Proc} (hq : Quiet (k.proc i) q)
    (j : Slot) : Quiet (k.proc j) ((k'.setProc i q).proc j) := by
  have : (k'.setProc i q).proc = (k.setProc i q).proc := by
    show Function.update k'.proc i q = Function.update k.proc i q
    rw [hproc, Function.update_idem]
  rw [this]
  exact quiet_setProc hq j

theorem fork_effect {k : Kernel C} {c : C} {cur : Slot} (kallocOk copyOk : Bool)
    (hc : k.cpu c = some cur) (hrun : (k.proc cur).state = .running) :
    Effect k (k.fork c cur kallocOk copyOk).2 := by
  rw [Kernel.fork]
  rcases allocproc_cases k kallocOk with ⟨k', e, hcpu, hticks, hq⟩
    | ⟨i, p, k', e, hcpu, hticks, hun, hproc, -, -, -⟩
  · rw [e]
    exact .calm hcpu (.inl hticks) hq
  · rw [e]
    dsimp only
    split
    · exact switchOut_effect (quiet_fill hproc (.create hun rfl)) hcpu hticks hc hrun (.inl rfl)
    · exact .calm hcpu (.inl hticks) (quiet_fill hproc (.idle hun rfl))

theorem clone_effect {k : Kernel C} {cur : Slot} (kallocOk : Bool)
    (hrun : (k.proc cur).state = .running) : Effect k (k.clone cur kallocOk).2 := by
  rw [Kernel.clone]
  rcases allocproc_cases k kallocOk with ⟨k', e, hcpu, hticks, hq⟩
    | ⟨i, p, k', e, hcpu, hticks, hun, hproc, -, -, -⟩
  · rw [e]
    exact .calm hcpu (.inl hticks) hq
  · rw [e]
    refine .calm hcpu (.inl hticks) fun j => ?_
    have hne : cur ≠ i := by
      rintro rfl
      exact absurd (hrun.symm.trans hun) (by decide)
    dsimp only [Kernel.cloneChild]
    rcases eq_or_ne j i with rfl | hji
    · rw [setProc_self]
      exact .create hun rfl
    · rw [setProc_of_ne _ hji]
      rcases eq_or_ne j cur with rfl | hjc
      · rw [setProc_self, hproc, Function.update_of_ne hji]
        exact .nudge ⟨.inl rfl, rfl, rfl⟩
      · rw [setProc_of_ne _ hjc, hproc, Function.update_of_ne hji]
        exact .refl _

/-! ### Ending processes -/

theorem exit_effect {k k' : Kernel C} {c : C} {cur : Slot} (hc : k.cpu c = some cur)
    (hrun : (k.proc cur).state = .running) (hk : k.exit c cur = some k') : Effect k k' := by
  obtain ⟨proc', rfl, hkeep⟩ := exit_eq_some hk
  refine switchOut_effect (fun i => .nudge ?_) rfl rfl hc hrun (.inr (.inr rfl))
  exact hkeep _ (unmoved_nudge (k.proc i)) i (.refl _)

theorem sleep_effect {k k₁ : Kernel C} {c : C} {cur : Slot} (chan : Option Chan)
    (hn : ∀ i, Nudge (k.proc i) (k₁.proc i)) (hcpu : k₁.cpu = k.cpu)
    (hticks : k₁.ticks = k.ticks) (hc : k.cpu c = some cur)
    (hrun : (k.proc cur).state = .running) : Effect k (k₁.sleep c cur chan) := by
  have hchan : Nudge (k₁.proc cur) { k₁.proc cur with chan := chan } := ⟨.inl rfl, rfl, rfl⟩
  refine switchOut_effect (fun i => .nudge ?_) hcpu hticks hc hrun (.inr (.inl rfl))
  exact (hn i).trans (nudge_update hchan i)

theorem sysSleepRound_effect {k k₁ : Kernel C} {c : C} {cur : Slot} (ticks0 n : BitVec 32)
    (hn : ∀ i, Nudge (k.proc i) (k₁.proc i)) (hcpu : k₁.cpu = k.cpu)
    (hticks : k₁.ticks = k.ticks) (hc : k.cpu c = some cur)
    (hrun : (k.proc cur).state = .running) :
    Effect k (k₁.sysSleepRound c cur ticks0 n).2 := by
  rw [Kernel.sysSleepRound]
  split
  · split
    · exact .calm hcpu (.inl hticks) fun i => .nudge (hn i)
    · exact sleep_effect _ hn hcpu hticks hc hrun
  · have hend : Nudge (k₁.proc cur) { k₁.proc cur with sleepticks := -1 } := ⟨.inl rfl, rfl, rfl⟩
    exact .calm hcpu (.inl hticks) fun i => .nudge ((hn i).trans (nudge_update hend i))

theorem wait_effect {k : Kernel C} {c : C} {cur : Slot} (hc : k.cpu c = some cur)
    (hrun : (k.proc cur).state = .running) : Effect k (k.wait c cur).2 := by
  rw [Kernel.wait]
  split
  · next i hi =>
      have hz : (k.proc i).parent = some cur ∧ (k.proc i).state = .zombie := by
        simpa using List.find?_some hi
      exact .calm rfl (.inl rfl) (quiet_setProc (.free hz.2 rfl))
  · split
    · exact .calm rfl (.inl rfl) fun i => .refl _
    · exact sleep_effect _ (fun i => .refl _) rfl rfl hc hrun

/-! ### Starting a slice -/

theorem consider_eligible {proc : Slot → Proc} {eligible : Slot → Bool} {best : Option Slot}
    (h : ∀ b ∈ best, eligible b = true) (i : Slot) :
    ∀ b ∈ consider proc eligible best i, eligible b = true := by
  unfold consider
  split
  · next hi =>
      have hnew : ∀ b ∈ some i, eligible b = true := by
        rintro b ⟨⟩
        exact hi
      rcases best with - | b
      · exact hnew
      · dsimp only
        split
        · exact hnew
        · exact h
  · exact h

/-- A pass of the picker returns only what it may. -/
theorem scan_eligible {proc : Slot → Proc} {eligible : Slot → Bool} {b : Slot}
    (h : scan proc eligible = some b) : eligible b = true := by
  have key (l : List Slot) (best : Option Slot) (hbest : ∀ b ∈ best, eligible b = true) :
      ∀ b ∈ l.foldl (consider proc eligible) best, eligible b = true := by
    induction l generalizing best with
    | nil => exact hbest
    | cons i l ih => exact ih _ (consider_eligible hbest i)
  exact key _ none (by simp) b h

omit [DecidableEq C] in
theorem pick_runnable {k : Kernel C} {b : Slot} (h : k.pick = some b) :
    (k.proc b).state = .runnable := by
  rw [Kernel.pick] at h
  split at h
  · next b' hb =>
      obtain rfl := Option.some.inj h
      exact (of_decide_eq_true (scan_eligible hb)).1
  · exact of_decide_eq_true (scan_eligible h)

omit [DecidableEq C] in
theorem consumeSkip_effect (k : Kernel C) (b : Slot) :
    (k.consumeSkip b).cpu = k.cpu ∧ (k.consumeSkip b).ticks = k.ticks
      ∧ ∀ i, Nudge (k.proc i) ((k.consumeSkip b).proc i) := by
  rw [Kernel.consumeSkip]
  split
  · next s _ =>
      split
      · have hs : Nudge (k.proc s) { k.proc s with skipOnce := false } := ⟨.inl rfl, rfl, rfl⟩
        exact ⟨rfl, rfl, nudge_update hs⟩
      · exact ⟨rfl, rfl, fun i => .refl _⟩
  · exact ⟨rfl, rfl, fun i => .refl _⟩

theorem dispatch_effect {k : Kernel C} {c : C} (hc : k.cpu c = none) :
    Effect k (k.dispatch c) := by
  rw [Kernel.dispatch]
  rcases e : k.pick with - | b
  · exact .calm rfl (.inl rfl) fun i => .refl _
  · obtain ⟨hcpu, hticks, hn⟩ := consumeSkip_effect k b
    have hb := hn b
    refine .enter c b hc ?_ hticks ⟨pick_runnable e, ?_, ?_, ?_⟩ fun i hi => ?_
    · rw [← hcpu]
    · rw [setProc_self]
    · rw [setProc_self]
      exact hb.remain
    · rw [setProc_self]
      exact hticks
    · rw [setProc_of_ne _ hi]
      exact .nudge (hn i)

/-! ### Any step -/

/-- Every step of the kernel falls under the three cases. -/
theorem step_effect {k k' : Kernel C} (hk : CpuOk k) (hs : Step k k') : Effect k k' := by
  cases hs with
  | dispatch c h => exact dispatch_effect h
  | yield c cur h =>
      exact switchOut_effect (fun i => .refl _) rfl rfl h (hk.running c cur h) (.inl rfl)
  | sleep c cur chan h =>
      exact sleep_effect chan (fun i => .refl _) rfl rfl h (hk.running c cur h)
  | exit _ c cur h he => exact exit_effect h (hk.running c cur h) he
  | wakeup chan => exact .calm rfl (.inl rfl) fun i => .nudge (nudge_wakeProc ..)
  | kill pid =>
      obtain ⟨hcpu, hticks, hq⟩ := kill_effect k pid
      exact .calm hcpu (.inl hticks) hq
  | fork c cur kallocOk copyOk h => exact fork_effect kallocOk copyOk h (hk.running c cur h)
  | clone c cur kallocOk h => exact clone_effect kallocOk (hk.running c cur h)
  | wait c cur h => exact wait_effect h (hk.running c cur h)
  | tick => exact .calm rfl (.inr rfl) fun i => .nudge (nudge_notifyProc _)
  | giveCpu c cur h =>
      have hq := quiet_setProc (k := k) (p := { k.proc cur with skipOnce := true })
        (.nudge ⟨.inl rfl, rfl, rfl⟩)
      exact switchOut_effect hq rfl rfl h (hk.running c cur h) (.inl rfl)
  | sysSleep c cur n h =>
      have hn : Nudge (k.proc cur) { k.proc cur with sleepticks := n } := ⟨.inl rfl, rfl, rfl⟩
      rw [Kernel.sysSleep]
      split
      · -- sleeping for 0 ticks is a yield
        exact switchOut_effect (fun i => .refl _) rfl rfl h (hk.running c cur h) (.inl rfl)
      · exact sysSleepRound_effect _ _ (nudge_update hn) rfl rfl h (hk.running c cur h)
  | sysSleepRound c cur ticks0 n h =>
      exact sysSleepRound_effect _ _ (fun i => .refl _) rfl rfl h (hk.running c cur h)

theorem cpuOk_step {k k' : Kernel C} (hk : CpuOk k) (hs : Step k k') : CpuOk k' := by
  rcases step_effect hk hs with ⟨hcpu, -, hq⟩ | ⟨c, cur, hc, hcpu, -, -, hq⟩
    | ⟨c, b, hc, hcpu, -, hb, hq⟩
  · refine ⟨fun d i hd => ?_, ?_⟩
    · rw [hcpu] at hd
      exact ((hq i).of_running (hk.running d i hd)).1
    · rw [hcpu]
      exact hk.inj
  · -- the CPUs that still run a process are not `c`, and it is not `cur`
    have hold {d : C} {i : Slot} (hd : k'.cpu d = some i) : d ≠ c ∧ k.cpu d = some i := by
      rw [hcpu] at hd
      rcases eq_or_ne d c with rfl | hne
      · rw [Function.update_self] at hd
        exact absurd hd (by simp)
      · rw [Function.update_of_ne hne] at hd
        exact ⟨hne, hd⟩
    refine ⟨fun d i hd => ?_, fun d d' i hd hd' => hk.inj d d' i (hold hd).2 (hold hd').2⟩
    obtain ⟨hne, hd'⟩ := hold hd
    have hi : i ≠ cur := by
      rintro rfl
      exact hne (hk.inj d c i hd' hc)
    exact ((hq i hi).of_running (hk.running d i hd')).1
  · -- `b` was not running, so no CPU but `c` can have it
    have hold {d : C} {i : Slot} (hd : k'.cpu d = some i) :
        d = c ∧ i = b ∨ d ≠ c ∧ i ≠ b ∧ k.cpu d = some i := by
      rw [hcpu] at hd
      rcases eq_or_ne d c with rfl | hne
      · rw [Function.update_self] at hd
        exact .inl ⟨rfl, (Option.some.inj hd).symm⟩
      · rw [Function.update_of_ne hne] at hd
        refine .inr ⟨hne, ?_, hd⟩
        rintro rfl
        exact absurd (hb.before.symm.trans (hk.running d i hd)) (by decide)
    refine ⟨fun d i hd => ?_, fun d d' i hd hd' => ?_⟩
    · rcases hold hd with ⟨-, rfl⟩ | ⟨-, hi, hd'⟩
      · exact hb.after
      · exact ((hq i hi).of_running (hk.running d i hd')).1
    · rcases hold hd with ⟨rfl, rfl⟩ | ⟨-, hi, e⟩
      · rcases hold hd' with ⟨rfl, -⟩ | ⟨-, hi', -⟩
        · rfl
        · exact absurd rfl hi'
      · rcases hold hd' with ⟨-, rfl⟩ | ⟨-, -, e'⟩
        · exact absurd rfl hi
        · exact hk.inj d d' i e e'

omit [DecidableEq C] in
theorem CpuOk.of_running {k k' : Kernel C} (h : CpuOk k) (hcpu : k'.cpu = k.cpu)
    (hst : ∀ j, (k.proc j).state = .running → (k'.proc j).state = .running) : CpuOk k' := by
  refine ⟨fun c i hc => ?_, fun c c' i hc hc' => ?_⟩
  · rw [hcpu] at hc
    exact hst i (h.running c i hc)
  · rw [hcpu] at hc hc'
    exact h.inj c c' i hc hc'

/-! ### The process of a CPU -/

/-- A process that stays on its CPU keeps its time and the tick of its dispatch. -/
theorem running_kept {k k' : Kernel C} {c : C} {cur : Slot} (hk : CpuOk k) (hs : Step k k')
    (hc : k.cpu c = some cur) (hc' : k'.cpu c = some cur) :
    (k'.proc cur).tRemain = (k.proc cur).tRemain
      ∧ (k'.proc cur).tLastScheduled = (k.proc cur).tLastScheduled := by
  have hrun := hk.running c cur hc
  rcases step_effect hk hs with ⟨-, -, hq⟩ | ⟨d, q, hd, hcpu, -, -, hq⟩ | ⟨d, b, -, -, -, hb, hq⟩
  · exact ((hq cur).of_running hrun).2
  · -- the end of another slice
    refine ((hq cur ?_).of_running hrun).2
    rintro rfl
    rw [hcpu, hk.inj c d cur hc hd, Function.update_self] at hc'
    exact absurd hc' (by simp)
  · refine ((hq cur ?_).of_running hrun).2
    rintro rfl
    exact absurd (hb.before.symm.trans hrun) (by decide)

/-- A process that leaves its CPU is charged. -/
theorem leave_remain {k k' : Kernel C} {c : C} {cur : Slot} (hk : CpuOk k) (hs : Step k k')
    (hc : k.cpu c = some cur) (hleft : k'.cpu c ≠ some cur) :
    (k'.proc cur).tRemain = (stcfAccountBeforeSwitch k.ticks (k.proc cur)).tRemain := by
  rcases step_effect hk hs with ⟨hcpu, -, -⟩ | ⟨d, q, hd, hcpu, -, hl, -⟩ | ⟨d, b, hd, hcpu, -⟩
  · rw [hcpu] at hleft
    exact absurd hc hleft
  · have hdc : c = d := by
      by_contra hne
      rw [hcpu, Function.update_of_ne hne] at hleft
      exact hleft hc
    subst hdc
    obtain rfl : q = cur := Option.some.inj (hd.symm.trans hc)
    exact hl.remain
  · have hne : c ≠ d := by
      rintro rfl
      exact absurd (hd.symm.trans hc) (by simp)
    rw [hcpu, Function.update_of_ne hne] at hleft
    exact absurd hc hleft

/-! ### The start -/

omit [DecidableEq C] in
/-- `userinit` leaves every CPU idle and no process running. -/
theorem userinit_idle : ((zeroKernel C).userinit.cpu = fun _ => none)
    ∧ (zeroKernel C).userinit.ticks = 0
    ∧ ∀ i, ((zeroKernel C).userinit.proc i).state ≠ .running := by
  have hzero : ∀ i, ((zeroKernel C).proc i).state ≠ .running := fun i => by
    show zeroProc.state ≠ _
    decide
  rw [Kernel.userinit]
  rcases allocproc_cases (zeroKernel C) true with ⟨k', e, hcpu, hticks, hq⟩
    | ⟨i, p, k', e, hcpu, hticks, hun, hproc, -⟩
  · rw [e]
    exact ⟨hcpu, hticks, fun i => (hq i).not_running (hzero i)⟩
  · rw [e]
    refine ⟨hcpu, hticks, fun j => ?_⟩
    exact (quiet_fill hproc (.create hun rfl) j).not_running (hzero j)

omit [DecidableEq C] in
theorem cpuOk_userinit : CpuOk (zeroKernel C).userinit := by
  obtain ⟨hcpu, -, -⟩ := userinit_idle (C := C)
  refine ⟨fun c i hc => ?_, fun c c' i hc => ?_⟩
  · rw [hcpu] at hc
    exact absurd hc (by simp)
  · rw [hcpu] at hc
    exact absurd hc (by simp)

/-- The kernel on the CPUs of `C`. -/
def stcf (C : Type*) [DecidableEq C] : Transition.System (Kernel C) where
  init k := k = (zeroKernel C).userinit
  step := Step

theorem cpuOk_reachable {k : Kernel C} (h : (stcf C).Reachable k) : CpuOk k := by
  refine h.invariant ?_ fun _ _ _ => cpuOk_step
  rintro k rfl
  exact cpuOk_userinit

end SystemsPortfolio.Stcf
