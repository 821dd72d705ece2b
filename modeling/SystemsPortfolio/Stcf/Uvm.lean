/-
SystemsPortfolio/Stcf/Uvm.lean

The page directories of the processes (`vm.c`, and the parts of `proc.c` and `exec.c` that
give a process its directory).

`fork` and `exec` make a new directory, `clone` shares the one of its caller, and `freevm`
is called where a process leaves its directory: in `exec` for the old one, in `wait` for
that of the dead child.  The table `uvmrefcount` counts the processes on a directory, but
only from its first `clone` on.  A directory is the address of its page, and an address
that has been freed may be handed out again.

Beside the code's own state there are two counters a directory: how often its page has been
allocated for a directory, and how often `freevm` has released it.
-/
import SystemsPortfolio.Stcf.Effects
import SystemsPortfolio.Lib.RefCount

namespace SystemsPortfolio.Stcf

variable {C A : Type*} [DecidableEq C] [DecidableEq A]

/-! ### The table of counts -/

/-- `struct uvmdesc`; the key is its field `pgdir`. -/
abbrev UvmDesc (A : Type*) := RefCount.Entry A

/-- `locate_uvmrefcount`. -/
def locateUvmrefcount (desc : Slot → UvmDesc A) (pgdir : Option A) : Option Slot :=
  (List.finRange nproc).find? fun i => (desc i).refcount ≠ -1 ∧ (desc i).key = pgdir

/-- `allocate_uvmrefcount`. -/
def allocateUvmrefcount (desc : Slot → UvmDesc A) (pgdir : Option A) (refcount : Int) :
    Option (Slot → UvmDesc A) :=
  match (List.finRange nproc).find? fun i => (desc i).refcount = -1 with
  | some i => some (Function.update desc i ⟨refcount, pgdir⟩)
  | none => none

/-- The kernel with the directory of each process (null is `none`) and the table. -/
structure UvmState (C A : Type*) where
  k : Kernel C
  pgdir : Slot → Option A
  desc : Slot → UvmDesc A
  allocated : A → Nat
  released : A → Nat

/-- The page `d` becomes a directory. -/
def UvmState.kalloc (s : UvmState C A) (d : A) : UvmState C A :=
  { s with allocated := Function.update s.allocated d (s.allocated d + 1) }

/-- The end of `freevm`; `none` is the panic of a null directory. -/
def UvmState.release (s : UvmState C A) : Option A → Option (UvmState C A)
  | none => none
  | some d => some { s with released := Function.update s.released d (s.released d + 1) }

/-- `freevm`; `none` is a panic. -/
def UvmState.freevm (s : UvmState C A) (pgdir : Option A) : Option (UvmState C A) :=
  match locateUvmrefcount s.desc pgdir with
  | some i =>
      if (s.desc i).refcount < 1 then none
      else if (s.desc i).refcount - 1 ≠ 0 then
        some { s with desc :=
          Function.update s.desc i { s.desc i with refcount := (s.desc i).refcount - 1 } }
      else ({ s with desc := Function.update s.desc i { s.desc i with refcount := -1 } } :
        UvmState C A).release pgdir
  | none => s.release pgdir

/-! ### Making a directory -/

/-- How `setupkvm` and what follows it in `copyuvm` or `exec` ends: with a directory, with
one that is given to `freevm` again, or without a page for one. -/
inductive Built (A : Type*)
  | done (d : A)
  | failed (d : A)
  | noPage

/-- The page comes from the free ones. -/
def Built.Fresh (s : UvmState C A) : Built A → Prop
  | .done d => s.allocated d ≤ s.released d
  | .failed d => s.allocated d ≤ s.released d
  | .noPage => True

/-- The directory that is made, or null. -/
def UvmState.build (s : UvmState C A) : Built A → Option (Option A × UvmState C A)
  | .done d => some (some d, s.kalloc d)
  | .failed d => ((s.kalloc d).freevm (some d)).map fun s => (none, s)
  | .noPage => some (none, s)

/-! ### The calls -/

/-- `fork` by the process `cur` of CPU `c`. -/
def UvmState.fork (s : UvmState C A) (c : C) (cur : Slot) (kallocOk : Bool) (r : Built A) :
    Option (UvmState C A) :=
  match (s.k.allocproc kallocOk).1 with
  | none => some { s with k := (s.k.fork c cur kallocOk true).2 }
  | some i => (s.build r).map fun (d, s) => { s with
      k := (s.k.fork c cur kallocOk d.isSome).2
      pgdir := Function.update s.pgdir i d }

/-- `clone` by the process `cur`; it does not look at what `allocate_uvmrefcount` returns. -/
def UvmState.clone (s : UvmState C A) (cur : Slot) (kallocOk : Bool) : UvmState C A :=
  match (s.k.allocproc kallocOk).1 with
  | none => { s with k := (s.k.clone cur kallocOk).2 }
  | some i => { s with
      k := (s.k.clone cur kallocOk).2
      pgdir := Function.update s.pgdir i (s.pgdir cur)
      desc :=
        match locateUvmrefcount s.desc (s.pgdir cur) with
        | some j =>
            Function.update s.desc j { s.desc j with refcount := (s.desc j).refcount + 1 }
        | none => (allocateUvmrefcount s.desc (s.pgdir cur) 2).getD s.desc }

/-- `exec` by the process `cur`. -/
def UvmState.exec (s : UvmState C A) (cur : Slot) (r : Built A) : Option (UvmState C A) :=
  match s.build r with
  | none => none
  | some (none, s) => some s
  | some (some d, s) =>
      ({ s with pgdir := Function.update s.pgdir cur (some d) } : UvmState C A).freevm
        (s.pgdir cur)

/-- The child that `wait` by `cur` finds. -/
def Kernel.zombieChild (k : Kernel C) (cur : Slot) : Option Slot :=
  (List.finRange nproc).find? fun i =>
    (k.proc i).parent = some cur ∧ (k.proc i).state = .zombie

/-- One round of the loop of `wait` by `cur`. -/
def UvmState.wait (s : UvmState C A) (c : C) (cur : Slot) : Option (UvmState C A) :=
  match s.k.zombieChild cur with
  | none => some { s with k := (s.k.wait c cur).2 }
  | some i => (s.freevm (s.pgdir i)).map fun s => { s with k := (s.k.wait c cur).2 }

/-- One step; `none` is a panic of `freevm`.  The steps of the kernel that neither take nor
free a slot, `exit` among them, leave the directories alone. -/
inductive UvmStep : UvmState C A → Option (UvmState C A) → Prop
  | fork (s : UvmState C A) (c : C) (cur : Slot) (kallocOk : Bool) (r : Built A)
      (h : s.k.cpu c = some cur) (hr : r.Fresh s) : UvmStep s (s.fork c cur kallocOk r)
  | clone (s : UvmState C A) (c : C) (cur : Slot) (kallocOk : Bool)
      (h : s.k.cpu c = some cur) : UvmStep s (some (s.clone cur kallocOk))
  | exec (s : UvmState C A) (c : C) (cur : Slot) (r : Built A) (h : s.k.cpu c = some cur)
      (hr : r.Fresh s) : UvmStep s (s.exec cur r)
  | wait (s : UvmState C A) (c : C) (cur : Slot) (h : s.k.cpu c = some cur) :
      UvmStep s (s.wait c cur)
  | other (s : UvmState C A) (k' : Kernel C) (h : Step s.k k')
      (hslots : ∀ i, (k'.proc i).state = .unused ↔ (s.k.proc i).state = .unused) :
      UvmStep s (some { s with k := k' })

/-- The first process with its directory `d₀`, after `pinit` has cleared the table. -/
def uvmStart (C : Type*) (d₀ : A) : UvmState C A where
  k := (zeroKernel C).userinit
  pgdir := Function.update (fun _ => none) (zeroKernel C).userinit.initproc (some d₀)
  desc := fun _ => ⟨-1, none⟩
  allocated := Function.update (fun _ => 0) d₀ 1
  released := fun _ => 0

/-- The runs of the kernel with its directories. -/
def uvmRuns (C : Type*) [DecidableEq C] (d₀ : A) : Transition.System (UvmState C A) where
  init s := s = uvmStart C d₀
  step s s' := UvmStep s (some s')

/-! ### Slots taken and freed -/

/-- The two kernels have the same slots in use, but for `i`. -/
def SlotsBut (i : Slot) (k k' : Kernel C) : Prop :=
  ∀ j, j ≠ i → ((k'.proc j).state = .unused ↔ (k.proc j).state = .unused)

/-- The two kernels have the same slots in use. -/
def SameSlots (k k' : Kernel C) : Prop :=
  ∀ j, (k'.proc j).state = .unused ↔ (k.proc j).state = .unused

variable {k k' : Kernel C} {c : C} {cur i : Slot}

omit [DecidableEq C] in
theorem SlotsBut.same (h : SlotsBut i k k')
    (hi : (k'.proc i).state = .unused ↔ (k.proc i).state = .unused) : SameSlots k k' := by
  intro j
  rcases eq_or_ne j i with rfl | hne
  · exact hi
  · exact h j hne

omit [DecidableEq C] in
theorem slotsBut_setProc {p : Proc} (h : SlotsBut i k k') : SlotsBut i k (k'.setProc i p) := by
  intro j hj
  rw [setProc_of_ne _ hj]
  exact h j hj

/-- The end of a slice frees no slot. -/
theorem switchOut_slots (k : Kernel C) (c : C) (cur : Slot) {st : ProcState} (hst : st ≠ .unused)
    (hrun : (k.proc cur).state = .running) : SameSlots k (k.switchOut c cur st) := by
  have hset : SlotsBut cur k (k.switchOut c cur st) := fun j hj => by
    rw [show (k.switchOut c cur st).proc j = k.proc j from setProc_of_ne _ hj _]
  refine hset.same ?_
  rw [show ((k.switchOut c cur st).proc cur).state = st from
    congrArg Proc.state (setProc_self ..), hrun]
  exact iff_of_false hst (by decide)

omit [DecidableEq C] in
/-- `allocproc` takes the slot it returns. -/
theorem allocproc_slots (k : Kernel C) (kallocOk : Bool) :
    (∃ k', k.allocproc kallocOk = (none, k') ∧ SameSlots k k')
      ∨ ∃ i k', k.allocproc kallocOk = (some i, k') ∧ (k.proc i).state = .unused
        ∧ ∀ j, j ≠ i → k'.proc j = k.proc j := by
  have hother {i : Slot} {p : Proc} {k' : Kernel C} (h : Took i p k k') (j : Slot)
      (hj : j ≠ i) : k'.proc j = k.proc j := by
    rw [h.proc, Function.update_of_ne hj]
  rcases allocproc_took k kallocOk with e | ⟨i, p, k', e, h, hp, -⟩ | ⟨i, p, k', e, h, -⟩
  · exact .inl ⟨k, e, fun j => Iff.rfl⟩
  · refine .inl ⟨k', e, SlotsBut.same (i := i) (fun j hj => by rw [hother h j hj]) ?_⟩
    rw [h.proc, Function.update_self]
    exact iff_of_true hp h.unused
  · exact .inr ⟨i, k', e, h.unused, hother h⟩

omit [DecidableEq C] in
theorem allocproc_ne_none (h : (k.proc i).state = .unused) : (k.allocproc true).1 ≠ none := by
  rw [Kernel.allocproc]
  split
  · next e =>
      have := List.find?_eq_none.1 e i (List.mem_finRange i)
      exact absurd (decide_eq_true h) this
  · simp

theorem fork_slots (k : Kernel C) (c : C) (kallocOk copyOk : Bool)
    (hrun : (k.proc cur).state = .running) :
    ((k.allocproc kallocOk).1 = none → SameSlots k (k.fork c cur kallocOk copyOk).2)
      ∧ ∀ i, (k.allocproc kallocOk).1 = some i → (k.proc i).state = .unused
        ∧ SlotsBut i k (k.fork c cur kallocOk copyOk).2
        ∧ (((k.fork c cur kallocOk copyOk).2.proc i).state = .unused ↔ copyOk = false) := by
  rw [Kernel.fork]
  rcases allocproc_slots k kallocOk with ⟨k', e, hsame⟩ | ⟨i, k', e, hun, hother⟩
  · rw [e]
    exact ⟨fun _ => hsame, fun i hi => absurd hi (by simp)⟩
  · rw [e]
    have hbut : SlotsBut i k k' := fun j hj => by rw [hother j hj]
    have hne : cur ≠ i := by
      rintro rfl
      exact absurd (hrun.symm.trans hun) (by decide)
    refine ⟨fun h => absurd h (by simp), ?_⟩
    rintro _ ⟨⟩
    refine ⟨hun, ?_⟩
    rcases copyOk with - | -
    · exact ⟨slotsBut_setProc hbut, iff_of_true (congrArg Proc.state (setProc_self ..)) rfl⟩
    · have hleave := switchOut_slots (k'.forkChild cur i) c cur
        (show ProcState.runnable ≠ .unused by decide)
        (by rw [Kernel.forkChild, setProc_of_ne _ hne, hother cur hne]; exact hrun)
      refine ⟨fun j hj => (hleave j).trans (slotsBut_setProc hbut j hj), ?_⟩
      refine (hleave i).trans (iff_of_false ?_ (by simp))
      rw [Kernel.forkChild, setProc_self]
      simp

omit [DecidableEq C] in
theorem clone_slots (k : Kernel C) (cur : Slot) (kallocOk : Bool) :
    ((k.allocproc kallocOk).1 = none → SameSlots k (k.clone cur kallocOk).2)
      ∧ ∀ i, (k.allocproc kallocOk).1 = some i → (k.proc i).state = .unused
        ∧ SlotsBut i k (k.clone cur kallocOk).2
        ∧ ((k.clone cur kallocOk).2.proc i).state ≠ .unused := by
  rw [Kernel.clone]
  rcases allocproc_slots k kallocOk with ⟨k', e, hsame⟩ | ⟨i, k', e, hun, hother⟩
  · rw [e]
    exact ⟨fun _ => hsame, fun i hi => absurd hi (by simp)⟩
  · rw [e]
    refine ⟨fun h => absurd h (by simp), ?_⟩
    rintro _ ⟨⟩
    refine ⟨hun, slotsBut_setProc fun j hj => ?_, ?_⟩
    · rcases eq_or_ne j cur with rfl | hjc
      · rw [setProc_self, hother j hj]
      · rw [setProc_of_ne _ hjc, hother j hj]
    · dsimp only [Kernel.cloneChild]
      rw [setProc_self]
      simp

theorem wait_slots (k : Kernel C) (c : C) (hrun : (k.proc cur).state = .running) :
    (k.zombieChild cur = none → SameSlots k (k.wait c cur).2)
      ∧ ∀ i, k.zombieChild cur = some i → (k.proc i).state = .zombie
        ∧ SlotsBut i k (k.wait c cur).2 ∧ ((k.wait c cur).2.proc i).state = .unused := by
  rw [Kernel.wait, ← Kernel.zombieChild]
  rcases e : k.zombieChild cur with - | i
  · refine ⟨fun _ => ?_, fun i hi => absurd hi (by simp)⟩
    dsimp only
    split
    · exact fun j => Iff.rfl
    · have hset : SameSlots k (k.setProc cur { k.proc cur with chan := some (.proc cur) }) :=
        SlotsBut.same (i := cur) (slotsBut_setProc fun j _ => Iff.rfl) (by rw [setProc_self])
      have hrun' : ((k.setProc cur { k.proc cur with chan := some (.proc cur) }).proc cur).state
          = .running := by
        rw [setProc_self]
        exact hrun
      exact fun j => (switchOut_slots _ c cur (by decide) hrun' j).trans (hset j)
  · have hz : (k.proc i).parent = some cur ∧ (k.proc i).state = .zombie := by
      simpa using List.find?_some e
    refine ⟨fun h => absurd h (by simp), ?_⟩
    rintro _ ⟨⟩
    exact ⟨hz.2, slotsBut_setProc fun j _ => Iff.rfl, congrArg Proc.state (setProc_self ..)⟩

/-! ### The kernel below -/

variable {s s' : UvmState C A} {d : A}

omit [DecidableEq C] in
/-- `freevm` does not touch the process table. -/
theorem freevm_kernel {pgdir : Option A} (h : s.freevm pgdir = some s') : s'.k = s.k := by
  have hrelease {s₁ : UvmState C A} (h : s₁.release pgdir = some s') : s'.k = s₁.k := by
    rcases pgdir with - | d
    · exact absurd h (by simp [UvmState.release])
    · obtain rfl := Option.some.inj h
      rfl
  rw [UvmState.freevm] at h
  split at h
  · split at h
    · exact absurd h (by simp)
    · split at h
      · obtain rfl := Option.some.inj h
        rfl
      · have hk := hrelease h
        exact hk
  · exact hrelease h

omit [DecidableEq C] in
theorem build_kernel {r : Built A} {o : Option A} (h : s.build r = some (o, s')) :
    s'.k = s.k := by
  cases r with
  | done d =>
      obtain ⟨-, rfl⟩ := Prod.mk.inj (Option.some.inj h)
      rfl
  | failed d =>
      obtain ⟨s₁, hs₁, e⟩ := Option.map_eq_some_iff.1 h
      obtain ⟨-, rfl⟩ := Prod.mk.inj e
      have hk := freevm_kernel hs₁
      exact hk
  | noPage =>
      obtain ⟨-, rfl⟩ := Prod.mk.inj (Option.some.inj h)
      rfl

/-- Without its directories a run is one of the kernel. -/
theorem uvm_refines (d₀ : A) : (uvmRuns C d₀).Refines (stcf C) UvmState.k := by
  refine ⟨?_, ?_⟩
  · rintro _ rfl
    rfl
  · intro s s' _ hs
    change UvmStep s (some s') at hs
    generalize hr : some s' = r at hs
    cases hs with
    | fork c cur kallocOk b hc _ =>
        left
        rw [UvmState.fork] at hr
        split at hr
        · obtain rfl := Option.some.inj hr
          exact .fork s.k c cur kallocOk true hc
        · obtain ⟨⟨o, s₁⟩, hb, e⟩ := Option.map_eq_some_iff.1 hr.symm
          subst e
          show Step s.k (s₁.k.fork c cur kallocOk o.isSome).2
          rw [build_kernel hb]
          exact .fork s.k c cur kallocOk o.isSome hc
    | clone c cur kallocOk hc =>
        left
        obtain rfl := Option.some.inj hr
        have hk : (s.clone cur kallocOk).k = (s.k.clone cur kallocOk).2 := by
          rw [UvmState.clone]
          split <;> rfl
        rw [hk]
        exact .clone s.k c cur kallocOk hc
    | exec c cur b hc _ =>
        right
        rw [UvmState.exec] at hr
        split at hr
        · exact absurd hr (by simp)
        · next hb =>
            obtain rfl := Option.some.inj hr
            exact build_kernel hb
        · next s₁ hb =>
            have hk := freevm_kernel hr.symm
            exact Eq.trans (b := s₁.k) hk (build_kernel hb)
    | wait c cur hc =>
        left
        rw [UvmState.wait] at hr
        split at hr
        · obtain rfl := Option.some.inj hr
          exact .wait s.k c cur hc
        · obtain ⟨s₁, hs₁, rfl⟩ := Option.map_eq_some_iff.1 hr.symm
          rw [freevm_kernel hs₁]
          exact .wait s.k c cur hc
    | other k' hk _ =>
        obtain rfl := Option.some.inj hr
        exact .inl hk

/-! ### Users of a directory -/

open RefCount

/-- The directory a slot in use is on. -/
def UvmState.use (s : UvmState C A) (i : Slot) : Option A :=
  if (s.k.proc i).state = .unused then none else s.pgdir i

/-- The number of slots in use, zombies included, that are on `d`. -/
def UvmState.users (s : UvmState C A) (d : A) : Nat :=
  (Finset.univ.filter fun i => (s.k.proc i).state ≠ .unused ∧ s.pgdir i = some d).card

omit [DecidableEq C] in
theorem users_eq (s : UvmState C A) (d : A) : s.users d = RefCount.users s.use d := by
  refine congrArg Finset.card (Finset.filter_congr fun i _ => ?_)
  rw [UvmState.use]
  split
  · next e => exact iff_of_false (fun h => h.1 e) (by simp)
  · next e => exact ⟨fun h => h.2, fun h => ⟨e, h⟩⟩

omit [DecidableEq C] [DecidableEq A] in
theorem use_of_used (h : (s.k.proc i).state ≠ .unused) : s.use i = s.pgdir i :=
  if_neg h

omit [DecidableEq C] [DecidableEq A] in
theorem use_of_unused (h : (s.k.proc i).state = .unused) : s.use i = none :=
  if_pos h

omit [DecidableEq C] [DecidableEq A] in
theorem use_eq_of_same (h : SameSlots s.k s'.k) (hdir : s'.pgdir = s.pgdir) :
    s'.use = s.use := by
  funext j
  rw [UvmState.use, UvmState.use, hdir]
  exact if_congr (h j) rfl rfl

omit [DecidableEq C] [DecidableEq A] in
theorem use_eq_update (h : SlotsBut i s.k s'.k) (hdir : ∀ j, j ≠ i → s'.pgdir j = s.pgdir j) :
    s'.use = Function.update s.use i (s'.use i) := by
  funext j
  rcases eq_or_ne j i with rfl | hne
  · rw [Function.update_self]
  · rw [Function.update_of_ne hne, UvmState.use, UvmState.use, hdir j hne]
    exact if_congr (h j hne) rfl rfl

/-! ### What `freevm` does -/

theorem locateUvmrefcount_some {desc : Slot → UvmDesc A} {pgdir : Option A} {i : Slot}
    (h : locateUvmrefcount desc pgdir = some i) : (desc i).Valid ∧ (desc i).key = pgdir := by
  simpa [Entry.Valid] using List.find?_some h

theorem locateUvmrefcount_none {desc : Slot → UvmDesc A} {pgdir : Option A}
    (h : locateUvmrefcount desc pgdir = none) (j : Slot) (hj : (desc j).Valid) :
    (desc j).key ≠ pgdir := by
  have := List.find?_eq_none.1 h j (List.mem_finRange j)
  simp only [ne_eq, decide_eq_true_eq, not_and] at this
  exact this hj

variable {use : Slot → Option A}

omit [DecidableEq C] in
/-- For a user that leaves `d`, `freevm` keeps the counts, and it releases the page exactly
when no user is left. -/
theorem freevm_leave (h : Counts s.desc use) (hi : use i = some d) :
    ∃ desc', s.freevm (some d) = some { s with
        desc := desc'
        released := if RefCount.users (Function.update use i none) d = 0 then
          Function.update s.released d (s.released d + 1) else s.released }
      ∧ Counts desc' (Function.update use i none) := by
  rw [UvmState.freevm]
  rcases e : locateUvmrefcount s.desc (some d) with - | j
  · obtain ⟨hzero, hcounts⟩ := h.leave_single hi (locateUvmrefcount_none e)
    refine ⟨s.desc, ?_, hcounts⟩
    rw [if_pos hzero]
    rfl
  · obtain ⟨hv, hkey⟩ := locateUvmrefcount_some e
    obtain ⟨hcount, hpos⟩ := h.refcount_eq hv hkey
    dsimp only
    rw [if_neg (by omega)]
    by_cases hlast : (s.desc j).refcount - 1 = 0
    · obtain ⟨hzero, hcounts⟩ := h.leave_last hi hv hkey hlast
      refine ⟨_, ?_, hcounts⟩
      rw [if_neg (not_not.2 hlast), if_pos hzero]
      rfl
    · have hleave := users_leave hi
      refine ⟨_, ?_, h.leave_counted hi hv hkey hlast⟩
      rw [if_pos hlast, if_neg (by omega)]

omit [DecidableEq C] in
/-- A directory that nobody is on is released at once. -/
theorem freevm_unused (h : Counts s.desc use) (hd : RefCount.users use d = 0) :
    s.freevm (some d)
      = some { s with released := Function.update s.released d (s.released d + 1) } := by
  rw [UvmState.freevm]
  rcases e : locateUvmrefcount s.desc (some d) with - | j
  · rfl
  · obtain ⟨hv, hkey⟩ := locateUvmrefcount_some e
    have := (h.refcount_eq hv hkey).2
    omega

omit [DecidableEq C] in
/-- Making a directory gives one that nobody is on, or leaves everything as it was. -/
theorem build_cases {r : Built A} (h : Counts s.desc use)
    (hp : Returned s.allocated s.released use) (hr : r.Fresh s) :
    (∃ d, s.build r = some (some d, s.kalloc d) ∧ RefCount.users use d = 0
        ∧ s.allocated d ≤ s.released d)
      ∨ ∃ alloc rel, s.build r = some (none, { s with allocated := alloc, released := rel })
        ∧ Returned alloc rel use
        ∧ ∀ d, s.released d < s.allocated d → alloc d = s.allocated d := by
  cases r with
  | done d => exact .inl ⟨d, rfl, hp.users_eq_zero hr, hr⟩
  | failed d =>
      have hd : RefCount.users use d = 0 := hp.users_eq_zero hr
      refine .inr ⟨_, _, ?_, hp.bounce d, fun b hb => ?_⟩
      · rw [UvmState.build, freevm_unused (s := s.kalloc d) h hd]
        rfl
      · refine Function.update_of_ne ?_ ..
        rintro rfl
        exact absurd hr (Nat.not_le.2 hb)
  | noPage => exact .inr ⟨_, _, rfl, hp, fun _ _ => rfl⟩

/-! ### The invariant -/

/-- Every process has a directory, the table counts the processes on each, and a page has
been released as often as it was allocated, but for once while a process is on it. -/
structure UvmInv (s : UvmState C A) : Prop where
  ok : CpuOk s.k
  dirs : ∀ i, (s.k.proc i).state ≠ .unused → s.pgdir i ≠ none
  counts : Counts s.desc s.use
  pages : Returned s.allocated s.released s.use

/-- What a step leads to: no panic, the invariant, and no page allocated that was not
free. -/
def Leads (s : UvmState C A) (r : Option (UvmState C A)) : Prop :=
  ∃ s', r = some s' ∧ UvmInv s'
    ∧ ∀ d, s.released d < s.allocated d → s'.allocated d = s.allocated d

omit [DecidableEq C] in
/-- The slots stay, and so do the directories. -/
theorem UvmInv.stay (h : UvmInv s) (hok : CpuOk k') (hslots : SameSlots s.k k') :
    UvmInv { s with k := k' } := by
  have huse : { s with k := k' }.use = s.use := use_eq_of_same hslots rfl
  exact ⟨hok, fun i hi => h.dirs i (mt (hslots i).2 hi), huse ▸ h.counts, huse ▸ h.pages⟩

omit [DecidableEq C] in
/-- One slot is taken or freed, or changes its directory. -/
theorem UvmInv.change {o : Option A} (h : UvmInv s) (hok : CpuOk s'.k)
    (hslots : SlotsBut i s.k s'.k) (hdir : ∀ j, j ≠ i → s'.pgdir j = s.pgdir j)
    (hi : (s'.k.proc i).state ≠ .unused → s'.pgdir i ≠ none) (ho : s'.use i = o)
    (hcounts : Counts s'.desc (Function.update s.use i o))
    (hpages : Returned s'.allocated s'.released (Function.update s.use i o)) : UvmInv s' := by
  have huse := use_eq_update hslots hdir
  rw [ho] at huse
  refine ⟨hok, fun j hj => ?_, huse ▸ hcounts, huse ▸ hpages⟩
  rcases eq_or_ne j i with rfl | hne
  · exact hi hj
  · rw [hdir j hne]
    exact h.dirs j (mt (hslots j hne).2 hj)

omit [DecidableEq C] in
theorem kalloc_kept (hfree : s.allocated d ≤ s.released d) (b : A)
    (hb : s.released b < s.allocated b) : (s.kalloc d).allocated b = s.allocated b := by
  refine Function.update_of_ne ?_ ..
  rintro rfl
  exact absurd hfree (Nat.not_le.2 hb)

theorem leads_fork {r : Built A} (kallocOk : Bool) (h : UvmInv s) (hc : s.k.cpu c = some cur)
    (hr : r.Fresh s) : Leads s (s.fork c cur kallocOk r) := by
  have hok (copyOk : Bool) := cpuOk_step h.ok (.fork s.k c cur kallocOk copyOk hc)
  have hslots (copyOk : Bool) := fork_slots s.k c kallocOk copyOk (h.ok.running c cur hc)
  rw [UvmState.fork]
  rcases e : (s.k.allocproc kallocOk).1 with - | i
  · exact ⟨_, rfl, h.stay (hok true) ((hslots true).1 e), fun _ _ => rfl⟩
  · have hnone := use_of_unused ((hslots true).2 i e).1
    dsimp only
    rcases build_cases h.counts h.pages hr with ⟨d, hb, hzero, hfree⟩ | ⟨alloc, rel, hb, hp, hkept⟩
    · -- the child gets the slot and the directory
      obtain ⟨-, hbut, hnew⟩ := (hslots true).2 i e
      have hused : ((s.k.fork c cur kallocOk true).2.proc i).state ≠ .unused := by
        simpa using hnew
      rw [hb]
      refine ⟨_, rfl, h.change (i := i) (o := some d) (hok true) hbut ?_ ?_ ?_ ?_ ?_,
        kalloc_kept hfree⟩
      · exact fun j hj => Function.update_of_ne hj ..
      · exact fun _ => by simp
      · exact (use_of_used hused).trans (Function.update_self ..)
      · exact h.counts.join_fresh hnone hzero
      · exact h.pages.join hnone hzero
    · -- the slot is given back
      obtain ⟨-, hbut, hnew⟩ := (hslots false).2 i e
      have hun := hnew.2 rfl
      rw [hb]
      refine ⟨_, rfl, h.change (i := i) (o := none) (hok false) hbut ?_ ?_ ?_ ?_ ?_, hkept⟩
      · exact fun j hj => Function.update_of_ne hj ..
      · exact fun hi => absurd hun hi
      · exact use_of_unused hun
      · rw [← hnone, Function.update_eq_self]
        exact h.counts
      · rw [← hnone, Function.update_eq_self]
        exact hp

omit [DecidableEq C] in
/-- The directory of the process of a CPU. -/
theorem UvmInv.use_running (h : UvmInv s) (hc : s.k.cpu c = some cur) :
    ∃ d, s.pgdir cur = some d ∧ s.use cur = some d := by
  have hused : (s.k.proc cur).state ≠ .unused := by
    rw [h.ok.running c cur hc]
    decide
  obtain ⟨d, hd⟩ := Option.ne_none_iff_exists'.1 (h.dirs cur hused)
  exact ⟨d, hd, (use_of_used hused).trans hd⟩

omit [DecidableEq C] in
/-- `allocate_uvmrefcount` finds an entry when a process on an uncounted directory calls. -/
theorem allocateUvmrefcount_some (h : UvmInv s) (hc : s.k.cpu c = some cur)
    (hno : locateUvmrefcount s.desc (s.pgdir cur) = none) :
    ∃ j, ¬ (s.desc j).Valid ∧ allocateUvmrefcount s.desc (s.pgdir cur) 2
      = some (Function.update s.desc j ⟨2, s.pgdir cur⟩) := by
  obtain ⟨d, hd, huse⟩ := h.use_running hc
  rw [hd] at hno
  obtain ⟨i, hi⟩ := h.counts.exists_free le_rfl huse (locateUvmrefcount_none hno)
  rw [allocateUvmrefcount]
  rcases e : (List.finRange nproc).find? fun i => (s.desc i).refcount = -1 with - | j
  · have := List.find?_eq_none.1 e i (List.mem_finRange i)
    simp only [decide_eq_true_eq] at this
    exact absurd this hi
  · exact ⟨j, fun hv => hv (by simpa using List.find?_some e), rfl⟩

theorem leads_clone (kallocOk : Bool) (h : UvmInv s) (hc : s.k.cpu c = some cur) :
    Leads s (some (s.clone cur kallocOk)) := by
  have hok := cpuOk_step h.ok (.clone s.k c cur kallocOk hc)
  obtain ⟨hsame, hslots⟩ := clone_slots s.k cur kallocOk
  refine ⟨_, rfl, ?_, fun d _ => ?_⟩
  · rw [UvmState.clone]
    rcases e : (s.k.allocproc kallocOk).1 with - | i
    · exact h.stay hok (hsame e)
    · obtain ⟨hun, hbut, hused⟩ := hslots i e
      obtain ⟨d, hd, huse⟩ := h.use_running hc
      have hnone := use_of_unused hun
      have hpos : 0 < RefCount.users s.use d := users_pos.2 ⟨cur, huse⟩
      dsimp only
      refine h.change (i := i) (o := some d) hok hbut ?_ ?_ ?_ ?_ (h.pages.share hnone hpos)
      · exact fun j hj => Function.update_of_ne hj ..
      · show _ → Function.update s.pgdir i (s.pgdir cur) i ≠ none
        rw [Function.update_self, hd]
        exact fun _ => by simp
      · exact (use_of_used hused).trans ((Function.update_self ..).trans hd)
      · rw [hd]
        rcases hl : locateUvmrefcount s.desc (some d) with - | j
        · -- the first clone makes the entry
          obtain ⟨j, hfree, halloc⟩ := allocateUvmrefcount_some h hc (hd ▸ hl)
          rw [hd] at halloc
          rw [halloc]
          exact h.counts.join_new hnone hpos (locateUvmrefcount_none hl) hfree
        · obtain ⟨hv, hkey⟩ := locateUvmrefcount_some hl
          exact h.counts.join_counted hnone hv hkey
  · rw [UvmState.clone]
    split <;> rfl

omit [DecidableEq C] in
theorem leads_exec {r : Built A} (h : UvmInv s) (hc : s.k.cpu c = some cur) (hr : r.Fresh s) :
    Leads s (s.exec cur r) := by
  rw [UvmState.exec]
  rcases build_cases h.counts h.pages hr with ⟨d, hb, hzero, hfree⟩ | ⟨alloc, rel, hb, hp, hkept⟩
  · -- the process leaves its old directory and is the only one on the new
    obtain ⟨old, hold, huse⟩ := h.use_running hc
    rw [hb]
    dsimp only
    rw [show (s.kalloc d).pgdir cur = some old from hold]
    obtain ⟨desc', hfreevm, hcounts⟩ := freevm_leave (s := { s.kalloc d with
      pgdir := Function.update (s.kalloc d).pgdir cur (some d) }) h.counts huse
    rw [hfreevm]
    have hused : (s.k.proc cur).state ≠ .unused := by
      rw [h.ok.running c cur hc]
      decide
    have hnone : Function.update s.use cur none cur = none := Function.update_self ..
    have hne : d ≠ old := by
      rintro rfl
      have := users_pos.2 ⟨cur, huse⟩
      omega
    have hzero' := (users_leave_of_ne huse hne).trans hzero
    refine ⟨_, rfl, h.change (i := cur) (o := some d) h.ok (fun j _ => Iff.rfl) ?_ ?_ ?_ ?_ ?_,
      kalloc_kept hfree⟩
    · exact fun j hj => Function.update_of_ne hj ..
    · exact fun _ => by simp
    · exact (if_neg hused).trans (Function.update_self ..)
    · have := hcounts.join_fresh hnone hzero'
      rwa [Function.update_idem] at this
    · have := (h.pages.leave huse).join hnone hzero'
      rwa [Function.update_idem] at this
  · rw [hb]
    exact ⟨_, rfl, ⟨h.ok, h.dirs, h.counts, hp⟩, hkept⟩

theorem leads_wait (h : UvmInv s) (hc : s.k.cpu c = some cur) : Leads s (s.wait c cur) := by
  have hok := cpuOk_step h.ok (.wait s.k c cur hc)
  obtain ⟨hsame, hslots⟩ := wait_slots s.k c (h.ok.running c cur hc)
  rw [UvmState.wait]
  rcases e : s.k.zombieChild cur with - | i
  · exact ⟨_, rfl, h.stay hok (hsame e), fun _ _ => rfl⟩
  · obtain ⟨hz, hbut, hun⟩ := hslots i e
    have hused : (s.k.proc i).state ≠ .unused := by
      rw [hz]
      decide
    obtain ⟨d, hd⟩ := Option.ne_none_iff_exists'.1 (h.dirs i hused)
    have huse : s.use i = some d := (use_of_used hused).trans hd
    obtain ⟨desc', hfreevm, hcounts⟩ := freevm_leave h.counts huse
    dsimp only
    rw [hd, hfreevm]
    refine ⟨_, rfl, h.change (i := i) (o := none) hok hbut ?_ ?_ ?_ hcounts ?_, fun _ _ => rfl⟩
    · exact fun j _ => rfl
    · exact fun hi => absurd hun hi
    · exact use_of_unused hun
    · exact h.pages.leave huse

theorem uvmStep_leads {r : Option (UvmState C A)} (h : UvmInv s) (hs : UvmStep s r) :
    Leads s r := by
  cases hs with
  | fork c cur kallocOk r hc hr => exact leads_fork kallocOk h hc hr
  | clone c cur kallocOk hc => exact leads_clone kallocOk h hc
  | exec c cur r hc hr => exact leads_exec h hc hr
  | wait c cur hc => exact leads_wait h hc
  | other k' hk hslots => exact ⟨_, rfl, h.stay (cpuOk_step h.ok hk) hslots, fun _ _ => rfl⟩

/-! ### Runs -/

omit [DecidableEq C] in
/-- `userinit` takes one slot, that of `initproc`. -/
theorem userinit_slots :
    SlotsBut (zeroKernel C).userinit.initproc (zeroKernel C) (zeroKernel C).userinit
      ∧ ((zeroKernel C).userinit.proc (zeroKernel C).userinit.initproc).state ≠ .unused := by
  rw [Kernel.userinit]
  rcases allocproc_slots (zeroKernel C) true with ⟨k', e, -⟩ | ⟨i, k', e, -, hother⟩
  · -- the table is empty, so there is a slot
    exact absurd (congrArg Prod.fst e) (allocproc_ne_none (i := (zeroKernel C).initproc) rfl)
  · rw [e]
    refine ⟨slotsBut_setProc fun j hj => by rw [hother j hj], ?_⟩
    rw [setProc_self]
    simp

omit [DecidableEq C] in
theorem uvmInv_start (d₀ : A) : UvmInv (uvmStart C d₀) := by
  obtain ⟨hbut, hused⟩ := userinit_slots (C := C)
  have hzero : ∀ d, RefCount.users (fun _ : Slot => (none : Option A)) d = 0 := fun d =>
    (Threads.numAt_eq_zero _).2 fun _ => by simp
  have huse : (uvmStart C d₀).use
      = Function.update (fun _ => none) (zeroKernel C).userinit.initproc (some d₀) := by
    funext j
    rcases eq_or_ne j (zeroKernel C).userinit.initproc with rfl | hne
    · exact use_of_used (s := uvmStart C d₀) hused
    · rw [Function.update_of_ne hne]
      exact use_of_unused ((hbut j hne).2 rfl)
  have hcounts : Counts (uvmStart C d₀).desc fun _ : Slot => none :=
    ⟨fun i hi => absurd rfl hi, fun i j hi => absurd rfl hi, fun d hd => by
      rw [hzero d] at hd
      omega⟩
  refine ⟨cpuOk_userinit, fun i hi => ?_, ?_, ?_⟩
  · rcases eq_or_ne i (zeroKernel C).userinit.initproc with rfl | hne
    · rw [uvmStart]
      dsimp only
      rw [Function.update_self]
      simp
    · exact absurd ((hbut i hne).2 rfl) hi
  · rw [huse]
    exact hcounts.join_fresh rfl (hzero d₀)
  · rw [huse]
    have hnone : Returned (fun _ : A => 0) (fun _ => 0) fun _ : Slot => none := fun d => by
      rw [hzero d]
      rfl
    exact hnone.join rfl (hzero d₀)

theorem uvmInv_reachable {d₀ : A} (h : (uvmRuns C d₀).Reachable s) : UvmInv s := by
  refine h.invariant ?_ ?_
  · rintro _ rfl
    exact uvmInv_start d₀
  · intro s s' _ hs hstep
    obtain ⟨_, e, hinv, -⟩ := uvmStep_leads hs hstep
    obtain rfl := Option.some.inj e
    exact hinv

/-- In every state, every directory that processes are on has one entry with their number,
or none and one process; each of its pages' lives ends with the last of them; no step
panics; and `clone` finds an entry for the count it starts. -/
theorem uvm_freed_once {d₀ : A} (h : (uvmRuns C d₀).Reachable s) :
    (∀ d, 1 ≤ s.users d →
      (∃ i, (s.desc i).refcount = s.users d ∧ ∀ j,
          (s.desc j).refcount ≠ -1 ∧ (s.desc j).key = some d ↔ j = i)
        ∨ (∀ j, ¬ ((s.desc j).refcount ≠ -1 ∧ (s.desc j).key = some d)) ∧ s.users d = 1)
      ∧ (∀ d, s.allocated d = s.released d + if 1 ≤ s.users d then 1 else 0)
      ∧ (∀ s', UvmStep s (some s') → ∀ d, 1 ≤ s.users d →
        s'.released d = s.released d + if s'.users d = 0 then 1 else 0)
      ∧ ¬ UvmStep s none
      ∧ ∀ c cur, s.k.cpu c = some cur → locateUvmrefcount s.desc (s.pgdir cur) = none →
        allocateUvmrefcount s.desc (s.pgdir cur) 2 ≠ none := by
  have hinv := uvmInv_reachable h
  simp only [users_eq]
  refine ⟨fun d hd => ?_, hinv.pages, fun s' hs d hd => ?_, fun hs => ?_, fun c cur hc hno => ?_⟩
  · rcases e : locateUvmrefcount s.desc (some d) with - | i
    · have hno := locateUvmrefcount_none e
      have := hinv.counts.users_le_one hno
      exact .inr ⟨fun j hj => hno j hj.1 hj.2, by omega⟩
    · obtain ⟨hv, hkey⟩ := locateUvmrefcount_some e
      refine .inl ⟨i, (hinv.counts.refcount_eq hv hkey).1, fun j => ⟨fun hj => ?_, ?_⟩⟩
      · exact hinv.counts.inj j i hj.1 hv (hj.2.trans hkey.symm)
      · rintro rfl
        exact ⟨hv, hkey⟩
  · obtain ⟨_, e, hinv', hkept⟩ := uvmStep_leads hinv hs
    obtain rfl := Option.some.inj e
    have hbefore := hinv.pages d
    rw [if_pos (show 0 < _ from hd)] at hbefore
    have hafter := hinv'.pages d
    rw [hkept d (by omega)] at hafter
    split at hafter <;> split <;> omega
  · obtain ⟨_, e, -⟩ := uvmStep_leads hinv hs
    exact absurd e (by simp)
  · obtain ⟨j, -, e⟩ := allocateUvmrefcount_some hinv hc hno
    rw [e]
    simp

/-- After a `clone` by the first process two slots are on its directory. -/
theorem uvm_freed_once_clone : ∃ s : UvmState Unit Nat, (uvmRuns Unit 0).Reachable s
    ∧ s.users 0 = 2 ∧ s.allocated 0 = s.released 0 + 1 ∧ ¬ UvmStep s none := by
  let s₀ : UvmState Unit Nat := uvmStart Unit 0
  have h₀ : (uvmRuns Unit 0).Reachable s₀ := .start rfl
  have h₁ := h₀.next (.other s₀ _ (.dispatch _ () rfl) (by decide +kernel))
  have h₂ := h₁.next (.clone _ () s₀.k.initproc true (by decide +kernel))
  obtain ⟨-, hpages, -, hpanic, -⟩ := uvm_freed_once h₂
  have htwo : (UvmState.clone { s₀ with k := s₀.k.dispatch () } s₀.k.initproc true).users 0
      = 2 := by
    decide +kernel
  refine ⟨_, h₂, htwo, ?_, hpanic⟩
  have := hpages 0
  rwa [htwo] at this

end SystemsPortfolio.Stcf
