/-
SystemsPortfolio/Xv6/BioRuns.lean

The buffer cache over whole runs.

`BioInv` puts together what holds of every buffer (`BufOk`), of the list of buffers and of
the queue of the driver, for any number of processes and buffers, and also for a disk that
fails.
-/
import SystemsPortfolio.Xv6.BioBufs

namespace SystemsPortfolio.Xv6

open CacheView Transition

variable {ι β : Type} [DecidableEq ι] [DecidableEq β] {s s' : BioState ι β} {t : ι} {b c : β}
  {p : BioProc β} {x : Buf ι}

/-! ### The places of the processes -/

/-- Where the processes are as seen from a buffer. -/
def BioState.on (s : BioState ι β) (b : β) (u : ι) : Place := (s.proc u).on b

/-- The buffer at which a process is. -/
def BioProc.target : BioProc β → Option β
  | .run => none
  | .acquiring b | .lockSleep b | .reading b | .waiting b | .ioSleep b | .releasing b => some b

omit [DecidableEq ι] in
/-- A process is at one buffer at most. -/
theorem BioProc.on_of_ne (h : p.target = none ∨ p.target = some b) (hc : c ≠ b) : p.on c = .out := by
  cases p with
  | run => rfl
  | _ d =>
      obtain rfl : d = b := by simpa [target] using h
      exact if_neg hc.symm

theorem BioState.on_update (hp : s'.proc = Function.update s.proc t p) (b : β) :
    s'.on b = Function.update (s.on b) t (p.on b) := by
  funext u
  rw [BioState.on, hp]
  rcases eq_or_ne u t with rfl | hu
  · rw [Function.update_self, Function.update_self]
  · rw [Function.update_of_ne hu, Function.update_of_ne hu]
    rfl

/-- Seen from the other buffers nothing moves. -/
theorem BioState.on_update_of_ne (hp : s'.proc = Function.update s.proc t p)
    (hold : (s.proc t).target = none ∨ (s.proc t).target = some b)
    (hnew : p.target = none ∨ p.target = some b) (hc : c ≠ b) : s'.on c = s.on c := by
  rw [on_update hp, BioProc.on_of_ne hnew hc, ← BioProc.on_of_ne hold hc]
  exact Function.update_eq_self ..

omit [DecidableEq ι] in
/-- `releasesleep` at a buffer, seen from that buffer. -/
theorem BioProc.on_unlock (p : BioProc β) (b : β) :
    (if p = .lockSleep b then .acquiring b else p).on b = (p.on b).unlocked := by
  by_cases hp : p = .lockSleep b
  · rw [if_pos hp, hp]
    simp [on, Place.unlocked]
  · rw [if_neg hp]
    cases p with
    | lockSleep d =>
        have hd : d ≠ b := fun e => hp (by rw [e])
        simp [on, hd, Place.unlocked]
    | run => rfl
    | _ d =>
        by_cases hd : d = b
        · simp [on, hd, Place.unlocked]
        · simp [on, hd, Place.unlocked]

omit [DecidableEq ι] in
theorem BioProc.on_unlock_of_ne (p : BioProc β) (hc : c ≠ b) :
    (if p = .lockSleep b then .acquiring b else p).on c = p.on c := by
  split_ifs with hp
  · rw [hp, on_of_ne (Or.inr rfl) hc, on_of_ne (Or.inr rfl) hc]
  · rfl

omit [DecidableEq ι] in
/-- The `wakeup` of `ideintr`, seen from the buffer that is served. -/
theorem BioProc.on_serve (p : BioProc β) (b : β) :
    (if p = .ioSleep b then .waiting b else p).on b = (p.on b).served := by
  by_cases hp : p = .ioSleep b
  · rw [if_pos hp, hp]
    simp [on, Place.served]
  · rw [if_neg hp]
    cases p with
    | ioSleep d =>
        have hd : d ≠ b := fun e => hp (by rw [e])
        simp [on, hd, Place.served]
    | run => rfl
    | _ d =>
        by_cases hd : d = b
        · simp [on, hd, Place.served]
        · simp [on, hd, Place.served]

omit [DecidableEq ι] in
theorem BioProc.on_serve_of_ne (p : BioProc β) (hc : c ≠ b) :
    (if p = .ioSleep b then .waiting b else p).on c = p.on c := by
  split_ifs with hp
  · rw [hp, on_of_ne (Or.inr rfl) hc, on_of_ne (Or.inr rfl) hc]
  · rfl

/-! ### The invariant -/

/-- The list of buffers as a cache of the disk. -/
def BioState.cache (s : BioState ι β) : Cache β BlockId Block where
  order := s.order
  key b := (s.buf b).key
  valid b := (s.buf b).valid
  data b := (s.buf b).data
  mem := s.disk

/-- A buffer that has been asked for. -/
def BioState.used (s : BioState ι β) (b : β) : Prop :=
  (s.buf b).refcnt ≠ 0 ∨ (s.buf b).valid = true

/-- What `idestart` tells the controller. -/
def Buf.request (x : Buf ι) : Request :=
  if x.dirty then .write (BioState.sector x.key) x.data else .read (BioState.sector x.key)

/-- Panics that need a caller who breaks the rules. -/
def BioPanic.misuse : BioPanic → Bool
  | .bwrite | .brelse | .notLocked | .nothingToDo => true
  | _ => false

/-- The buffers, their list and the queue. -/
structure BioCore [Fintype ι] (s : BioState ι β) : Prop where
  bufs : ∀ b, BufOk (s.buf b) (s.on b) (s.touched b) (b ∈ s.queue)
  sound : Sound s.used s.cache
  nodup : s.queue.Nodup
  panicked : ∀ p, s.panicked = some p → p.misuse = false

/-- The controller works on the first buffer of the queue. -/
structure BioInv [Fintype ι] (s : BioState ι β) : Prop extends BioCore s where
  ctl : s.panicked = none → s.ctl = s.queue.head?.map fun b => (s.buf b).request

omit [DecidableEq ι] in
theorem key_setBuf (hbuf : s'.buf = Function.update s.buf b x) (hkey : x.key = (s.buf b).key) :
    s'.cache.key = s.cache.key := by
  funext d
  show (s'.buf d).key = (s.buf d).key
  rw [hbuf]
  rcases eq_or_ne d b with rfl | hdb
  · rw [Function.update_self, hkey]
  · rw [Function.update_of_ne hdb]

omit [DecidableEq ι] in
/-- A buffer changes within the rules of `Sound`. -/
theorem sound_setBuf (h : Sound s.used s.cache) (hbuf : s'.buf = Function.update s.buf b x)
    (horder : s'.order = s.order) (hkey : x.key = (s.buf b).key)
    (hused : x.refcnt ≠ 0 ∨ x.valid = true → s.used b ∨ s.cached (s.buf b).key = some b) :
    Sound s'.used s'.cache := by
  refine h.congr horder (key_setBuf hbuf hkey) (fun d hd => ?_) fun d hd => Or.inr hd
  rw [BioState.used, hbuf] at hd
  rcases eq_or_ne d b with rfl | hdb
  · rw [Function.update_self] at hd
    exact hused hd
  · rw [Function.update_of_ne hdb] at hd
    exact Or.inl hd

section Fintype

variable [Fintype ι]

/-- One buffer changes and one process moves at it; the queue stays. -/
theorem BioCore.bufs_update {z : Bool} (h : BioCore s) (hbuf : s'.buf = Function.update s.buf b x)
    (hproc : s'.proc = Function.update s.proc t p)
    (hold : (s.proc t).target = none ∨ (s.proc t).target = some b)
    (hnew : p.target = none ∨ p.target = some b)
    (htouched : s'.touched = Function.update s.touched b z) (hqueue : s'.queue = s.queue)
    (hok : BufOk x (Function.update (s.on b) t (p.on b)) z (b ∈ s.queue)) (c : β) :
    BufOk (s'.buf c) (s'.on c) (s'.touched c) (c ∈ s'.queue) := by
  rw [hbuf, htouched, hqueue]
  rcases eq_or_ne c b with rfl | hc
  · rw [Function.update_self, Function.update_self, BioState.on_update hproc]
    exact hok
  · rw [Function.update_of_ne hc, Function.update_of_ne hc,
      BioState.on_update_of_ne hproc hold hnew hc]
    exact h.bufs c

omit [Fintype ι] [DecidableEq ι] in
/-- The controller is busy with the first buffer still. -/
theorem ctl_update (h : s.ctl = s.queue.head?.map fun b => (s.buf b).request)
    (hbuf : s'.buf = Function.update s.buf b x) (hqueue : s'.queue = s.queue) (hctl : s'.ctl = s.ctl)
    (hreq : b ∈ s.queue → x.request = (s.buf b).request) :
    s'.ctl = s'.queue.head?.map fun b => (s'.buf b).request := by
  rw [hctl, h, hqueue, hbuf]
  rcases e : s.queue.head? with - | d
  · rfl
  · dsimp only [Option.map_some]
    rcases eq_or_ne d b with rfl | hd
    · rw [Function.update_self, hreq (List.mem_of_mem_head? e)]
    · rw [Function.update_of_ne hd]

/-! ### One step -/

omit [DecidableEq ι] in
theorem BioInv.panic {q : BioPanic} (h : BioInv s) (hq : q.misuse = false) : BioInv (s.panic q) where
  bufs := h.bufs
  sound := h.sound
  nodup := h.nodup
  ctl e := by cases e
  panicked p e := by
    rw [← Option.some.inj e]
    exact hq

/-- A process moves, and the buffer it is at stays as it is. -/
theorem BioInv.move (h : BioInv s) (hold : (s.proc t).target = none ∨ (s.proc t).target = some b)
    (hnew : p.target = none ∨ p.target = some b)
    (hok : BufOk (s.buf b) (Function.update (s.on b) t (p.on b)) (s.touched b) (b ∈ s.queue)) :
    BioInv (s.setProc t p) where
  bufs := h.bufs_update (Function.update_eq_self b s.buf).symm rfl hold hnew
    (Function.update_eq_self b s.touched).symm rfl hok
  sound := h.sound
  nodup := h.nodup
  ctl := h.ctl
  panicked := h.panicked

/-- A process moves at a buffer that changes without concerning the driver. -/
theorem BioInv.change (h : BioInv s) (hold : (s.proc t).target = none ∨ (s.proc t).target = some b)
    (hnew : p.target = none ∨ p.target = some b)
    (hok : BufOk x (Function.update (s.on b) t (p.on b)) (s.touched b) (b ∈ s.queue))
    (hkey : x.key = (s.buf b).key) (hreq : b ∈ s.queue → x.request = (s.buf b).request)
    (hused : x.refcnt ≠ 0 ∨ x.valid = true → s.used b ∨ s.cached (s.buf b).key = some b) :
    BioInv ((s.setBuf b x).setProc t p) where
  bufs := h.bufs_update rfl rfl hold hnew (Function.update_eq_self b s.touched).symm rfl hok
  sound := sound_setBuf h.sound rfl rfl hkey hused
  nodup := h.nodup
  ctl hk := ctl_update (h.ctl hk) rfl rfl rfl hreq
  panicked := h.panicked

omit [DecidableEq ι] [Fintype ι] in
theorem on_of_eq (hp : s.proc t = p) : s.on b t = p.on b := by rw [BioState.on, hp]

omit [DecidableEq ι] in
theorem BioCore.used_of_lock (h : BioCore s) (hl : (s.buf b).lock = some t) : s.used b :=
  Or.inl ((h.bufs b).refcnt_pos hl).ne'

theorem BioInv.acquiresleep (h : BioInv s) (hp : s.proc t = .acquiring b) :
    BioInv (s.acquiresleep t b) := by
  have hon : s.on b t = .acquiring := (on_of_eq hp).trans (if_pos rfl)
  have hold : (s.proc t).target = none ∨ (s.proc t).target = some b := by
    rw [hp]
    exact Or.inr rfl
  rw [BioState.acquiresleep]
  split_ifs with hl
  · refine h.move hold (Or.inr rfl) ?_
    rw [show (BioProc.lockSleep b).on b = .lockSleep from if_pos rfl]
    exact (h.bufs b).lockWait (fun e => by rw [e] at hl; cases hl) hon
  · refine h.change hold (Or.inr rfl) ?_ rfl (fun _ => rfl) (fun hu => Or.inl hu)
    rw [show (BioProc.reading b).on b = .reading from if_pos rfl]
    exact (h.bufs b).acquire (by simpa using hl) hon

theorem BioInv.iowait (h : BioInv s) (hp : s.proc t = .waiting b) : BioInv (s.iowait t b) := by
  have hon : s.on b t = .waiting := (on_of_eq hp).trans (if_pos rfl)
  have hold : (s.proc t).target = none ∨ (s.proc t).target = some b := by
    rw [hp]
    exact Or.inr rfl
  rw [BioState.iowait]
  split_ifs with hd
  · refine h.move hold (Or.inl rfl) ((h.bufs b).finish ?_ hd.1 fun _ => ?_)
    · rw [hon]
      rfl
    · rw [Buf.done, hd.1, hd.2]
      rfl
  · refine h.move hold (Or.inr rfl) ?_
    rw [show (BioProc.ioSleep b).on b = .ioSleep from if_pos rfl]
    refine (h.bufs b).ioWait hon ?_
    rw [Buf.done]
    simpa using hd

omit [DecidableEq ι] in
theorem BioCore.idestart (h : BioCore s) (hhead : s.queue.head? = some b) : BioInv (s.idestart b) := by
  rw [BioState.idestart]
  by_cases hno : fsSize ≤ (s.buf b).key.2
  · rw [if_pos hno]
    refine ⟨⟨h.bufs, h.sound, h.nodup, fun p e => ?_⟩, fun e => by cases e⟩
    rw [← Option.some.inj e]
    rfl
  · rw [if_neg hno]
    refine ⟨⟨h.bufs, h.sound, h.nodup, h.panicked⟩, fun _ => ?_⟩
    dsimp only
    rw [hhead]
    rfl

/-- The holder of a buffer puts it into the queue. -/
theorem BioCore.enqueue (h : BioCore s)
    (hold : (s.proc t).target = none ∨ (s.proc t).target = some b) (hl : (s.buf b).lock = some t)
    (hpend : (s.on b t).pend = 0) (hnot : b ∉ s.queue) (hd : (s.buf b).done = false) :
    BioCore (s.enqueue t b) := by
  refine ⟨fun c => ?_, h.sound, ?_, h.panicked⟩
  · rcases eq_or_ne c b with rfl | hc
    · have hok := (h.bufs c).enqueue hl hpend hd
      rw [BioState.on_update (s := s) (p := .waiting c) rfl,
        show (BioProc.waiting c).on c = .waiting from if_pos rfl]
      have hmem : c ∈ (s.enqueue t c).queue := List.mem_append_right _ (List.mem_singleton_self c)
      rwa [← eq_true hmem] at hok
    · have hmem : c ∈ (s.enqueue t b).queue ↔ c ∈ s.queue := by
        show c ∈ s.queue ++ [b] ↔ _
        simp [hc]
      rw [hmem, BioState.on_update_of_ne (s := s) (p := .waiting b) rfl hold (Or.inr rfl) hc]
      exact h.bufs c
  · exact List.nodup_append.mpr ⟨h.nodup, List.nodup_singleton b, by
      rintro a ha _ hb rfl
      exact hnot (List.mem_singleton.mp hb ▸ ha)⟩

/-- `iderw`, called by the holder for a buffer that is not in the queue. -/
theorem BioInv.iderw {havedisk1 : Bool} (h : BioInv s)
    (hold : (s.proc t).target = none ∨ (s.proc t).target = some b) (hl : (s.buf b).lock = some t)
    (hpend : (s.on b t).pend = 0) (hide : (s.on b t).inIde = false) (hd : (s.buf b).done = false) :
    BioInv (s.iderw havedisk1 t b) := by
  have hnot : b ∉ s.queue := (h.bufs b).not_queued hl hide
  have hcore : BioCore (s.enqueue t b) := h.toBioCore.enqueue hold hl hpend hnot hd
  have hwork : ¬ ((s.buf b).valid = true ∧ (s.buf b).dirty = false) := by
    rintro ⟨hv, hdirty⟩
    rw [Buf.done, hv, hdirty] at hd
    cases hd
  rw [BioState.iderw, if_neg (fun e => e hl), if_neg hwork]
  by_cases hdisk : (s.buf b).key.1 ≠ 0 ∧ havedisk1 = false
  · rw [if_pos hdisk]
    exact h.panic rfl
  · rw [if_neg hdisk]
    by_cases hhead : (s.enqueue t b).queue.head? = some b
    · rw [if_pos hhead]
      exact hcore.idestart hhead
    · rw [if_neg hhead]
      -- the driver is busy with another buffer
      refine ⟨hcore, fun hk => ?_⟩
      refine (h.ctl hk).trans ?_
      have hsame : (s.enqueue t b).queue.head? = s.queue.head? := by
        show (s.queue ++ [b]).head? = _
        rcases hq : s.queue with - | ⟨d, rest⟩
        · refine absurd ?_ hhead
          show (s.queue ++ [b]).head? = some b
          rw [hq]
          rfl
        · rfl
      rw [hsame]
      rfl

theorem BioInv.bread {havedisk1 : Bool} (h : BioInv s) (hp : s.proc t = .reading b) :
    BioInv (s.bread havedisk1 t b) := by
  have hon : s.on b t = .reading := (on_of_eq hp).trans (if_pos rfl)
  have hold : (s.proc t).target = none ∨ (s.proc t).target = some b := by
    rw [hp]
    exact Or.inr rfl
  rw [BioState.bread]
  by_cases hv : (s.buf b).valid = true
  · rw [if_pos hv]
    refine h.move hold (Or.inl rfl) ((h.bufs b).finish ?_ hv fun hide => ?_)
    · rw [hon]
      rfl
    · rw [hon] at hide
      cases hide
  · rw [if_neg hv]
    refine h.iderw hold ((h.bufs b).busy t (by rw [hon]; rfl)) (by rw [hon]; rfl) (by rw [hon]; rfl) ?_
    rw [Buf.done, Bool.eq_false_iff.mpr hv]
    rfl

omit [DecidableEq ι] in
/-- A buffer changes that is not in the queue, and nobody moves. -/
theorem BioInv.setBuf {z : Bool} (h : BioInv s) (hok : BufOk x (s.on b) z (b ∈ s.queue))
    (hkey : x.key = (s.buf b).key) (hnot : b ∉ s.queue) (hused : s.used b) :
    BioInv { s.setBuf b x with touched := Function.update s.touched b z } where
  bufs c := by
    dsimp only [BioState.setBuf]
    rcases eq_or_ne c b with rfl | hc
    · rw [Function.update_self, Function.update_self]
      exact hok
    · rw [Function.update_of_ne hc, Function.update_of_ne hc]
      exact h.bufs c
  sound := sound_setBuf h.sound rfl rfl hkey fun _ => Or.inl hused
  nodup := h.nodup
  ctl hk := ctl_update (h.ctl hk) rfl rfl rfl fun hb => absurd hb hnot
  panicked := h.panicked

omit [DecidableEq ι] in
theorem BioInv.modify {data : Block} (h : BioInv s) (hp : s.proc t = .run)
    (hl : (s.buf b).lock = some t) : BioInv (s.modify b data) := by
  have hon : s.on b t = .out := on_of_eq hp
  refine h.setBuf ((h.bufs b).modify hl) rfl ((h.bufs b).not_queued hl ?_) (h.used_of_lock hl)
  rw [hon]
  rfl

omit [DecidableEq ι] in
theorem BioInv.mark (h : BioInv s) (hp : s.proc t = .run) (hl : (s.buf b).lock = some t) :
    BioInv (s.mark b) := by
  have hon : s.on b t = .out := on_of_eq hp
  refine h.setBuf ((h.bufs b).mark hl ?_) rfl ((h.bufs b).not_queued hl ?_) (h.used_of_lock hl)
  · rw [hon]
    rfl
  · rw [hon]
    rfl

theorem BioInv.bwrite {havedisk1 : Bool} (h : BioInv s) (hp : s.proc t = .run)
    (hl : (s.buf b).lock = some t) : BioInv (s.bwrite havedisk1 t b) := by
  have hbuf : (s.mark b).buf b = { s.buf b with dirty := true } := Function.update_self ..
  have hon : (s.mark b).on b t = .out := on_of_eq hp
  rw [BioState.bwrite, if_neg (fun e => e hl)]
  refine (h.mark hp hl).iderw (Or.inl (by rw [show (s.mark b).proc t = .run from hp]; rfl)) ?_ ?_ ?_ ?_
  · rw [hbuf]
    exact hl
  · rw [hon]
    rfl
  · rw [hon]
    rfl
  · rw [hbuf, Buf.done]
    simp

omit [DecidableEq ι] [Fintype ι] in
/-- A buffer that is given back goes to the front. -/
theorem sound_front (h : Sound s.used s.cache) (hb : s.used b)
    (hbuf : s'.buf = Function.update s.buf b x) (horder : s'.order = b :: s.order.erase b)
    (hkey : x.key = (s.buf b).key) (hvalid : x.valid = (s.buf b).valid)
    (hrefcnt : x.refcnt ≤ (s.buf b).refcnt) : Sound s'.used s'.cache := by
  have hsame (d : β) : (s'.buf d).valid = (s.buf d).valid ∧ (s'.buf d).refcnt ≤ (s.buf d).refcnt := by
    rw [hbuf]
    rcases eq_or_ne d b with rfl | hdb
    · rw [Function.update_self]
      exact ⟨hvalid, hrefcnt⟩
    · rw [Function.update_of_ne hdb]
      exact ⟨rfl, le_rfl⟩
  have hmoved : Sound s'.used (s.cache.moveFront b) := by
    refine h.moveFront hb (fun d hd => ?_) fun d hd => Or.inr ((hsame d).1.trans hd)
    have hle := (hsame d).2
    refine hd.imp (fun h₁ h₂ => h₁ ?_) fun hv => (hsame d).1.symm.trans hv
    omega
  exact hmoved.congr horder (key_setBuf hbuf hkey) (fun d hd => Or.inl hd) fun d hd => Or.inr hd

theorem BioInv.unref (h : BioInv s) (hp : s.proc t = .releasing b) : BioInv (s.unref t b) := by
  have hon : s.on b t = .releasing := (on_of_eq hp).trans (if_pos rfl)
  have hold : (s.proc t).target = none ∨ (s.proc t).target = some b := by
    rw [hp]
    exact Or.inr rfl
  have hused : s.used b := by
    refine Or.inl fun h₀ => ?_
    rw [(h.bufs b).out_of_unused h₀ t] at hon
    cases hon
  have hinv : BioInv ((s.setBuf b { s.buf b with refcnt := (s.buf b).refcnt - 1 }).setProc t .run) :=
    h.change hold (Or.inl rfl) ((h.bufs b).unref hon) rfl (fun _ => rfl) fun _ => Or.inl hused
  rw [BioState.unref]
  split_ifs with h₀
  · refine ⟨⟨hinv.bufs, ?_, hinv.nodup, hinv.panicked⟩, hinv.ctl⟩
    exact sound_front h.sound hused rfl rfl rfl rfl (Nat.sub_le ..)
  · exact hinv

omit [DecidableEq ι] [Fintype ι] in
/-- A buffer is given to a block that is not cached. -/
theorem sound_recycle {a : BlockId} (h : Sound s.used s.cache) (ha : s.cached a = none)
    (hbuf : s'.buf = Function.update s.buf b x) (horder : s'.order = s.order) (hkey : x.key = a) :
    Sound s'.used s'.cache := by
  have hsame {d : β} (hd : d ≠ b) : s'.buf d = s.buf d := by rw [hbuf, Function.update_of_ne hd]
  have hnew : Sound s'.used (s.cache.recycle b a) := by
    refine h.recycle ha (fun d hd => ?_) fun d hd hv => ?_
    · refine or_iff_not_imp_left.mpr fun hdb => ?_
      rwa [BioState.used, hsame hdb] at hd
    · rw [BioState.used, hsame hd]
      exact Or.inr hv
  refine hnew.congr horder ?_ (fun d hd => Or.inl hd) fun d hd => Or.inr hd
  funext d
  show (s'.buf d).key = Function.update (fun d => (s.buf d).key) b a d
  rcases eq_or_ne d b with rfl | hdb
  · rw [hbuf, Function.update_self, Function.update_self, hkey]
  · rw [Function.update_of_ne hdb, hsame hdb]

theorem BioInv.bget {a : BlockId} (h : BioInv s) (hp : s.proc t = .run) (ha : a.1 < 2) :
    BioInv (s.bget t a) := by
  have hon (b : β) : s.on b t = .out := on_of_eq hp
  have hold (b : β) : (s.proc t).target = none ∨ (s.proc t).target = some b := by
    rw [hp]
    exact Or.inl rfl
  rw [BioState.bget]
  rcases hc : s.cached a with - | b
  · rcases hv : s.unused with - | b
    · exact h.panic rfl
    · dsimp only
      have hfree : (s.buf b).refcnt = 0 ∧ (s.buf b).dirty = false := by
        rw [BioState.unused] at hv
        simpa using List.find?_some hv
      have hnot : b ∉ s.queue := by
        rw [(h.bufs b).queued]
        rintro ⟨u, hu, -⟩
        rw [(h.bufs b).out_of_unused hfree.1 u] at hu
        cases hu
      refine ⟨⟨?_, ?_, h.nodup, h.panicked⟩, fun hk => ?_⟩
      · refine h.toBioCore.bufs_update rfl rfl (hold b) (Or.inr rfl)
          (Function.update_eq_self b s.touched).symm rfl ?_
        rw [show (BioProc.acquiring b).on b = .acquiring from if_pos rfl]
        exact (h.bufs b).recycle hfree.1 ha
      · exact sound_recycle h.sound hc rfl rfl rfl
      · exact ctl_update (h.ctl hk) rfl rfl rfl fun hb => absurd hb hnot
  · dsimp only
    have hkey : (s.buf b).key = a := key_of_lookup (c := s.cache) hc
    refine h.change (hold b) (Or.inr rfl) ?_ rfl (fun _ => rfl) fun _ => Or.inr (hkey ▸ hc)
    rw [show (BioProc.acquiring b).on b = .acquiring from if_pos rfl]
    exact (h.bufs b).refer (hon b)

theorem BioInv.brelse (h : BioInv s) (hp : s.proc t = .run) (hl : (s.buf b).lock = some t)
    (ht : s.touched b = false) : BioInv (s.brelse t b) := by
  have hon : s.on b t = .out := on_of_eq hp
  have hnot : b ∉ s.queue := (h.bufs b).not_queued hl (by rw [hon]; rfl)
  have hself : (s.brelse t b).on b = Function.update (fun u => (s.on b u).unlocked) t .releasing := by
    funext u
    rw [BioState.brelse, if_neg (fun e => e hl), BioState.on]
    dsimp only
    rcases eq_or_ne u t with rfl | hu
    · rw [if_pos rfl, Function.update_self]
      exact if_pos rfl
    · rw [if_neg hu, Function.update_of_ne hu, BioProc.on_unlock]
      rfl
  have hother {c : β} (hc : c ≠ b) : (s.brelse t b).on c = s.on c := by
    funext u
    rw [BioState.brelse, if_neg (fun e => e hl), BioState.on]
    dsimp only
    rcases eq_or_ne u t with rfl | hu
    · rw [if_pos rfl, on_of_eq hp]
      exact if_neg hc.symm
    · rw [if_neg hu, BioProc.on_unlock_of_ne _ hc]
      rfl
  have hs : (s.brelse t b).buf = Function.update s.buf b { s.buf b with lock := none } ∧
      (s.brelse t b).touched = s.touched ∧ (s.brelse t b).queue = s.queue ∧
      (s.brelse t b).order = s.order ∧ (s.brelse t b).ctl = s.ctl ∧
      (s.brelse t b).panicked = s.panicked := by
    rw [BioState.brelse, if_neg (fun e => e hl)]
    exact ⟨rfl, rfl, rfl, rfl, rfl, rfl⟩
  obtain ⟨hbuf, htouched, hqueue, horder, hctl, hpanic⟩ := hs
  refine ⟨⟨fun c => ?_, ?_, hqueue ▸ h.nodup, hpanic ▸ h.panicked⟩, fun hk => ?_⟩
  · rw [hbuf, htouched, hqueue]
    rcases eq_or_ne c b with rfl | hc
    · rw [Function.update_self, hself, ht]
      exact (h.bufs c).release hl hon
    · rw [Function.update_of_ne hc, hother hc]
      exact h.bufs c
  · exact sound_setBuf h.sound hbuf horder rfl fun _ => Or.inl (h.used_of_lock hl)
  · exact ctl_update (h.ctl (hpanic ▸ hk)) hbuf hqueue hctl fun hb => absurd hb hnot

omit [DecidableEq ι] [Fintype ι] in
theorem BioState.on_serve {rest : List β} {ok : Bool} :
    (s.serve b rest ok).on b = fun u => (s.on b u).served := by
  funext u
  exact BioProc.on_serve (s.proc u) b

omit [DecidableEq ι] [Fintype ι] in
theorem BioState.on_serve_of_ne {rest : List β} {ok : Bool} (hc : c ≠ b) :
    (s.serve b rest ok).on c = s.on c := by
  funext u
  exact BioProc.on_serve_of_ne (s.proc u) hc

omit [DecidableEq ι] in
theorem BioCore.used_of_queued (h : BioCore s) (hb : b ∈ s.queue) : s.used b := by
  obtain ⟨u, hu, -⟩ := (h.bufs b).queued.mp hb
  exact h.used_of_lock ((h.bufs b).busy u (Place.busy_of_inIde hu))

omit [DecidableEq ι] in
theorem BioCore.serve {rest : List β} {ok : Bool} (h : BioCore s) (hq : s.queue = b :: rest) :
    BioCore (s.serve b rest ok) := by
  have hn := h.nodup
  rw [hq, List.nodup_cons] at hn
  refine ⟨fun c => ?_, ?_, hn.2, h.panicked⟩
  · rcases eq_or_ne c b with rfl | hc
    · have hbuf : (s.serve c rest ok).buf c = _ := Function.update_self ..
      have hgone : c ∈ (s.serve c rest ok).queue ↔ False := iff_of_false hn.1 id
      rw [hbuf, BioState.on_serve, hgone]
      exact (h.bufs c).serve
    · have hbuf : (s.serve b rest ok).buf c = s.buf c := Function.update_of_ne hc ..
      have hsame : c ∈ (s.serve b rest ok).queue ↔ c ∈ s.queue := by
        rw [hq, List.mem_cons]
        exact (or_iff_right hc).symm
      rw [hbuf, BioState.on_serve_of_ne hc, hsame]
      exact h.bufs c
  · refine sound_setBuf h.sound rfl rfl rfl fun _ => Or.inl (h.used_of_queued ?_)
    rw [hq]
    exact List.mem_cons_self

omit [DecidableEq ι] in
theorem BioInv.ideintr {ok : Bool} (h : BioInv s) : BioInv (s.ideintr ok) := by
  rw [BioState.ideintr]
  rcases hq : s.queue with - | ⟨b, - | ⟨b', rest⟩⟩
  · exact h
  · exact ⟨h.toBioCore.serve hq, fun _ => rfl⟩
  · exact (h.toBioCore.serve hq).idestart rfl

/-- The step lemma. -/
theorem BioInv.step {havedisk1 : Bool} {reliable : Prop} {act : Option (BlockAct ι)} (h : BioInv s)
    (hs : BioStep havedisk1 reliable act s s') : BioInv s' := by
  cases hs with
  | bget _ t a hp ha hk => exact h.bget hp ha
  | acquiresleep _ t b hp hk => exact h.acquiresleep hp
  | bread _ t b hp hk => exact h.bread hp
  | iowait _ t b hp hk => exact h.iowait hp
  | modify _ t b data hp hl hk => exact h.modify hp hl
  | mark _ t b hp hl hk => exact h.mark hp hl
  | bwrite _ t b hp hl hk => exact h.bwrite hp hl
  | brelse _ t b hp hl ht hk => exact h.brelse hp hl ht
  | unref _ t b hp hk => exact h.unref hp
  | ideintr _ ok hok hk => exact h.ideintr

/-- The run lemma. -/
theorem bioInv_of_reachable {havedisk1 : Bool} {reliable : Prop}
    (h : (bioSystem havedisk1 reliable).Reachable s) : BioInv s := by
  refine h.invariant ?_ ?_
  swap
  · rintro s s' - hi ⟨_, hs⟩
    exact hi.step hs
  rintro s ⟨hbuf, hnodup, hall, hqueue, hctl, hproc, htouched, hpanic⟩
  have hon (b : β) (u : ι) : s.on b u = .out := on_of_eq (hproc u)
  have hempty (b : β) : b ∉ s.queue := by
    rw [hqueue]
    exact List.not_mem_nil
  refine ⟨⟨fun b => ?_, ⟨hnodup, hall, fun b hb => ?_, fun b hb => ?_⟩, ?_, fun p e => ?_⟩, fun _ => ?_⟩
  · obtain ⟨data, e⟩ := hbuf b
    rw [e, htouched b, show s.on b = fun _ => .out from funext (hon b)]
    refine ⟨Nat.zero_lt_two, (Finset.sum_eq_zero fun _ _ => rfl).symm, (fun e => by cases e),
      (fun _ e => by cases e), (fun _ e => by cases e), (fun _ e => by cases e), (fun e => by cases e),
      iff_of_false (hempty b) ?_, fun _ e => by cases e⟩
    rintro ⟨u, hu, -⟩
    cases hu
  · obtain ⟨data, e⟩ := hbuf b
    rw [BioState.used, e] at hb
    simp at hb
  · obtain ⟨data, e⟩ := hbuf b
    rw [show s.cache.valid b = (s.buf b).valid from rfl, e] at hb
    cases hb
  · rw [hqueue]
    exact List.nodup_nil
  · rw [hpanic] at e
    cases e
  · rw [hctl, hqueue]
    rfl

end Fintype

end SystemsPortfolio.Xv6
