/-
SystemsPortfolio/Xv6/BioCoherence.lean

What the buffer cache is for: blocks that one process at a time can hold, read and change.

`LockedStore` has the contents of every block and its holder, and nothing else: no buffers,
no disk, no queue.  `bio_refines` shows that the buffer cache behaves like it on disks that
do not fail, whichever buffers are recycled, read, written back or moved in the list.
-/
import SystemsPortfolio.Xv6.BioRuns

namespace SystemsPortfolio.Xv6

open CacheView Transition

/-! ### Locked blocks -/

/-- The contents and the holder of every block. -/
@[ext]
structure LockedStore (ι : Type) where
  val : BlockId → Block
  owner : BlockId → Option ι

inductive LockedStep {ι : Type} : BlockAct ι → LockedStore ι → LockedStore ι → Prop
  | take (m : LockedStore ι) (t : ι) (a : BlockId) (h : m.owner a = none) :
      LockedStep (.take t a) m { m with owner := Function.update m.owner a (some t) }
  | write (m : LockedStore ι) (t : ι) (a : BlockId) (data : Block) (h : m.owner a = some t) :
      LockedStep (.write t a data) m { m with val := Function.update m.val a data }
  | give (m : LockedStore ι) (t : ι) (a : BlockId) (h : m.owner a = some t) :
      LockedStep (.give t a) m { m with owner := Function.update m.owner a none }

def lockedMachine (ι : Type) : Labelled (LockedStore ι) (BlockAct ι) where
  init m := ∀ a, m.owner a = none
  step := LockedStep

/-- What an action makes of the contents of block `a`. -/
def BlockAct.stored {ι : Type} (a : BlockId) (old : Block) : BlockAct ι → Block
  | .write _ a' data => if a' = a then data else old
  | .take _ _ | .give _ _ => old

/-- The contents of block `a` after the actions `as`: the last that was written to it, or `old`. -/
def lastWritten {ι : Type} (a : BlockId) (old : Block) (as : List (BlockAct ι)) : Block :=
  as.foldl (BlockAct.stored a) old

/-- A block has what was last written to it. -/
theorem LockedStep.stored {ι : Type} {act : BlockAct ι} {m m' : LockedStore ι}
    (h : LockedStep act m m') (a : BlockId) : m'.val a = act.stored a (m.val a) := by
  cases h with
  | take _ t a' hown => rfl
  | write _ t a' data hown =>
      show Function.update m.val a' data a = if a' = a then data else m.val a
      split_ifs with e
      · rw [e, Function.update_self]
      · rw [Function.update_of_ne (Ne.symm e)]
  | give _ t a' hown => rfl

theorem locked_run {ι : Type} {m m' : LockedStore ι} {as : List (BlockAct ι)}
    (h : (lockedMachine ι).Run m as m') (a : BlockId) : m'.val a = lastWritten a (m.val a) as := by
  induction h with
  | nil => rfl
  | snoc _ hs ih =>
      rw [LockedStep.stored hs a, ih, lastWritten, lastWritten, List.foldl_append]
      rfl

variable {ι β : Type} [DecidableEq β] {s s' : BioState ι β} {t : ι} {b c : β} {x : Buf ι}

/-- The list of buffers as a cache of the holders, which are kept nowhere else. -/
def BioState.holders (s : BioState ι β) : Cache β BlockId (Option ι) where
  order := s.order
  key b := (s.buf b).key
  valid b := (s.buf b).lock.isSome
  data b := (s.buf b).lock
  mem _ := none

/-- What a state of the buffer cache stands for. -/
def bioAbs (s : BioState ι β) : LockedStore ι where
  val := s.cache.view
  owner := s.holders.view

omit [DecidableEq β] in
theorem content_holders (s : BioState ι β) (b : β) : s.holders.content b = (s.buf b).lock := by
  show (if (s.buf b).lock.isSome then (s.buf b).lock else none) = (s.buf b).lock
  rcases (s.buf b).lock with - | t <;> rfl

/-- Buffers that are neither marked nor being changed are as on the disk. -/
def Coherent (s : BioState ι β) : Prop :=
  ∀ b, (s.buf b).valid = true → (s.buf b).dirty = false → s.touched b = false →
    (s.buf b).data = s.disk (s.buf b).key

omit [DecidableEq β] in
theorem cache_congr (horder : s'.order = s.order) (hdisk : s'.disk = s.disk)
    (hkey : ∀ c, (s'.buf c).key = (s.buf c).key) (hvalid : ∀ c, (s'.buf c).valid = (s.buf c).valid)
    (hdata : ∀ c, (s'.buf c).data = (s.buf c).data) : s'.cache = s.cache := by
  rw [BioState.cache, BioState.cache, horder, hdisk, funext hkey, funext hvalid, funext hdata]

omit [DecidableEq β] in
theorem holders_congr (horder : s'.order = s.order) (hkey : ∀ c, (s'.buf c).key = (s.buf c).key)
    (hlock : ∀ c, (s'.buf c).lock = (s.buf c).lock) : s'.holders = s.holders := by
  simp only [BioState.holders, horder, hkey, hlock]

omit [DecidableEq β] in
/-- Two states with the same blocks. -/
theorem bioAbs_congr (hcache : s'.cache = s.cache) (hholders : s'.holders = s.holders) :
    bioAbs s' = bioAbs s := by
  rw [bioAbs, bioAbs, hcache, hholders]

/-! ### One buffer changes -/

theorem map_setBuf {γ : Type} (f : Buf ι → γ) (hbuf : s'.buf = Function.update s.buf b x) :
    (fun c => f (s'.buf c)) = Function.update (fun c => f (s.buf c)) b (f x) := by
  rw [hbuf]
  exact Function.comp_update f s.buf b x

/-- A part of the buffers that the change of one of them leaves alone. -/
theorem same_setBuf {γ : Type} (f : Buf ι → γ) (hbuf : s'.buf = Function.update s.buf b x)
    (hx : f x = f (s.buf b)) (c : β) : f (s'.buf c) = f (s.buf c) := by
  rw [hbuf]
  rcases eq_or_ne c b with rfl | hc
  · rw [Function.update_self, hx]
  · rw [Function.update_of_ne hc]

/-- A buffer changes in what is not part of its block. -/
theorem bioAbs_setBuf (hbuf : s'.buf = Function.update s.buf b x) (horder : s'.order = s.order)
    (hdisk : s'.disk = s.disk) (hkey : x.key = (s.buf b).key) (hvalid : x.valid = (s.buf b).valid)
    (hdata : x.data = (s.buf b).data) (hlock : x.lock = (s.buf b).lock) : bioAbs s' = bioAbs s := by
  refine bioAbs_congr (cache_congr horder hdisk ?_ ?_ ?_) (holders_congr horder ?_ ?_)
  · exact same_setBuf Buf.key hbuf hkey
  · exact same_setBuf Buf.valid hbuf hvalid
  · exact same_setBuf Buf.data hbuf hdata
  · exact same_setBuf Buf.key hbuf hkey
  · exact same_setBuf Buf.lock hbuf hlock

theorem cache_setBuf (hbuf : s'.buf = Function.update s.buf b x) (horder : s'.order = s.order) :
    s'.cache = { s.cache with
      key := Function.update s.cache.key b x.key
      valid := Function.update s.cache.valid b x.valid
      data := Function.update s.cache.data b x.data
      mem := s'.disk } := by
  rw [BioState.cache, map_setBuf Buf.key hbuf, map_setBuf Buf.valid hbuf, map_setBuf Buf.data hbuf,
    horder]
  rfl

theorem holders_setBuf (hbuf : s'.buf = Function.update s.buf b x) (horder : s'.order = s.order) :
    s'.holders = { s.holders with
      key := Function.update s.holders.key b x.key
      valid := Function.update s.holders.valid b x.lock.isSome
      data := Function.update s.holders.data b x.lock } := by
  rw [BioState.holders, map_setBuf Buf.key hbuf, map_setBuf Buf.lock hbuf,
    map_setBuf (fun x => x.lock.isSome) hbuf, horder]
  rfl

section Fintype

variable [Fintype ι]

theorem BioCore.sound_holders (h : BioCore s) : Sound s.used s.holders := by
  refine h.sound.congr rfl rfl (fun _ => Or.inl) fun b hb => ?_
  obtain ⟨t, ht⟩ := Option.isSome_iff_exists.mp hb
  exact h.used_of_lock ht

/-- The holder of a buffer holds its block. -/
theorem BioCore.owner_eq (h : BioCore s) (hb : s.used b) :
    (bioAbs s).owner (s.buf b).key = (s.buf b).lock :=
  (h.sound_holders.view_key hb).trans (content_holders s b)

/-- The lock of a buffer in use is the lock of its block. -/
theorem BioCore.owner_setBuf {l : Option ι} (h : BioCore s) (hb : s.used b)
    (hbuf : s'.buf = Function.update s.buf b { s.buf b with lock := l }) (horder : s'.order = s.order)
    (hdisk : s'.disk = s.disk) :
    bioAbs s' = { bioAbs s with owner := Function.update (bioAbs s).owner (s.buf b).key l } := by
  have hkey : s'.cache.key = s.cache.key := key_setBuf hbuf rfl
  refine LockedStore.ext ?_ ?_
  · show s'.cache.view = s.cache.view
    rw [cache_congr horder hdisk (same_setBuf Buf.key hbuf rfl) (same_setBuf Buf.valid hbuf rfl)
      (same_setBuf Buf.data hbuf rfl)]
  · have hset : s'.holders.view =
        Function.update s.holders.view (s.buf b).key (s'.holders.content b) := by
      refine h.sound_holders.view_set hb horder hkey rfl fun d hd => ?_
      rw [content_holders, content_holders, hbuf, Function.update_of_ne hd]
    rw [content_holders, hbuf, Function.update_self] at hset
    exact hset

/-- A buffer that nobody uses is taken for another block. -/
theorem BioInv.recycle_unseen {a : BlockId} (h : BioInv s) (hco : Coherent s)
    (ha : s.cached a = none) (h₀ : (s.buf b).refcnt = 0) (hd : (s.buf b).dirty = false)
    (hbuf : s'.buf = Function.update s.buf b
      { s.buf b with key := a, valid := false, dirty := false, refcnt := 1 })
    (horder : s'.order = s.order) (hdisk : s'.disk = s.disk) : bioAbs s' = bioAbs s := by
  have hl : (s.buf b).lock = none := (h.bufs b).lock_none h₀
  have hcache : s'.cache = s.cache.recycle b a := by
    rw [cache_setBuf hbuf horder, hdisk]
    dsimp only
    rw [show Function.update s.cache.data b (s.buf b).data = s.cache.data from
      Function.update_eq_self ..]
    rfl
  have hholders : s'.holders = s.holders.recycle b a := by
    rw [holders_setBuf hbuf horder]
    dsimp only
    rw [hl, show Function.update s.holders.data b none = s.holders.data from
      hl ▸ Function.update_eq_self ..]
    rfl
  have hclean : s.cache.content b = s.cache.mem (s.cache.key b) := by
    by_cases hv : (s.buf b).valid = true
    · rw [content_of_valid (c := s.cache) hv]
      refine hco b hv hd ?_
      rw [← Bool.not_eq_true]
      exact fun ht => (h.bufs b).touched ht hl
    · exact content_of_invalid hv
  refine LockedStore.ext ?_ ?_
  · show s'.cache.view = s.cache.view
    rw [hcache, h.sound.view_recycle ha hclean]
  · show s'.holders.view = s.holders.view
    rw [hholders, h.sound_holders.view_recycle ha ((content_holders s b).trans hl)]

/-- The holder of a valid buffer changes its block. -/
theorem BioCore.modify_seen {data : Block} (h : BioCore s) (hv : (s.buf b).valid = true) :
    bioAbs (s.modify b data) =
      { bioAbs s with val := Function.update (bioAbs s).val (s.buf b).key data } := by
  have hbuf : (s.modify b data).buf = Function.update s.buf b { s.buf b with data := data } := rfl
  refine LockedStore.ext ?_ ?_
  · have hcache : (s.modify b data).cache = s.cache.write b data := by
      rw [cache_setBuf hbuf rfl]
      dsimp only
      rw [show Function.update s.cache.key b (s.buf b).key = s.cache.key from
          Function.update_eq_self ..,
        show Function.update s.cache.valid b (s.buf b).valid = s.cache.valid from
          Function.update_eq_self ..]
      rfl
    show (s.modify b data).cache.view = _
    rw [hcache]
    exact h.sound.view_write hv data
  · exact congrArg Cache.view
      (holders_congr rfl (same_setBuf Buf.key hbuf rfl) (same_setBuf Buf.lock hbuf rfl))

omit [Fintype ι] in
theorem sector_of_lt {a : BlockId} (h : a.1 < 2) : BioState.sector a = a := by
  rw [BioState.sector, Nat.mod_eq_of_lt h]

/-! ### The driver -/

omit [Fintype ι] in
/-- A marked buffer is written back. -/
theorem serve_flush {rest : List β} {ok : Bool} (hctl : s.ctl = some (s.buf b).request)
    (hdev : (s.buf b).key.1 < 2) (hd : (s.buf b).dirty = true) (hv : (s.buf b).valid = true) :
    (s.serve b rest ok).cache = s.cache.flush b := by
  have hserved : s.served = Function.update s.disk (s.buf b).key (s.buf b).data := by
    rw [BioState.served, hctl, Buf.request, if_pos hd, sector_of_lt hdev]
  have hbuf : (s.serve b rest ok).buf = Function.update s.buf b
      { s.buf b with
        data := if (s.buf b).dirty = false ∧ ok = true then s.found (s.buf b).data else (s.buf b).data
        valid := true
        dirty := false } := rfl
  rw [cache_setBuf hbuf rfl]
  dsimp only
  rw [if_neg (by rw [hd]; simp), ← hv,
    show Function.update s.cache.key b (s.buf b).key = s.cache.key from Function.update_eq_self ..,
    show Function.update s.cache.valid b (s.buf b).valid = s.cache.valid from
      Function.update_eq_self ..,
    show Function.update s.cache.data b (s.buf b).data = s.cache.data from Function.update_eq_self ..]
  exact congrArg (fun m => { s.cache with mem := m }) hserved

omit [Fintype ι] in
/-- Another one is read. -/
theorem serve_fill {rest : List β} (hctl : s.ctl = some (s.buf b).request)
    (hdev : (s.buf b).key.1 < 2) (hd : (s.buf b).dirty = false) :
    (s.serve b rest true).cache = s.cache.fill b := by
  have hreq : (s.buf b).request = .read (s.buf b).key := by
    rw [Buf.request, hd, sector_of_lt hdev]
    rfl
  have hserved : s.served = s.disk := by rw [BioState.served, hctl, hreq]
  have hfound : s.found (s.buf b).data = s.disk (s.buf b).key := by
    rw [BioState.found, hctl, hreq]
  have hbuf : (s.serve b rest true).buf = Function.update s.buf b
      { s.buf b with
        data := if (s.buf b).dirty = false ∧ true = true then s.found (s.buf b).data
          else (s.buf b).data
        valid := true
        dirty := false } := rfl
  rw [cache_setBuf hbuf rfl]
  dsimp only
  rw [if_pos ⟨hd, rfl⟩, hfound,
    show Function.update s.cache.key b (s.buf b).key = s.cache.key from Function.update_eq_self ..,
    show (s.serve b rest true).disk = s.disk from hserved]
  rfl

omit [Fintype ι] [DecidableEq β] in
theorem idestart_frame (s : BioState ι β) (b : β) :
    (s.idestart b).buf = s.buf ∧ (s.idestart b).order = s.order ∧ (s.idestart b).disk = s.disk ∧
      (s.idestart b).touched = s.touched := by
  rw [BioState.idestart]
  split
  · exact ⟨rfl, rfl, rfl, rfl⟩
  · exact ⟨rfl, rfl, rfl, rfl⟩

omit [Fintype ι] [DecidableEq β] in
theorem bioAbs_frame (hbuf : s'.buf = s.buf) (horder : s'.order = s.order) (hdisk : s'.disk = s.disk) :
    bioAbs s' = bioAbs s := by
  rw [bioAbs, bioAbs, BioState.cache, BioState.cache, BioState.holders, BioState.holders, hbuf, horder,
    hdisk]

omit [Fintype ι] [DecidableEq β] in
theorem Coherent.frame (h : Coherent s) (hbuf : s'.buf = s.buf) (hdisk : s'.disk = s.disk)
    (htouched : s'.touched = s.touched) : Coherent s' := by
  rw [Coherent, hbuf, hdisk, htouched]
  exact h

/-- Serving the first buffer of the queue does not change a block. -/
theorem BioInv.serve_unseen {rest : List β} (h : BioInv s) (hk : s.panicked = none)
    (hq : s.queue = b :: rest) : bioAbs (s.serve b rest true) = bioAbs s := by
  have hok := h.bufs b
  have hctl : s.ctl = some (s.buf b).request := by
    rw [h.ctl hk, hq]
    rfl
  have hdone : (s.buf b).done = false := by
    obtain ⟨u, -, hd⟩ := hok.queued.mp (hq ▸ List.mem_cons_self)
    exact hd
  refine LockedStore.ext ?_ ?_
  · show (s.serve b rest true).cache.view = s.cache.view
    rcases hd : (s.buf b).dirty with - | -
    · have hv : (s.buf b).valid = false := by
        rw [Buf.done, hd] at hdone
        simpa using hdone
      rw [serve_fill hctl hok.dev hd]
      exact view_fill hv
    · have hv := hok.dirty hd
      rw [serve_flush hctl hok.dev hd hv]
      exact h.sound.view_flush hv
  · exact congrArg Cache.view
      (holders_congr rfl (same_setBuf Buf.key rfl rfl) (same_setBuf Buf.lock rfl rfl))

theorem BioInv.ideintr_unseen (h : BioInv s) (hk : s.panicked = none) :
    bioAbs (s.ideintr true) = bioAbs s := by
  rw [BioState.ideintr]
  rcases hq : s.queue with - | ⟨b, - | ⟨b', rest⟩⟩
  · rfl
  · exact h.serve_unseen hk hq
  · obtain ⟨hbuf, horder, hdisk, -⟩ := idestart_frame (s.serve b (b' :: rest) true) b'
    exact (bioAbs_frame hbuf horder hdisk).trans (h.serve_unseen hk hq)

/-- Two valid buffers are of different blocks. -/
theorem BioCore.key_ne (h : BioCore s) (hb : s.used b) (hc : s.used c) (hne : c ≠ b) :
    (s.buf c).key ≠ (s.buf b).key := by
  intro e
  have hb' : s.cached (s.buf b).key = some b := h.sound.first b hb
  have hc' : s.cached (s.buf c).key = some c := h.sound.first c hc
  rw [e, hb'] at hc'
  exact hne (Option.some.inj hc').symm

/-- What is served is as on the disk afterwards, and the other buffers are of other blocks. -/
theorem BioInv.serve_coherent {rest : List β} (h : BioInv s) (hk : s.panicked = none)
    (hq : s.queue = b :: rest) (hco : Coherent s) : Coherent (s.serve b rest true) := by
  have hok := h.bufs b
  have hctl : s.ctl = some (s.buf b).request := by
    rw [h.ctl hk, hq]
    rfl
  have hused : s.used b := h.used_of_queued (hq ▸ List.mem_cons_self)
  intro c hv hdirty htouched
  show (s.serve b rest true).cache.data c =
    (s.serve b rest true).cache.mem ((s.serve b rest true).cache.key c)
  rcases hd : (s.buf b).dirty with - | -
  · rw [serve_fill hctl hok.dev hd]
    rcases eq_or_ne c b with rfl | hc
    · exact Function.update_self ..
    · rw [show (s.serve b rest true).buf c = s.buf c from Function.update_of_ne hc ..] at hv hdirty
      exact (Function.update_of_ne hc ..).trans (hco c hv hdirty htouched)
  · rw [serve_flush hctl hok.dev hd (hok.dirty hd)]
    rcases eq_or_ne c b with rfl | hc
    · exact (Function.update_self (s.buf c).key (s.buf c).data s.disk).symm
    · rw [show (s.serve b rest true).buf c = s.buf c from Function.update_of_ne hc ..] at hv hdirty
      have hkey := h.key_ne hused (Or.inr hv) hc
      exact (hco c hv hdirty htouched).trans (Function.update_of_ne hkey ..).symm

theorem BioInv.ideintr_coherent (h : BioInv s) (hk : s.panicked = none) (hco : Coherent s) :
    Coherent (s.ideintr true) := by
  rw [BioState.ideintr]
  rcases hq : s.queue with - | ⟨b, - | ⟨b', rest⟩⟩
  · exact hco
  · exact h.serve_coherent hk hq hco
  · obtain ⟨hbuf, -, hdisk, htouched⟩ := idestart_frame (s.serve b (b' :: rest) true) b'
    exact (h.serve_coherent hk hq hco).frame hbuf hdisk htouched

/-! ### Runs -/

variable [DecidableEq ι]

omit [Fintype ι] in
theorem iderw_frame (havedisk1 : Bool) (s : BioState ι β) (t : ι) (b : β) :
    (s.iderw havedisk1 t b).buf = s.buf ∧ (s.iderw havedisk1 t b).order = s.order ∧
      (s.iderw havedisk1 t b).disk = s.disk ∧ (s.iderw havedisk1 t b).touched = s.touched := by
  rw [BioState.iderw]
  split_ifs
  · exact ⟨rfl, rfl, rfl, rfl⟩
  · exact ⟨rfl, rfl, rfl, rfl⟩
  · exact ⟨rfl, rfl, rfl, rfl⟩
  · exact idestart_frame (s.enqueue t b) b
  · exact ⟨rfl, rfl, rfl, rfl⟩

omit [Fintype ι] [DecidableEq ι] in
/-- A buffer changes that is as on the disk, or need not be. -/
theorem Coherent.setBuf (h : Coherent s) (hbuf : s'.buf = Function.update s.buf b x)
    (hdisk : s'.disk = s.disk) (htouched : ∀ c, c ≠ b → s'.touched c = s.touched c)
    (hx : x.valid = true → x.dirty = false → s'.touched b = false → x.data = s.disk x.key) :
    Coherent s' := by
  intro c
  rw [hbuf, hdisk]
  rcases eq_or_ne c b with rfl | hc
  · rw [Function.update_self]
    exact hx
  · rw [Function.update_of_ne hc, htouched c hc]
    exact h c

theorem Coherent.step {havedisk1 : Bool} {act : Option (BlockAct ι)} (hco : Coherent s)
    (h : BioInv s) (hs : BioStep havedisk1 True act s s') : Coherent s' := by
  cases hs with
  | bget _ t a hp ha hk =>
      rw [BioState.bget]
      rcases s.cached a with - | b
      · rcases s.unused with - | b
        · exact hco
        · exact hco.setBuf rfl rfl (fun _ _ => rfl) fun e => by cases e
      · exact hco.setBuf rfl rfl (fun _ _ => rfl) (hco b)
  | acquiresleep _ t b hp hk =>
      rw [BioState.acquiresleep]
      split_ifs
      · exact hco
      · exact hco.setBuf rfl rfl (fun _ _ => rfl) (hco b)
  | bread _ t b hp hk =>
      rw [BioState.bread]
      split_ifs
      · exact hco
      · obtain ⟨hbuf, -, hdisk, htouched⟩ := iderw_frame havedisk1 s t b
        exact hco.frame hbuf hdisk htouched
  | iowait _ t b hp hk =>
      rw [BioState.iowait]
      split_ifs
      · exact hco
      · exact hco
  | modify _ t b data hp hl hk =>
      refine hco.setBuf rfl rfl (fun c hc => Function.update_of_ne hc ..) fun _ _ e => ?_
      rw [show (s.modify b data).touched b = true from Function.update_self ..] at e
      cases e
  | mark _ t b hp hl hk =>
      exact hco.setBuf rfl rfl (fun c hc => Function.update_of_ne hc ..) fun _ e => by cases e
  | bwrite _ t b hp hl hk =>
      rw [BioState.bwrite, if_neg (fun e => e hl)]
      obtain ⟨hbuf, -, hdisk, htouched⟩ := iderw_frame havedisk1 (s.mark b) t b
      refine Coherent.frame ?_ hbuf hdisk htouched
      exact hco.setBuf rfl rfl (fun c hc => Function.update_of_ne hc ..) fun _ e => by cases e
  | brelse _ t b hp hl ht hk =>
      rw [BioState.brelse, if_neg (fun e => e hl)]
      exact hco.setBuf rfl rfl (fun _ _ => rfl) (hco b)
  | unref _ t b hp hk =>
      rw [BioState.unref]
      split_ifs
      · exact hco.setBuf rfl rfl (fun _ _ => rfl) (hco b)
      · exact hco.setBuf rfl rfl (fun _ _ => rfl) (hco b)
  | ideintr _ ok hok hk =>
      rw [hok trivial]
      exact h.ideintr_coherent hk hco

theorem coherent_of_reachable {havedisk1 : Bool} (h : (bioSystem havedisk1 True).Reachable s) :
    Coherent s := by
  refine h.invariant ?_ ?_
  · rintro s ⟨hbuf, -⟩ b hv
    obtain ⟨data, e⟩ := hbuf b
    rw [e] at hv
    cases hv
  · rintro s s' hr hco ⟨_, hs⟩
    exact hco.step (bioInv_of_reachable hr) hs

/-- `bget` is not seen. -/
theorem BioInv.bget_unseen {a : BlockId} (h : BioInv s) (hco : Coherent s) :
    bioAbs (s.bget t a) = bioAbs s := by
  rw [BioState.bget]
  rcases hc : s.cached a with - | b
  · rcases hv : s.unused with - | b
    · exact bioAbs_frame rfl rfl rfl
    · have hfree : (s.buf b).refcnt = 0 ∧ (s.buf b).dirty = false := by
        rw [BioState.unused] at hv
        simpa using List.find?_some hv
      exact h.recycle_unseen hco hc hfree.1 hfree.2 rfl rfl rfl
  · exact bioAbs_setBuf rfl rfl rfl rfl rfl rfl rfl

/-- Nor is the end of `brelse`. -/
theorem BioInv.unref_unseen (h : BioInv s) (hp : s.proc t = .releasing b) :
    bioAbs (s.unref t b) = bioAbs s := by
  have hon : s.on b t = .releasing := (on_of_eq hp).trans (if_pos rfl)
  have hused : s.used b := by
    refine Or.inl fun h₀ => ?_
    rw [(h.bufs b).out_of_unused h₀ t] at hon
    cases hon
  rw [BioState.unref]
  split_ifs
  · have hmoved : bioAbs { s with order := b :: s.order.erase b } = bioAbs s := by
      refine LockedStore.ext ?_ ?_
      · exact view_moveFront h.sound.nodup (h.sound.first b hused)
      · exact view_moveFront h.sound_holders.nodup (h.sound_holders.first b hused)
    refine Eq.trans ?_ hmoved
    exact bioAbs_setBuf (s := { s with order := b :: s.order.erase b }) rfl rfl rfl rfl rfl rfl rfl
  · exact bioAbs_setBuf rfl rfl rfl rfl rfl rfl rfl

/-- A pass of the loop of `acquiresleep` takes the block or is not seen. -/
theorem BioInv.acquiresleep_seen (h : BioInv s) (hp : s.proc t = .acquiring b) :
    (lockedMachine ι).Sees (s.taking t b) (bioAbs s) (bioAbs (s.acquiresleep t b)) := by
  have hon : s.on b t = .acquiring := (on_of_eq hp).trans (if_pos rfl)
  have hused : s.used b := by
    refine Or.inl fun h₀ => ?_
    rw [(h.bufs b).out_of_unused h₀ t] at hon
    cases hon
  rw [BioState.acquiresleep, BioState.taking]
  split_ifs with hl
  · exact bioAbs_frame rfl rfl rfl
  · have habs : bioAbs ((s.setBuf b { s.buf b with lock := some t }).setProc t (.reading b)) = _ :=
      h.toBioCore.owner_setBuf hused rfl rfl rfl
    rw [habs]
    refine LockedStep.take _ t _ ((h.owner_eq hused).trans ?_)
    simpa using hl

/-- Each step of the buffer cache is the action it is labelled with, or is not seen. -/
theorem bio_seen {havedisk1 : Bool} {act : Option (BlockAct ι)} (h : BioInv s) (hco : Coherent s)
    (hs : BioStep havedisk1 True act s s') :
    (lockedMachine ι).Sees act (bioAbs s) (bioAbs s') := by
  cases hs with
  | bget _ t a hp ha hk => exact h.bget_unseen hco
  | acquiresleep _ t b hp hk => exact h.acquiresleep_seen hp
  | bread _ t b hp hk =>
      rw [BioState.bread]
      split_ifs
      · exact bioAbs_frame rfl rfl rfl
      · obtain ⟨hbuf, horder, hdisk, -⟩ := iderw_frame havedisk1 s t b
        exact bioAbs_frame hbuf horder hdisk
  | iowait _ t b hp hk =>
      rw [BioState.iowait]
      split_ifs
      · exact bioAbs_frame rfl rfl rfl
      · exact bioAbs_frame rfl rfl rfl
  | modify _ t b data hp hl hk =>
      have hv := (h.bufs b).held t hl (by rw [on_of_eq hp]; rfl)
      rw [h.modify_seen hv]
      exact LockedStep.write _ t _ data ((h.owner_eq (h.used_of_lock hl)).trans hl)
  | mark _ t b hp hl hk => exact bioAbs_setBuf rfl rfl rfl rfl rfl rfl rfl
  | bwrite _ t b hp hl hk =>
      rw [BioState.bwrite, if_neg (fun e => e hl)]
      obtain ⟨hbuf, horder, hdisk, -⟩ := iderw_frame havedisk1 (s.mark b) t b
      refine (bioAbs_frame hbuf horder hdisk).trans ?_
      exact bioAbs_setBuf rfl rfl rfl rfl rfl rfl rfl
  | brelse _ t b hp hl ht hk =>
      have hused := h.used_of_lock hl
      have habs : bioAbs (s.brelse t b) =
          { bioAbs s with owner := Function.update (bioAbs s).owner (s.buf b).key none } := by
        rw [BioState.brelse, if_neg (fun e => e hl)]
        exact h.toBioCore.owner_setBuf (l := none) hused rfl rfl rfl
      rw [habs]
      exact LockedStep.give _ t _ ((h.owner_eq hused).trans hl)
  | unref _ t b hp hk => exact h.unref_unseen hp
  | ideintr _ ok hok hk =>
      rw [hok trivial]
      exact h.ideintr_unseen hk

omit [Fintype ι] in
/-- Before the first request nobody holds a block, and every block is as on the disk. -/
theorem bioAbs_start {havedisk1 : Bool} {reliable : Prop}
    (h : (bioMachine havedisk1 reliable).init s) :
    (∀ a, (bioAbs s).owner a = none) ∧ (bioAbs s).val = s.disk := by
  refine ⟨fun a => ?_, funext fun a => ?_⟩
  · show s.holders.view a = none
    rw [Cache.view]
    rcases s.holders.lookup a with - | b
    · rfl
    · obtain ⟨data, e⟩ := h.1 b
      exact (content_holders s b).trans (by rw [e])
  · show s.cache.view a = s.disk a
    rcases hb : s.cache.lookup a with - | b
    · exact view_of_lookup_none hb
    · obtain ⟨data, e⟩ := h.1 b
      rw [view_of_lookup hb, content_of_invalid (fun hv => ?_), key_of_lookup hb]
      · rfl
      · rw [show s.cache.valid b = (s.buf b).valid from rfl, e] at hv
        cases hv

/-- On disks that do not fail the buffer cache refines the store of locked blocks: a step changes a
block only as its label says, and a block is changed and given back by its holder alone. -/
theorem bio_refined (havedisk1 : Bool) :
    (bioMachine havedisk1 True).Refines (lockedMachine ι) (@bioAbs ι β) where
  init _ hs := (bioAbs_start hs).1
  step _ _ _ hr hs := bio_seen (bioInv_of_reachable hr) (coherent_of_reachable hr) hs

/-- **The buffer cache is a store of locked blocks.**  On disks that do not fail it refines that
store, action by action; and after every run a process that holds a buffer holds its block, and
finds in the buffer what was last written to the block by whoever held it then, or what was on
the disk at the start. -/
theorem bio_refines (havedisk1 : Bool) :
    (bioMachine havedisk1 True).Refines (lockedMachine ι) (@bioAbs ι β) ∧
    ∀ (s₀ s : BioState ι β) as, (bioMachine havedisk1 True).init s₀ →
      (bioMachine havedisk1 True).Run s₀ as s → ∀ t b, s.proc t = .run → (s.buf b).lock = some t →
        (bioAbs s).owner (s.buf b).key = some t ∧ (s.buf b).data = (bioAbs s).val (s.buf b).key ∧
        (s.buf b).data = lastWritten (s.buf b).key (s₀.disk (s.buf b).key) as.reduceOption := by
  refine ⟨bio_refined havedisk1, fun s₀ s as hs₀ hrun t b hp hl => ?_⟩
  have hstart := System.Reachable.start (M := (bioMachine havedisk1 True).system) hs₀
  have h := bioInv_of_reachable (hrun.reachable hstart)
  have hused := h.used_of_lock hl
  have hv := (h.bufs b).held t hl (by rw [on_of_eq hp]; rfl)
  have hdata : (s.buf b).data = (bioAbs s).val (s.buf b).key :=
    ((h.sound.view_key hused).trans (content_of_valid (c := s.cache) hv)).symm
  refine ⟨(h.owner_eq hused).trans hl, hdata, hdata.trans ?_⟩
  have hval := locked_run ((bio_refined havedisk1).run hstart hrun) (s.buf b).key
  rw [(bioAbs_start hs₀).2] at hval
  exact hval

end Fintype

end SystemsPortfolio.Xv6
