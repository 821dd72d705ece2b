/-
SystemsPortfolio/Xv6/LogCrash.lean

The log makes file system operations atomic and durable.

`Durable` is what the log is for: the blocks as the operations see them, and the blocks
as they will be found after a crash.  The second follow the first only at moments when
no operation is under way (`DurableStep.commit`), so that a crash keeps or drops whole
operations.  `log_refines` shows that the code behaves like this, whatever the
interleaving of the operations and wherever a crash strikes, also during a commit or
during the recovery from an earlier crash.

The blocks found after a crash are the replay of what is on the disk.  The invariant
`DiskInv` says for every point of a commit or of recovery which block writes have been
made, and `RedoLog` what they do to the replay.
-/
import Mathlib.Data.List.GetD
import SystemsPortfolio.Xv6.LogRoom

namespace SystemsPortfolio.Xv6

open RedoLog Transition

/-! ### What the log is for -/

/-- The blocks as the operations see them, as a crash would leave them, and the number of
operations under way. -/
@[ext]
structure Durable where
  cur : Nat → Block
  dur : Nat → Block
  ops : Nat

inductive DurableStep {ι : Type} : LogAct ι → Durable → Durable → Prop
  | begin (a : Durable) (t : ι) : DurableStep (.begin t) a { a with ops := a.ops + 1 }
  | write (a : Durable) (t : ι) (b : Nat) (data : Block) (h : 0 < a.ops) :
      DurableStep (.write t b data) a { a with cur := Function.update a.cur b data }
  | finish (a : Durable) (t : ι) (h : 0 < a.ops) :
      DurableStep (.finish t) a { a with ops := a.ops - 1 }
  | commit (a : Durable) (h : a.ops = 0) : DurableStep .commit a { a with dur := a.cur }
  | crash (a : Durable) : DurableStep .crash a { a with cur := a.dur, ops := 0 }

def durableMachine (ι : Type) : Labelled Durable (LogAct ι) where
  init a := a.cur = a.dur ∧ a.ops = 0
  step := DurableStep

variable {ι : Type} {start size k : Nat} {s s' : LogState ι}

/-- The blocks outside the log. -/
def homePart (start size : Nat) (m : Nat → Block) (b : Nat) : Block :=
  if Region start size b then fun _ => 0 else m b

/-- The disk after recovery. -/
def recovered (start : Nat) (s : LogState ι) : Nat → Block :=
  replay start (readHeader (s.disk start)) s.disk

/-- What a state of the log stands for. -/
def logAbs (start size : Nat) (s : LogState ι) : Durable where
  cur := homePart start size (if s.task.recovering then recovered start s else s.cache)
  dur := homePart start size (recovered start s)
  ops := s.outstanding

theorem logAbs_cur (h : s.task.recovering = false) :
    (logAbs start size s).cur = homePart start size s.cache := by
  rw [logAbs, h]
  rfl

theorem logAbs_cur_recovering (h : s.task.recovering = true) :
    (logAbs start size s).cur = (logAbs start size s).dur := by
  rw [logAbs, h]
  rfl

theorem homePart_congr {m m' : Nat → Block} (h : ∀ b, ¬ Region start size b → m' b = m b) :
    homePart start size m' = homePart start size m := by
  funext b
  rw [homePart, homePart]
  split_ifs with hb
  · rfl
  · exact h b hb

theorem homePart_update {m : Nat → Block} {b : Nat} (data : Block) (hb : ¬ Region start size b) :
    homePart start size (Function.update m b data) =
      Function.update (homePart start size m) b data := by
  funext c
  rcases eq_or_ne c b with rfl | hc
  · rw [homePart, if_neg hb, Function.update_self, Function.update_self]
  · rw [Function.update_of_ne hc, homePart, homePart, Function.update_of_ne hc]

/-! ### The invariant -/

/-- A header that can be written to the disk and read back. -/
structure Header (start size : Nat) (lh : List Nat) : Prop extends Fits start size lh where
  small : ∀ b ∈ lh, b < fsSize
  short : lh.length ≤ logSize

theorem Header.read {lh : List Nat} (h : Header start size lh) (blk : Block) :
    readHeader (headerBlock blk lh) = lh :=
  readHeader_headerBlock blk h.short h.small

theorem Header.of_eq {lh lh' : List Nat} (h : Header start size lh) (e : lh' = lh) :
    Header start size lh' := e ▸ h

theorem header_nil (hsize : 0 < size) : Header start size [] :=
  ⟨⟨List.nodup_nil, (fun _ hb => by cases hb), hsize⟩, (fun _ hb => by cases hb), Nat.zero_le _⟩

/-- Every copy of the header on the disk is at its home. -/
def Installed (start : Nat) (s : LogState ι) : Prop :=
  ∀ j (hj : j < (readHeader (s.disk start)).length),
    s.disk (readHeader (s.disk start))[j] = s.disk (start + j + 1)

/-- The copies of the first `n` listed blocks are in the log. -/
def Copied (start : Nat) (s : LogState ι) (n : Nat) : Prop :=
  ∀ j (hj : j < s.lh.length), j < n → s.disk (start + j + 1) = s.cache s.lh[j]

/-- The first `n` listed blocks are on the disk as they are in the cache. -/
def Homed (s : LogState ι) (n : Nat) : Prop :=
  ∀ j (hj : j < s.lh.length), j < n → s.disk s.lh[j] = s.cache s.lh[j]

/-- How far a commit or recovery has come. -/
def Progress (start : Nat) (s : LogState ι) : Prop :=
  match s.task with
  | .none | .done => readHeader (s.disk start) = []
  | .writeLog tail => readHeader (s.disk start) = [] ∧ Copied start s tail
  | .writeHead => readHeader (s.disk start) = [] ∧ Copied start s s.lh.length
  | .install tail =>
      readHeader (s.disk start) = s.lh ∧ Copied start s s.lh.length ∧ Homed s tail
  | .clear | .reclear => s.lh = [] ∧ Installed start s
  | .readHead => s.lh = []
  | .reinstall tail =>
      readHeader (s.disk start) = s.lh ∧ s.cache = s.disk ∧
        ∀ j (hj : j < s.lh.length), j < tail → s.disk s.lh[j] = s.disk (start + j + 1)

/-- The disk and the cache, outside what is under way. -/
structure DiskInv (start size : Nat) (s : LogState ι) : Prop where
  header : Header start size (readHeader (s.disk start))
  listed : Header start size s.lh
  region : ∀ b, Region start size b → s.cache b = s.disk b
  rest : ∀ b, ¬ Region start size b → b ∉ s.lh → s.cache b = s.disk b
  progress : Progress start s

theorem DiskInv.cache_eq (h : DiskInv start size s) (hlh : s.lh = []) : s.cache = s.disk := by
  funext b
  by_cases hb : Region start size b
  · exact h.region b hb
  · refine h.rest b hb ?_
    rw [hlh]
    exact List.not_mem_nil

/-! ### Block writes -/

theorem LogState.bwrite_agree {b c : Nat} {data : Block} (h : s.cache c = s.disk c) :
    (s.bwrite b data).cache c = (s.bwrite b data).disk c := by
  dsimp only [bwrite]
  rcases eq_or_ne c b with rfl | hc
  · rw [Function.update_self, Function.update_self]
  · rw [Function.update_of_ne hc, Function.update_of_ne hc, h]

theorem LogState.bwrite_cache_ne {b c : Nat} {data : Block} (h : c ≠ b) :
    (s.bwrite b data).cache c = s.cache c := Function.update_of_ne h ..

theorem LogState.bwrite_disk_ne {b c : Nat} {data : Block} (h : c ≠ b) :
    (s.bwrite b data).disk c = s.disk c := Function.update_of_ne h ..

theorem LogState.bwrite_disk_self {b : Nat} {data : Block} : (s.bwrite b data).disk b = data :=
  Function.update_self ..

theorem region_start (hsize : 0 < size) : Region start size start := ⟨le_rfl, by omega⟩

theorem ne_of_home {b c : Nat} (hb : ¬ Region start size b) (hc : Region start size c) : b ≠ c := by
  rintro rfl
  exact hb hc

/-- A write within the log, while the header lists nothing, is invisible. -/
theorem recovered_of_empty {c : Nat} (h : readHeader (s.disk start) = []) :
    recovered start s c = s.disk c := by
  rw [recovered, h, replay_nil]

/-- What every write keeps. -/
theorem DiskInv.bwrite {b : Nat} {data : Block} {task : Task} (h : DiskInv start size s)
    (hheader : Header start size (readHeader ((s.bwrite b data).disk start)))
    (hprogress : Progress start { s.bwrite b data with task := task }) :
    DiskInv start size { s.bwrite b data with task := task } where
  header := hheader
  listed := h.listed
  region c hc := LogState.bwrite_agree (h.region c hc)
  rest c hc hmem := LogState.bwrite_agree (h.rest c hc hmem)
  progress := hprogress

section steps

variable {tail : Nat}

/-- Neither the operations nor a crash can tell two states apart. -/
structure Unseen (start size : Nat) (s s' : LogState ι) : Prop where
  cache : ∀ b, ¬ Region start size b → s'.cache b = s.cache b
  recovered : ∀ b, ¬ Region start size b → recovered start s' b = recovered start s b

/-- `write_log`: one more copy. -/
theorem DiskInv.writeLog (h : DiskInv start size s) (ht : s.task = .writeLog tail) :
    DiskInv start size (s.work start) ∧ Unseen start size s (s.work start) := by
  have hp := h.progress
  rw [Progress, ht] at hp
  obtain ⟨hempty, hcopied⟩ := hp
  rw [LogState.work, ht]
  dsimp only
  by_cases hlt : tail < s.lh.length
  · rw [if_pos hlt, List.getD_eq_getElem _ _ hlt]
    have hreg := h.listed.copy_region hlt
    have hstart : start ≠ start + tail + 1 := by omega
    have hhead : readHeader ((s.bwrite (start + tail + 1) (s.cache s.lh[tail])).disk start) = [] := by
      rw [LogState.bwrite_disk_ne hstart, hempty]
    refine ⟨h.bwrite (by rw [hhead, ← hempty]; exact h.header) ⟨hhead, fun j hj hjt => ?_⟩,
      fun b hb => LogState.bwrite_cache_ne (ne_of_home hb hreg), fun b hb => ?_⟩
    · -- the new copy is that of block `tail`, the others were there
      have hne := h.listed.getElem_ne_copy hj hlt
      refine Eq.trans ?_ (LogState.bwrite_cache_ne hne).symm
      rcases eq_or_ne j tail with rfl | hjne
      · exact LogState.bwrite_disk_self
      · rw [LogState.bwrite_disk_ne (by omega)]
        exact hcopied j hj (by omega)
    · rw [recovered_of_empty hempty]
      refine (recovered_of_empty hhead).trans ?_
      exact LogState.bwrite_disk_ne (ne_of_home hb hreg)
  · rw [if_neg hlt]
    refine ⟨⟨h.header, h.listed, h.region, h.rest, hempty, fun j hj _ => ?_⟩, fun _ _ => rfl,
      fun _ _ => rfl⟩
    exact hcopied j hj (by have : j < s.lh.length := hj; omega)

/-- `write_head`: from here on a crash finds what the operations see. -/
theorem DiskInv.writeHead (h : DiskInv start size s) (ht : s.task = .writeHead) :
    DiskInv start size (s.work start) ∧
    ∀ b, ¬ Region start size b → (s.work start).cache b = s.cache b ∧
      recovered start (s.work start) b = s.cache b := by
  have hp := h.progress
  rw [Progress, ht] at hp
  obtain ⟨hempty, hcopied⟩ := hp
  rw [LogState.work, ht]
  dsimp only
  have hread : readHeader ((s.bwrite start (headerBlock (s.cache start) s.lh)).disk start) = s.lh := by
    rw [LogState.bwrite_disk_self, h.listed.read]
  have hreg : Region start size start := region_start (Nat.zero_lt_of_lt h.listed.room)
  have hcopies : ∀ j (hj : j < s.lh.length),
      (s.bwrite start (headerBlock (s.cache start) s.lh)).disk (start + j + 1) = s.cache s.lh[j] := by
    intro j hj
    rw [LogState.bwrite_disk_ne (by omega)]
    exact hcopied j hj hj
  have hhome : ∀ b, ¬ Region start size b →
      (s.bwrite start (headerBlock (s.cache start) s.lh)).cache b = s.cache b :=
    fun b hb => LogState.bwrite_cache_ne (ne_of_home hb hreg)
  refine ⟨h.bwrite (by rw [hread]; exact h.listed) ⟨hread, fun j hj _ => ?_, fun j _ hj0 => ?_⟩,
    fun b hb => ⟨hhome b hb, ?_⟩⟩
  · refine (hcopies j hj).trans (hhome _ (h.listed.home _ (List.getElem_mem hj))).symm
  · cases hj0
  · rw [recovered, hread]
    refine replay_copies h.listed.nodup hcopies fun hb' => ?_
    exact (LogState.bwrite_disk_ne (ne_of_home hb hreg)).trans (h.rest b hb hb').symm

/-- Installing a copy, in a commit or in recovery, does not change what a crash finds. -/
theorem DiskInv.install_recovered (h : DiskInv start size s)
    (hhead : readHeader (s.disk start) = s.lh) (hlt : tail < s.lh.length) (task : Task) :
    let s' := { s.bwrite (s.lh.getD tail 0) (s.cache (start + tail + 1)) with task := task }
    readHeader (s'.disk start) = s.lh ∧ (∀ b, recovered start s' b = recovered start s b) ∧
      (∀ b, Region start size b → s'.disk b = s.disk b) ∧
      ∀ j (hj : j < s.lh.length),
        s'.disk s.lh[j] = if j = tail then s.disk (start + tail + 1) else s.disk s.lh[j] := by
  intro s'
  have hhome := h.listed.home _ (List.getElem_mem hlt)
  have hreg : ∀ b, Region start size b → s'.disk b = s.disk b := by
    intro b hb
    refine LogState.bwrite_disk_ne ?_
    rw [List.getD_eq_getElem _ _ hlt]
    exact (ne_of_home hhome hb).symm
  have hread : readHeader (s'.disk start) = s.lh := by
    rw [hreg start (region_start (Nat.zero_lt_of_lt h.listed.room)), hhead]
  have hdisk : s'.disk = Function.update s.disk s.lh[tail] (s.disk (start + tail + 1)) := by
    show Function.update s.disk _ _ = _
    rw [List.getD_eq_getElem _ _ hlt, h.region _ (h.listed.copy_region hlt)]
  refine ⟨hread, fun b => ?_, hreg, fun j hj => ?_⟩
  · rw [recovered, recovered, hread, hhead, hdisk, replay_install h.listed.toFits hlt]
  · rw [hdisk]
    split_ifs with hjt
    · subst hjt
      rw [Function.update_self]
    · refine Function.update_of_ne (fun e => hjt ?_) ..
      exact (h.listed.nodup.getElem_inj_iff).mp e

/-- `install_trans` of a commit, ending with the empty header. -/
theorem DiskInv.install (h : DiskInv start size s) (ht : s.task = .install tail) :
    DiskInv start size (s.work start) ∧ Unseen start size s (s.work start) := by
  have hp := h.progress
  rw [Progress, ht] at hp
  obtain ⟨hhead, hcopied, hhomed⟩ := hp
  rw [LogState.work, ht]
  dsimp only
  by_cases hlt : tail < s.lh.length
  · rw [if_pos hlt]
    obtain ⟨hread, hrec, hreg, hlist⟩ := h.install_recovered hhead hlt (.install (tail + 1))
    -- the copy is what the cache has, so that the cache does not change
    have hcache : (s.bwrite (s.lh.getD tail 0) (s.cache (start + tail + 1))).cache = s.cache := by
      show Function.update s.cache _ _ = _
      rw [List.getD_eq_getElem _ _ hlt, h.region _ (h.listed.copy_region hlt), hcopied tail hlt hlt,
        Function.update_eq_self]
    refine ⟨h.bwrite (h.listed.of_eq hread) ⟨hread, fun j hj _ => ?_, fun j hj hjt => ?_⟩,
      fun b _ => congrFun hcache b, fun b _ => hrec b⟩
    · refine (hreg _ (h.listed.copy_region hj)).trans ?_
      exact (hcopied j hj hj).trans (congrFun hcache _).symm
    · refine (hlist j hj).trans (Eq.trans ?_ (congrFun hcache _).symm)
      split_ifs with hjt'
      · subst hjt'
        exact hcopied j hlt hlt
      · exact hhomed j hj (by omega)
  · rw [if_neg hlt]
    have hall : ∀ j (hj : j < s.lh.length), s.disk s.lh[j] = s.cache s.lh[j] :=
      fun j hj => hhomed j hj (by omega)
    refine ⟨⟨h.header, header_nil (Nat.zero_lt_of_lt h.listed.room), h.region, fun b hb _ => ?_, rfl,
      ?_⟩, fun _ _ => rfl, fun _ _ => rfl⟩
    · by_cases hmem : b ∈ s.lh
      · obtain ⟨j, hj, rfl⟩ := List.getElem_of_mem hmem
        exact (hall j hj).symm
      · exact h.rest b hb hmem
    · dsimp only [Installed]
      rw [hhead]
      intro j hj
      exact (hall j hj).trans (hcopied j hj hj).symm

/-- The header is cleared on the disk once every copy is at its home. -/
theorem DiskInv.clear_recovered (h : DiskInv start size s) (hlh : s.lh = [])
    (hinst : Installed start s) (task : Task) :
    let s' := { s.bwrite start (headerBlock (s.cache start) s.lh) with task := task }
    readHeader (s'.disk start) = [] ∧ Unseen start size s s' ∧
      ∀ b, ¬ Region start size b → recovered start s' b = s'.cache b := by
  intro s'
  have hreg : Region start size start := region_start (Nat.zero_lt_of_lt h.listed.room)
  have hread : readHeader (s'.disk start) = [] := by
    show readHeader ((s.bwrite start (headerBlock (s.cache start) s.lh)).disk start) = []
    rw [LogState.bwrite_disk_self, h.listed.read, hlh]
  have hold : recovered start s = s.disk := replay_installed h.header.nodup hinst
  have hnew : ∀ b, ¬ Region start size b → recovered start s' b = s.disk b := by
    intro b hb
    rw [recovered_of_empty hread]
    exact LogState.bwrite_disk_ne (ne_of_home hb hreg)
  have hcache : ∀ b, ¬ Region start size b → s'.cache b = s.cache b :=
    fun b hb => LogState.bwrite_cache_ne (ne_of_home hb hreg)
  refine ⟨hread, ⟨hcache, fun b hb => ?_⟩, fun b hb => ?_⟩
  · rw [hnew b hb, hold]
  · rw [hnew b hb, hcache b hb, h.cache_eq hlh]

theorem DiskInv.clear (h : DiskInv start size s) (ht : s.task = .clear) :
    DiskInv start size (s.work start) ∧ Unseen start size s (s.work start) := by
  have hp := h.progress
  rw [Progress, ht] at hp
  rw [LogState.work, ht]
  obtain ⟨hread, hunseen, -⟩ := h.clear_recovered hp.1 hp.2 .done
  refine ⟨h.bwrite ?_ hread, hunseen⟩
  exact (header_nil (Nat.zero_lt_of_lt h.listed.room)).of_eq hread

/-- `read_head`. -/
theorem DiskInv.readHead (h : DiskInv start size s) (ht : s.task = .readHead) :
    DiskInv start size (s.work start) ∧ Unseen start size s (s.work start) := by
  have hp := h.progress
  rw [Progress, ht] at hp
  have hcache := h.cache_eq hp
  rw [LogState.work, ht]
  dsimp only
  have hread : readHeader (s.cache start) = readHeader (s.disk start) := by rw [hcache]
  refine ⟨⟨h.header, h.header.of_eq hread, h.region, fun b _ _ => congrFun hcache b, hread.symm,
    hcache, fun j _ hj0 => ?_⟩, fun _ _ => rfl, fun b _ => ?_⟩
  · cases hj0
  · show replay start (readHeader (s.disk start)) s.disk b = recovered start s b
    rw [recovered]

/-- `install_trans` of recovery. -/
theorem DiskInv.reinstall (h : DiskInv start size s) (ht : s.task = .reinstall tail) :
    DiskInv start size (s.work start) ∧
    ∀ b, recovered start (s.work start) b = recovered start s b := by
  have hp := h.progress
  rw [Progress, ht] at hp
  obtain ⟨hhead, hcache, hdone⟩ := hp
  rw [LogState.work, ht]
  dsimp only
  by_cases hlt : tail < s.lh.length
  · rw [if_pos hlt]
    obtain ⟨hread, hrec, hreg, hlist⟩ := h.install_recovered hhead hlt (.reinstall (tail + 1))
    refine ⟨h.bwrite (h.listed.of_eq hread) ⟨hread, ?_, fun j hj hjt => ?_⟩, hrec⟩
    · show Function.update s.cache _ _ = Function.update s.disk _ _
      rw [hcache]
    · refine (hlist j hj).trans (Eq.trans ?_ (hreg _ (h.listed.copy_region hj)).symm)
      split_ifs with hjt'
      · rw [hjt']
      · exact hdone j hj (by omega)
  · rw [if_neg hlt]
    refine ⟨⟨h.header, header_nil (Nat.zero_lt_of_lt h.listed.room), h.region,
      fun b _ _ => congrFun hcache b, rfl, ?_⟩, fun _ => rfl⟩
    dsimp only [Installed]
    rw [hhead]
    exact fun j hj => hdone j hj (by omega)

/-- The end of recovery: the cache has what the crash left. -/
theorem DiskInv.reclear (h : DiskInv start size s) (ht : s.task = .reclear) :
    DiskInv start size (s.work start) ∧ Unseen start size s (s.work start) ∧
    ∀ b, ¬ Region start size b → recovered start (s.work start) b = (s.work start).cache b := by
  have hp := h.progress
  rw [Progress, ht] at hp
  rw [LogState.work, ht]
  obtain ⟨hread, hunseen, hcache⟩ := h.clear_recovered hp.1 hp.2 .none
  refine ⟨h.bwrite ?_ hread, hunseen, hcache⟩
  exact (header_nil (Nat.zero_lt_of_lt h.listed.room)).of_eq hread

end steps

/-! ### The other steps -/

section others

variable [DecidableEq ι]

/-- A `log_write` outside a commit: the new contents are in the cache only. -/
theorem DiskInv.logWrite {t : ι} {w : List Nat} {b : Nat} {data : Block} (h : DiskInv start size s)
    (ht : s.task = .none) (hhome : ¬ Region start size b) (hfs : b < fsSize)
    (hlen : (absorb s.lh b).length ≤ logSize) (hroom : (absorb s.lh b).length < size) :
    DiskInv start size (s.logWrite t w b data) where
  header := h.header
  listed := by
    refine ⟨h.listed.toFits.absorb hhome hroom, fun c hc => ?_, hlen⟩
    rcases mem_absorb.mp hc with hc | rfl
    · exact h.listed.small c hc
    · exact hfs
  region c hc := by
    refine Eq.trans ?_ (h.region c hc)
    exact Function.update_of_ne (ne_of_home hhome hc).symm ..
  rest c hc hmem := by
    have hold : c ∉ s.lh := fun hc' => hmem (mem_absorb.mpr (Or.inl hc'))
    refine Eq.trans (Function.update_of_ne ?_ ..) (h.rest c hc hold)
    rintro rfl
    exact hmem (mem_absorb.mpr (Or.inr rfl))
  progress := by
    have hp := h.progress
    rw [Progress, ht] at hp
    show Progress start (s.logWrite t w b data)
    rw [Progress, show (s.logWrite t w b data).task = .none from ht]
    exact hp

theorem DiskInv.endOp {t : ι} (h : DiskInv start size s) (ht : s.task = .none) :
    DiskInv start size (s.endOp t) := by
  have hp := h.progress
  rw [Progress, ht] at hp
  rw [LogState.endOp]
  split_ifs
  · exact { h with }
  · exact { h with progress := hp }
  · exact { h with progress := ⟨hp, fun j _ hj => by cases hj⟩ }
  · exact { h with }

theorem DiskInv.endCommit {t : ι} (h : DiskInv start size s) (ht : s.task = .done) :
    DiskInv start size (s.endCommit t) := by
  have hp := h.progress
  rw [Progress, ht] at hp
  exact { h with progress := hp }

omit [DecidableEq ι] in
theorem DiskInv.crash (h : DiskInv start size s) : DiskInv start size s.crash where
  header := h.header
  listed := header_nil (Nat.zero_lt_of_lt h.listed.room)
  region _ _ := rfl
  rest _ _ _ := rfl
  progress := rfl

omit [DecidableEq ι] in
/-- One block write of a commit or of recovery. -/
theorem DiskInv.work (h : DiskInv start size s) : DiskInv start size (s.work start) := by
  rcases ht : s.task with - | tail | - | tail | - | - | - | tail | -
  · rwa [LogState.work, ht]
  · exact (h.writeLog ht).1
  · exact (h.writeHead ht).1
  · exact (h.install ht).1
  · exact (h.clear ht).1
  · rwa [LogState.work, ht]
  · exact (h.readHead ht).1
  · exact (h.reinstall ht).1
  · exact (h.reclear ht).1

end others

/-! ### Runs -/

section runs

variable [DecidableEq ι] [Fintype ι]

/-- Everything that holds in a reachable state. -/
structure LogInv (start size k : Nat) (s : LogState ι) : Prop where
  procs : ProcInv k s
  disk : DiskInv start size s
  home : ∀ t w b data, s.proc t = .logging w b data → ¬ Region start size b ∧ b < fsSize

omit [DecidableEq ι] in
/-- A process in an operation runs while there is neither a commit nor recovery. -/
theorem ProcInv.task_none {t : ι} {w : List Nat} (h : ProcInv k s)
    (hw : (s.proc t).written = some w) : s.task = .none := by
  obtain ⟨hcom, hrec⟩ := h.calm hw
  have htask := h.task
  rw [hcom] at htask
  by_contra hnone
  have hdone : s.task ≠ .done := fun e => by rw [e] at htask; cases htask
  rcases Task.busy ⟨hnone, hdone⟩ with hc | hr
  · rw [hc] at htask
    cases htask
  · rw [hr] at hrec
    cases hrec

/-- A process that moves to `p` is not within `log_write`, or about to write a home block. -/
theorem LogInv.home_update {t : ι} {p : LogProc} (h : LogInv start size k s)
    (hp : ∀ w b data, p = .logging w b data → ¬ Region start size b ∧ b < fsSize) (u : ι)
    (w : List Nat) (b : Nat) (data : Block) (hu : Function.update s.proc t p u = .logging w b data) :
    ¬ Region start size b ∧ b < fsSize := by
  rcases eq_or_ne u t with rfl | hut
  · rw [Function.update_self] at hu
    exact hp w b data hu
  · rw [Function.update_of_ne hut] at hu
    exact h.home u w b data hu

theorem LogInv.step {act : Option (LogAct ι)} (hk : k ≤ maxOpBlocks) (hsize : logPeak k < size)
    (h : LogInv start size k s) (hs : LogStep start size k act s s') : LogInv start size k s' := by
  have hprocs := h.procs.step hk hs
  have hd := h.disk
  cases hs with
  | call _ t hp ht => exact ⟨hprocs, { hd with }, h.home_update fun w b data e => by cases e⟩
  | beginOp _ t hp =>
      revert hprocs
      rw [LogState.beginOp]
      split_ifs with hwait
      · exact fun hprocs => ⟨hprocs, { hd with }, h.home_update fun w b data e => by cases e⟩
      · exact fun hprocs => ⟨hprocs, { hd with }, h.home_update fun w b data e => by cases e⟩
  | logCheck _ t w b data hp hw hb hfs =>
      revert hprocs
      rw [LogState.logCheck]
      split_ifs with hcheck
      · exact fun hprocs => ⟨hprocs, { hd with }, h.home⟩
      · refine fun hprocs => ⟨hprocs, { hd with }, h.home_update fun w' b' data' e => ?_⟩
        cases e
        exact ⟨hb, hfs⟩
  | logWrite _ t w b data hp =>
      have hwt : (s.proc t).written = some w := by rw [hp]; rfl
      obtain ⟨hhome, hfs⟩ := h.home t w b data hp
      have hlen : (absorb s.lh b).length + _ ≤ logPeak k := hprocs.room (h.procs.calm hwt).2
      have hpeak : logPeak k ≤ logSize := by
        dsimp only [logPeak, logSize, maxOpBlocks] at hk ⊢
        omega
      refine ⟨hprocs, hd.logWrite (h.procs.task_none hwt) hhome hfs (by omega) (by omega), ?_⟩
      exact h.home_update fun w' b' data' e => by cases e
  | endOp _ t w hp =>
      have hwt : (s.proc t).written = some w := by rw [hp]; rfl
      refine ⟨hprocs, hd.endOp (h.procs.task_none hwt), ?_⟩
      rw [LogState.endOp]
      split_ifs
      · exact h.home
      · exact h.home_update fun w' b' data' e => by cases e
      · exact h.home_update fun w' b' data' e => by cases e
      · intro u w' b' data' hu
        rw [LogState.wakeup_proc] at hu
        exact h.home_update (fun w' b' data' e => by cases e) u w' b' data' (LogProc.awake_eq_logging hu)
  | work _ ht =>
      refine ⟨hprocs, hd.work, ?_⟩
      rw [(@LogState.work_frame ι start s).1]
      exact h.home
  | endCommit _ t hp ht =>
      refine ⟨hprocs, hd.endCommit ht, fun u w' b' data' hu => ?_⟩
      rw [LogState.endCommit, LogState.wakeup_proc] at hu
      exact h.home_update (fun w' b' data' e => by cases e) u w' b' data' (LogProc.awake_eq_logging hu)
  | crash => exact ⟨hprocs, hd.crash, fun t w b data hp => by cases hp⟩

/-- The run lemma. -/
theorem logInv_of_reachable (hk : k ≤ maxOpBlocks) (hsize : logPeak k < size)
    (h : (logSystem start size k).Reachable s) : LogInv start size k s := by
  refine h.invariant ?_ ?_
  · rintro _ ⟨s₀, hempty, rfl⟩
    have hnil : Header start size [] := header_nil (Nat.zero_lt_of_lt hsize)
    refine ⟨procInv_crash s₀, ⟨hnil.of_eq hempty, hnil, fun _ _ => rfl, fun _ _ _ => rfl, rfl⟩, ?_⟩
    exact fun t w b data hp => by cases hp
  · rintro s s' - hi ⟨_, hs⟩
    exact hi.step hk hsize hs

omit [Fintype ι] [DecidableEq ι] in
theorem Unseen.logAbs_eq (h : Unseen start size s s') (hout : s'.outstanding = s.outstanding)
    (hrec : s'.task.recovering = s.task.recovering) :
    logAbs start size s' = logAbs start size s := by
  rw [logAbs, logAbs, hout, hrec, homePart_congr h.recovered]
  congr 1
  refine homePart_congr fun b hb => ?_
  split_ifs
  · exact h.recovered b hb
  · exact h.cache b hb

omit [Fintype ι] [DecidableEq ι] in
/-- Steps that move processes only. -/
theorem logAbs_congr (hdisk : s'.disk = s.disk) (hcache : s'.cache = s.cache)
    (hout : s'.outstanding = s.outstanding) (hrec : s'.task.recovering = s.task.recovering) :
    logAbs start size s' = logAbs start size s := by
  rw [logAbs, logAbs, recovered, recovered, hdisk, hcache, hout, hrec]

omit [Fintype ι] [DecidableEq ι] in
theorem logAbs_wakeup : logAbs start size s.wakeup = logAbs start size s :=
  logAbs_congr rfl rfl rfl rfl

omit [Fintype ι] [DecidableEq ι] in
/-- `write_head` is the moment of the commit. -/
theorem DiskInv.commits (h : DiskInv start size s) (ht : s.task = .writeHead) :
    logAbs start size (s.work start) =
      { logAbs start size s with dur := (logAbs start size s).cur } := by
  have hseen := (h.writeHead ht).2
  have htask : (s.work start).task.recovering = false := by rw [LogState.work, ht]; rfl
  have hcur : (logAbs start size s).cur = homePart start size s.cache :=
    logAbs_cur (by rw [ht]; rfl)
  refine Durable.ext ?_ ?_ LogState.work_frame.2.1
  · rw [logAbs_cur htask, hcur]
    exact homePart_congr fun b hb => (hseen b hb).1
  · rw [hcur]
    exact homePart_congr fun b hb => (hseen b hb).2

omit [Fintype ι] [DecidableEq ι] in
/-- The installation of recovery is not seen. -/
theorem DiskInv.reinstall_unseen {tail : Nat} (h : DiskInv start size s)
    (ht : s.task = .reinstall tail) : logAbs start size (s.work start) = logAbs start size s := by
  have hdur : (logAbs start size (s.work start)).dur = (logAbs start size s).dur :=
    homePart_congr fun b _ => (h.reinstall ht).2 b
  have htask : (s.work start).task.recovering = true := by
    rw [LogState.work, ht]
    dsimp only
    split_ifs <;> rfl
  refine Durable.ext ?_ hdur LogState.work_frame.2.1
  rw [logAbs_cur_recovering htask, hdur, logAbs_cur_recovering (by rw [ht]; rfl)]

omit [Fintype ι] [DecidableEq ι] in
/-- Nor is its end, where the operations start to use the cache. -/
theorem DiskInv.reclear_unseen (h : DiskInv start size s) (ht : s.task = .reclear) :
    logAbs start size (s.work start) = logAbs start size s := by
  obtain ⟨hunseen, hcache⟩ := (h.reclear ht).2
  have hdur : (logAbs start size (s.work start)).dur = (logAbs start size s).dur :=
    homePart_congr hunseen.recovered
  have htask : (s.work start).task.recovering = false := by rw [LogState.work, ht]; rfl
  refine Durable.ext ?_ hdur LogState.work_frame.2.1
  rw [logAbs_cur htask, logAbs_cur_recovering (by rw [ht]; rfl), ← hdur]
  exact homePart_congr fun b hb => (hcache b hb).symm

omit [DecidableEq ι] in
/-- A block write of a commit or of recovery: the write of the header commits, the others are
not seen. -/
theorem LogInv.work_simulated (h : LogInv start size k s) (ht : s.task ≠ .none ∧ s.task ≠ .done) :
    (durableMachine ι).Sees (s.task.act ι) (logAbs start size s)
      (logAbs start size (s.work start)) := by
  have hout := (@LogState.work_frame ι start s).2.1
  have hd := h.disk
  rcases e : s.task with - | tail | - | tail | - | - | - | tail | -
  · exact absurd e ht.1
  · refine (hd.writeLog e).2.logAbs_eq hout ?_
    rw [LogState.work, e]
    dsimp only
    split_ifs <;> rfl
  · rw [hd.commits e]
    exact DurableStep.commit _ (h.procs.quiet (Or.inl (by rw [h.procs.task, e]; rfl)))
  · refine (hd.install e).2.logAbs_eq hout ?_
    rw [LogState.work, e]
    dsimp only
    split_ifs <;> rfl
  · refine (hd.clear e).2.logAbs_eq hout ?_
    rw [LogState.work, e]
    rfl
  · exact absurd e ht.2
  · refine (hd.readHead e).2.logAbs_eq hout ?_
    rw [LogState.work, e]
    rfl
  · exact hd.reinstall_unseen e
  · exact hd.reclear_unseen e

/-- A `log_write` is a write of the operation. -/
theorem LogInv.write_simulated {t : ι} {w : List Nat} {b : Nat} {data : Block}
    (h : LogInv start size k s) (hp : s.proc t = .logging w b data) :
    DurableStep (.write t b data) (logAbs start size s)
      (logAbs start size (s.logWrite t w b data)) := by
  have hwt : (s.proc t).written = some w := by rw [hp]; rfl
  have hrec : s.task.recovering = false := (h.procs.calm hwt).2
  have habs : logAbs start size (s.logWrite t w b data) =
      { logAbs start size s with cur := Function.update (logAbs start size s).cur b data } := by
    refine Durable.ext ?_ rfl rfl
    have hrec' : (s.logWrite t w b data).task.recovering = false := hrec
    rw [logAbs_cur hrec, logAbs_cur hrec']
    exact homePart_update data (h.home t w b data hp).1
  rw [habs]
  exact .write _ t b data (h.procs.outstanding_pos hwt)

/-- An `end_op` finishes the operation. -/
theorem LogInv.finish_simulated {t : ι} {w : List Nat} (h : LogInv start size k s)
    (hp : s.proc t = .inOp w) :
    DurableStep (.finish t) (logAbs start size s) (logAbs start size (s.endOp t)) := by
  have hwt : (s.proc t).written = some w := by rw [hp]; rfl
  have htask := h.procs.task_none hwt
  have hcur : (logAbs start size s).cur = homePart start size s.cache :=
    logAbs_cur (by rw [htask]; rfl)
  have habs : logAbs start size (s.endOp t) =
      { logAbs start size s with ops := (logAbs start size s).ops - 1 } := by
    rw [LogState.endOp, if_neg (by rw [(h.procs.calm hwt).1]; decide)]
    split_ifs
    · exact Durable.ext (Eq.trans rfl hcur.symm) rfl rfl
    · exact Durable.ext (Eq.trans rfl hcur.symm) rfl rfl
    · rw [logAbs_wakeup]
      exact Durable.ext rfl rfl rfl
  rw [habs]
  exact .finish _ t (h.procs.outstanding_pos hwt)

/-- The log keeps file system operations atomic: every run of it is a run of `durableMachine`,
with the same actions in the same order, in which a crash falls back to the blocks of the last
commit, and a commit happens only between operations. -/
theorem log_refines (hk : k ≤ maxOpBlocks) (hsize : logPeak k < size) :
    (logMachine start size k).Refines (durableMachine ι) (@logAbs ι start size) where
  init := by
    rintro _ ⟨s₀, -, rfl⟩
    exact ⟨logAbs_cur_recovering rfl, rfl⟩
  step s s' act hr hs := by
    have h := logInv_of_reachable hk hsize hr
    cases hs with
    | call _ t hp ht => exact logAbs_congr rfl rfl rfl rfl
    | beginOp _ t hp =>
        rw [LogState.beginOp, LogState.beginning]
        split_ifs with hwait
        · exact logAbs_congr rfl rfl rfl rfl
        · exact DurableStep.begin _ t
    | logCheck _ t w b data hp =>
        rw [LogState.logCheck]
        split_ifs
        · exact logAbs_congr rfl rfl rfl rfl
        · exact logAbs_congr rfl rfl rfl rfl
    | logWrite _ t w b data hp => exact h.write_simulated hp
    | endOp _ t w hp => exact h.finish_simulated hp
    | work _ ht => exact h.work_simulated ht
    | endCommit _ t hp ht =>
        refine logAbs_wakeup.trans (logAbs_congr rfl rfl rfl ?_)
        rw [ht]
        rfl
    | crash => exact DurableStep.crash _

/-- The log that `mkfs` makes, for two processes and operations of at most nine blocks. -/
theorem log_refines_mkfs :
    (logMachine 2 30 9).Refines (durableMachine (Fin 2)) (@logAbs (Fin 2) 2 30) :=
  log_refines (by decide) (by decide)

omit [Fintype ι] [DecidableEq ι] in
/-- With nothing listed on the disk or in memory the cache is what a crash would leave. -/
theorem DiskInv.settled (h : DiskInv start size s) (hlh : s.lh = [])
    (hrec : s.task.recovering = false) (hinst : Installed start s) :
    (logAbs start size s).cur = (logAbs start size s).dur := by
  rw [logAbs_cur hrec, h.cache_eq hlh]
  exact homePart_congr fun b _ => (congrFun (replay_installed h.header.nodup hinst) b).symm

omit [Fintype ι] [DecidableEq ι] in
theorem installed_of_empty (h : readHeader (s.disk start) = []) : Installed start s := by
  rw [Installed, h]
  exact fun j hj => by cases hj

/-- When no operation is under way and no header waits to be written, the blocks that the
operations see are those that survive a crash: what the last `end_op` has committed is durable. -/
theorem log_durable (hk : k ≤ maxOpBlocks) (hsize : logPeak k < size)
    (h : (logSystem start size k).Reachable s) (hout : s.outstanding = 0)
    (hlog : ∀ tail, s.task ≠ .writeLog tail) (hhead : s.task ≠ .writeHead) :
    (logAbs start size s).cur = (logAbs start size s).dur := by
  have hi := logInv_of_reachable hk hsize h
  have hd := hi.disk
  have hp := hd.progress
  rcases e : s.task with - | tail | - | tail | - | - | - | tail | -
  · have hlh : s.lh = [] := by
      refine hi.procs.empty (by rw [e]; rfl) ?_ hout
      rw [hi.procs.task, e]
      rfl
    rw [Progress, e] at hp
    exact hd.settled hlh (by rw [e]; rfl) (installed_of_empty hp)
  · exact absurd e (hlog tail)
  · exact absurd e hhead
  · -- the header is written, and the copies are those of the cache
    rw [Progress, e] at hp
    obtain ⟨hread, hcopied, -⟩ := hp
    rw [logAbs_cur (by rw [e]; rfl)]
    refine homePart_congr fun b hb => Eq.symm ?_
    rw [recovered, hread]
    refine replay_copies hd.listed.nodup (fun j hj => hcopied j hj hj) fun hb' => ?_
    exact (hd.rest b hb hb').symm
  · rw [Progress, e] at hp
    exact hd.settled hp.1 (by rw [e]; rfl) hp.2
  · rw [Progress, e] at hp
    exact hd.settled (hi.procs.cleared (by rw [e]; simp)) (by rw [e]; rfl) (installed_of_empty hp)
  all_goals exact logAbs_cur_recovering (by rw [e]; rfl)

omit [Fintype ι] in
/-- A process writes `data` to a block in the first operation and ends it. -/
theorem exists_ended (t : ι) {b : Nat} (data : Block) (hk : 0 < k) (hsize : 1 < size)
    (hb : ¬ Region start size b) (hfs : b < fsSize) :
    ∃ s : LogState ι, (logSystem start size k).Reachable s ∧ s.panicked = false ∧
      s.outstanding = 0 ∧ s.task = .writeLog 0 ∧ s.lh = [b] ∧ s.cache b = data ∧
      s.disk b = fun _ => 0 := by
  obtain ⟨s, hr, hpanic, hcom, hout, hlh, htask, hidle, hdisk⟩ := @exists_started ι _ start size k
  have h₁ := hr.next ⟨_, .call s t (hidle t) (by rw [htask]; rfl) hpanic⟩
  set s₁ : LogState ι := { s with proc := Function.update s.proc t .begin } with hs₁
  have hgo : ¬ s₁.mustWait := by
    rw [LogState.mustWait, hs₁]
    dsimp only
    rw [hcom, hlh, hout]
    decide
  have h₂ := h₁.next ⟨_, .beginOp s₁ t (Function.update_self ..) hpanic⟩
  rw [LogState.beginOp, if_neg hgo] at h₂
  have h₃ := h₂.next ⟨_, .logCheck _ t [] b data (Function.update_self ..) hk hb hfs hpanic⟩
  rw [LogState.logCheck, if_neg (by
    show ¬ (logSize ≤ s.lh.length ∨ size - 1 ≤ s.lh.length ∨ s.outstanding + 1 < 1)
    rw [hlh, hout]
    rintro (h | h | h)
    · exact absurd h (by decide)
    · exact absurd (Nat.le_zero.mp h) (by omega)
    · omega)] at h₃
  have h₄ := h₃.next ⟨_, .logWrite _ t [] b data (Function.update_self ..) hpanic⟩
  have h₅ := h₄.next ⟨_, .endOp _ t [b] (Function.update_self ..) hpanic⟩
  rw [LogState.endOp, if_neg (by show ¬ s.committing = true; rw [hcom]; decide), if_pos (by
    show s.outstanding + 1 - 1 = 0
    rw [hout])] at h₅
  have hne : b ≠ start := by
    rintro rfl
    exact hb ⟨le_rfl, by omega⟩
  refine ⟨_, h₅, hpanic, ?_, ?_, ?_, Function.update_self .., hdisk b hne⟩
  · show s.outstanding + 1 - 1 = 0
    rw [hout]
  · show (if absorb s.lh b = [] then Task.done else .writeLog 0) = .writeLog 0
    rw [hlh]
    rfl
  · show absorb s.lh b = [b]
    rw [hlh]
    rfl

omit [Fintype ι] in
/-- Its commit goes on until the copy and the header are written, and nothing to the block
itself. -/
theorem exists_committed (t : ι) {b : Nat} (data : Block) (hk : 0 < k) (hsize : 1 < size)
    (hb : ¬ Region start size b) (hfs : b < fsSize) :
    ∃ s : LogState ι, (logSystem start size k).Reachable s ∧ s.outstanding = 0 ∧
      s.task = .install 0 ∧ s.cache b = data ∧ s.disk b = fun _ => 0 := by
  obtain ⟨s, hr, hpanic, hout, htask, hlh, hcache, hdisk⟩ := exists_ended (k := k) t data hk hsize hb hfs
  have h₁ := hr.next ⟨_, .work s (by rw [htask]; decide) hpanic⟩
  rw [show s.work start = { s.bwrite (start + 0 + 1) (s.cache b) with task := .writeLog 1 } by
    rw [LogState.work, htask, hlh]
    rfl] at h₁
  have h₂ := h₁.next ⟨_, .work _ ⟨by simp, by simp⟩ hpanic⟩
  rw [LogState.work] at h₂
  dsimp only at h₂
  have hlast : ¬ 1 < (s.bwrite (start + 0 + 1) (s.cache b)).lh.length := by
    show ¬ 1 < s.lh.length
    rw [hlh]
    exact Nat.lt_irrefl 1
  rw [if_neg hlast] at h₂
  have h₃ := h₂.next ⟨_, .work _ ⟨by simp, by simp⟩ hpanic⟩
  have hne : b ≠ start ∧ b ≠ start + 0 + 1 := by
    constructor
    · rintro rfl
      exact hb ⟨le_rfl, by omega⟩
    · rintro rfl
      exact hb ⟨by omega, by omega⟩
  refine ⟨_, h₃, hout, rfl, ?_, ?_⟩
  · exact (Function.update_of_ne hne.1 ..).trans ((Function.update_of_ne hne.2 ..).trans hcache)
  · exact (Function.update_of_ne hne.1 ..).trans ((Function.update_of_ne hne.2 ..).trans hdisk)

/-- What the operation has written survives a crash before it is installed. -/
theorem log_durable_committed : ∃ s : LogState (Fin 2), (logSystem 2 30 9).Reachable s ∧
    s.disk 40 = (fun _ => 0) ∧ (logAbs 2 30 s).cur = (logAbs 2 30 s).dur ∧
    (logAbs 2 30 s).dur 40 = fun _ => 1 := by
  obtain ⟨s, hr, hout, htask, hcache, hdisk⟩ := @exists_committed (Fin 2) 2 30 9 _ 0 40 (fun _ => 1)
    (by decide) (by decide) (by decide) (by decide)
  have h := log_durable (by decide) (by decide) hr hout (fun tail e => by rw [htask] at e; cases e)
    fun e => by rw [htask] at e; cases e
  refine ⟨s, hr, hdisk, h, ?_⟩
  rw [← h, logAbs_cur (by rw [htask]; rfl), homePart, if_neg (by decide), hcache]

end runs

end SystemsPortfolio.Xv6
