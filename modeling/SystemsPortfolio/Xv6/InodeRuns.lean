/-
SystemsPortfolio/Xv6/InodeRuns.lean

Truncation, and every run of the operations on files.

`writei` puts bytes over a part of a file or behind its end, one block at a time, `itrunc` empties
it, and nothing else changes it: neither what happens to other files nor how the free blocks
are handed around between them.  `fs_refines` says so for every run over a consistent volume,
step by step, and `fs_write_whole` for a whole call of `writei`; `fs_reads` says that a read gets
the bytes of the file, `fs_blocks_owned` that each block in use has exactly one owner, and
`fs_write_through` that the inodes on the disk are those in memory whenever no operation is
under way, so that a cached inode can be dropped.
-/
import SystemsPortfolio.Xv6.InodeFiles

namespace SystemsPortfolio.Xv6

open ByteStore Transition Ownership

variable {s s' : FsState} {nmeta sz i i' k b off left x : Nat} {src got : List UInt8}

/-! ### Truncation -/

theorem content_nil (h : s.extent i = 0) : s.content i = [] := by
  rw [FsState.content, h]
  rfl

/-- A step of `itrunc`: the file is empty and stays so, and no other inode sees anything. -/
theorem FsInv.freed (h : FsInv nmeta sz s) (hb : FsBlocks nmeta sz s') (hdata : s'.data = s.data)
    (hinode : ∀ i', i' ≠ i → s'.inode i' = s.inode i')
    (hdinode : ∀ i', i' ≠ i → s'.dinode i' = s.dinode i') (hop : ∀ i', i' ≠ i → s'.op i' = s.op i')
    (hext' : s'.extent i = 0)
    (hthrough : (∀ k, s'.op i ≠ .freeing k) → s'.dinode i = s'.inode i)
    (hok : s'.OpOk i (s'.op i)) (hp : s'.panicked = s.panicked) :
    FsInv nmeta sz s' ∧ s'.content = Function.update s.content i [] := by
  have hun (i' : Nat) (hi : i' ≠ i) : Untouched s s' i' := by
    have hslot (k : Nat) : s'.slot i' k = s.slot i' k :=
      slot_congr (fun _ => by rw [hinode i' hi]) (fun _ => by rw [hinode i' hi]) fun _ _ => by rw [hdata]
    exact ⟨hinode i' hi, hdinode i' hi, hop i' hi, fun _ _ => hslot _, fun _ _ => by rw [hdata]⟩
  refine ⟨h.at hb hun (fun bn hbn => ?_) ?_ (fun hno _ => hthrough hno) hok (fun e he => ?_), ?_⟩
  · rw [hext'] at hbn
    exact absurd hbn (Nat.not_lt_zero _)
  · rw [hext']
    exact Nat.zero_le _
  · exact h.panics e (hp ▸ he)
  · funext i'
    rcases eq_or_ne i' i with rfl | hi
    · rw [Function.update_self]
      exact content_nil hext'
    · rw [Function.update_of_ne hi]
      exact (hun i' hi).content

theorem extent_freeing (h : s.op i = .freeing k) : s.extent i = 0 := by
  rw [FsState.extent, h, FsOp.extent]

/-- `itrunc` begins. -/
theorem FsInv.itrunc (h : FsInv nmeta sz s) (ht : s.op i = .idle) :
    FsInv nmeta sz (s.setOp i (.freeing 0)) ∧
      (s.setOp i (.freeing 0)).content = Function.update s.content i [] := by
  have hop : (s.setOp i (.freeing 0)).op i = .freeing 0 := Function.update_self ..
  have hblocks : FsBlocks nmeta sz (s.setOp i (.freeing 0)) := by
    refine h.blocks.congr rfl ?_
    funext ⟨i', k⟩
    rcases eq_or_ne i' i with rfl | hi
    · have hrel : (FsOp.freeing 0).Released k ↔ FsOp.idle.Released k :=
        ⟨fun hr => Nat.not_lt_zero _ hr.2, fun hr => hr.elim⟩
      rw [FsState.own, FsState.own]
      dsimp only
      rw [hop, ht]
      simp only [hrel]
      rfl
    · exact own_congr rfl (Function.update_of_ne hi ..)
  exact h.freed hblocks rfl (fun _ _ => rfl) (fun _ _ => rfl)
    (fun i' hi => Function.update_of_ne hi ..) (extent_freeing hop) (fun hno => absurd hop (hno 0))
    (by rw [hop]; exact ⟨Nat.zero_le _, fun hlt => absurd hlt (Nat.not_lt_zero _)⟩) rfl

theorem bfree_of_used (h : s.used b = true) :
    s.bfree b = { s with used := Function.update s.used b false } := if_pos h

/-- The slots that a step of `itrunc` does not free stay what they are. -/
theorem own_after {o : FsOp} (hslot : s'.slot i k = s.slot i k) (hop : s'.op i = o)
    (hrel : o.Released k ↔ (s.op i).Released k) : s'.own (i, k) = s.own (i, k) := by
  rw [FsState.own, FsState.own]
  dsimp only
  rw [hslot, hop]
  simp only [hrel]

theorem own_eq_none (h : s.slot i k = 0 ∨ (s.op i).Released k) : s.own (i, k) = none := by
  rw [FsState.own, if_neg]
  rintro ⟨-, hne, hrel⟩
  rcases h with h | h
  · exact hne h
  · exact hrel h

theorem released_succ {k k' : Nat} (hne : k' ≠ k) :
    (FsOp.freeing (k + 1)).Released k' ↔ (FsOp.freeing k).Released k' := by
  rw [FsOp.Released, FsOp.Released]
  omega

/-- `itrunc` passes a slot that is empty, or the one of the indirect block. -/
theorem FsInv.passSlot (h : FsInv nmeta sz s) (ht : s.op i = .freeing k) (hk : k ≤ lastSlot)
    (hs : s.slot i k = 0 ∧ k ≠ ndirect ∨ s.slot i k ≠ 0 ∧ k = ndirect) :
    FsInv nmeta sz (s.setOp i (.freeing (k + 1))) ∧
      (s.setOp i (.freeing (k + 1))).content = Function.update s.content i [] := by
  have hop : (s.setOp i (.freeing (k + 1))).op i = .freeing (k + 1) := Function.update_self ..
  have hok := h.ops i
  rw [ht] at hok
  have hind : ndirect < k + 1 → (s.inode i).addrs ndirect ≠ 0 := by
    intro hlt
    rcases hs with ⟨-, hne⟩ | ⟨hnz, rfl⟩
    · exact hok.2 (by omega)
    · rw [slot_of_le (Nat.le_refl _)] at hnz
      exact hnz
  refine h.freed (h.blocks.congr rfl ?_) rfl (fun _ _ => rfl) (fun _ _ => rfl)
    (fun i' hi => Function.update_of_ne hi ..) (extent_freeing hop) (fun hno => absurd hop (hno _))
    (by rw [hop]; exact ⟨by omega, hind⟩) rfl
  funext ⟨i', k'⟩
  rcases eq_or_ne i' i with rfl | hi
  · rcases eq_or_ne k' k with rfl | hkk
    · rcases hs with ⟨hz, -⟩ | ⟨-, rfl⟩
      · rw [own_eq_none (Or.inl hz)]
        exact own_eq_none (Or.inl hz)
      · refine own_after rfl hop ?_
        rw [ht, FsOp.Released, FsOp.Released]
        omega
    · exact own_after rfl hop (ht ▸ released_succ hkk)
  · exact own_congr rfl (Function.update_of_ne hi ..)

/-- A direct block is freed. -/
theorem FsInv.freeDirect (h : FsInv nmeta sz s) (ht : s.op i = .freeing k) (hk : k < ndirect)
    (hs : s.slot i k ≠ 0) :
    FsInv nmeta sz (((s.bfree (s.slot i k)).setSlot i k 0).setOp i (.freeing (k + 1))) ∧
      (((s.bfree (s.slot i k)).setSlot i k 0).setOp i (.freeing (k + 1))).content =
        Function.update s.content i [] := by
  have ho : s.own (i, k) = some (s.slot i k) :=
    own_eq_some.mpr ⟨by rw [lastSlot]; omega, rfl, hs, not_released_of_le (by omega) _⟩
  rw [bfree_of_used (h.blocks.used ho)]
  set s₁ : FsState := { s with used := Function.update s.used (s.slot i k) false } with hs₁
  have hset : SlotSet s₁ i k 0 (s₁.setSlot i k 0) :=
    setSlot_field (Nat.le_of_lt hk) fun e => absurd e (Nat.ne_of_lt hk)
  have hop : ((s₁.setSlot i k 0).setOp i (.freeing (k + 1))).op i = .freeing (k + 1) :=
    Function.update_self ..
  have hother {i' : Nat} (hi : i' ≠ i) : ((s₁.setSlot i k 0).setOp i (.freeing (k + 1))).op i' = s.op i' :=
    (Function.update_of_ne hi ..).trans (congrFun hset.op i')
  have hdata : (s₁.setSlot i k 0).data = s.data := by
    rw [FsState.setSlot, if_pos (Nat.le_of_lt hk)]
    rfl
  refine h.freed (h.blocks.release ho hset.used ?_ fun i' k' hno => ?_) hdata hset.inode
    (fun i' _ => congrFun hset.dinode i') (fun i' hi => hother hi) (extent_freeing hop)
    (fun hno => absurd hop (hno _)) (by rw [hop]; exact ⟨by rw [lastSlot]; omega, fun hlt => by omega⟩)
    hset.panicked
  · exact own_eq_none (Or.inl hset.slot)
  · by_cases hk' : k' ≤ lastSlot
    · have hslot := hset.others i' k' hk' hno
      rcases eq_or_ne i' i with rfl | hi
      · exact own_after hslot hop (ht ▸ released_succ fun e => hno ⟨rfl, e⟩)
      · exact own_congr hslot (hother hi)
    · rw [FsState.own, FsState.own, if_neg (fun e => hk' e.1), if_neg (fun e => hk' e.1)]

/-- An entry of the indirect block is freed. -/
theorem FsInv.freeEntry (h : FsInv nmeta sz s) (ht : s.op i = .freeing k) (hk : ndirect < k)
    (hk' : k ≤ lastSlot) (hs : s.slot i k ≠ 0) :
    FsInv nmeta sz ((s.bfree (s.slot i k)).setOp i (.freeing (k + 1))) ∧
      ((s.bfree (s.slot i k)).setOp i (.freeing (k + 1))).content = Function.update s.content i [] := by
  have hok := h.ops i
  rw [ht] at hok
  have ho : s.own (i, k) = some (s.slot i k) := by
    refine own_eq_some.mpr ⟨hk', rfl, hs, ?_⟩
    rw [ht]
    exact fun hr => Nat.lt_irrefl _ hr.2
  rw [bfree_of_used (h.blocks.used ho)]
  set s' := FsState.setOp { s with used := Function.update s.used (s.slot i k) false } i
    (.freeing (k + 1)) with hs'
  have hop : s'.op i = .freeing (k + 1) := Function.update_self ..
  refine h.freed (h.blocks.release ho rfl ?_ fun i' k'' hno => ?_) rfl (fun _ _ => rfl)
    (fun _ _ => rfl) (fun i' hi => Function.update_of_ne hi ..) (extent_freeing hop)
    (fun hno => absurd hop (hno _)) (by rw [hop]; exact ⟨by omega, fun _ => hok.2 hk⟩) rfl
  · refine own_eq_none (Or.inr ?_)
    rw [hop]
    exact ⟨hk, Nat.lt_succ_self k⟩
  · rcases eq_or_ne i' i with rfl | hi
    · exact own_after rfl hop (ht ▸ released_succ fun e => hno ⟨rfl, e⟩)
    · exact own_congr rfl (Function.update_of_ne hi ..)

/-- The end of `itrunc`, where no entry is left to free. -/
theorem FsInv.truncEnd {s₁ : FsState} (h : FsInv nmeta sz s) (hb : FsBlocks nmeta sz s₁)
    (ht : s₁.op = s.op) (hk : ∀ k', k' ≤ lastSlot → (s.op i).Released k' → s₁.slot i k' = 0)
    (hdata : s₁.data = s.data) (hinode : ∀ i', i' ≠ i → s₁.inode i' = s.inode i')
    (hdinode : s₁.dinode = s.dinode) (hp : s₁.panicked = s.panicked) :
    FsInv nmeta sz (s₁.truncEnd i) ∧ (s₁.truncEnd i).content = Function.update s.content i [] := by
  have hop : (s₁.truncEnd i).op i = .idle := Function.update_self ..
  have hself : (s₁.truncEnd i).inode i = { s₁.inode i with size := 0 } := Function.update_self ..
  have hslot (i' k' : Nat) : (s₁.truncEnd i).slot i' k' = s₁.slot i' k' :=
    slot_setSize s₁ i 0 i' k' .idle
  refine h.freed (hb.congr rfl ?_) hdata (fun i' hi => ?_) (fun i' hi => ?_) (fun i' hi => ?_) ?_
    (fun _ => ?_) ?_ hp
  · funext ⟨i', k'⟩
    rcases eq_or_ne i' i with rfl | hi
    · by_cases hrel : (s.op i').Released k'
      · by_cases hk' : k' ≤ lastSlot
        · have hz := hk k' hk' hrel
          rw [own_eq_none (Or.inl hz), own_eq_none (Or.inl ((hslot i' k').trans hz))]
        · rw [FsState.own, FsState.own, if_neg (fun e => hk' e.1), if_neg (fun e => hk' e.1)]
      · refine own_after (hslot i' k') hop ?_
        rw [ht]
        exact ⟨fun hr => hr.elim, fun hr => absurd hr hrel⟩
    · exact own_congr (hslot i' k') (Function.update_of_ne hi ..)
  · exact (Function.update_of_ne hi ..).trans (hinode i' hi)
  · exact (Function.update_of_ne hi ..).trans (congrFun hdinode i')
  · exact (Function.update_of_ne hi ..).trans (congrFun ht i')
  · rw [FsState.extent, hop, hself, FsOp.extent]
  · show Function.update s₁.dinode i _ i = (s₁.truncEnd i).inode i
    rw [Function.update_self]
    rfl
  · rw [hop]
    exact trivial

/-- The indirect block is freed, after its entries. -/
theorem FsInv.freeIndirect (h : FsInv nmeta sz s) (ht : s.op i = .freeing (lastSlot + 1)) :
    FsInv nmeta sz (((s.bfree (s.slot i ndirect)).setSlot i ndirect 0).truncEnd i) ∧
      (((s.bfree (s.slot i ndirect)).setSlot i ndirect 0).truncEnd i).content =
        Function.update s.content i [] := by
  have hok := h.ops i
  rw [ht] at hok
  have hne : (s.inode i).addrs ndirect ≠ 0 := hok.2 (by decide)
  have ho := own_indirect hne
  rw [slot_of_le (Nat.le_refl _), bfree_of_used (h.blocks.used ho)]
  set s₁ := FsState.setSlot { s with used := Function.update s.used ((s.inode i).addrs ndirect) false } i
    ndirect 0 with hs₁
  have he : s₁ = FsState.setInode { s with used := Function.update s.used ((s.inode i).addrs ndirect) false }
      i { s.inode i with addrs := Function.update (s.inode i).addrs ndirect 0 } := by
    rw [hs₁, FsState.setSlot, if_pos (Nat.le_refl _)]
  have hself : s₁.inode i = { s.inode i with addrs := Function.update (s.inode i).addrs ndirect 0 } := by
    rw [he]
    exact Function.update_self ..
  have hother {i' : Nat} (hi : i' ≠ i) : s₁.inode i' = s.inode i' := by
    rw [he]
    exact Function.update_of_ne hi ..
  have hzero : (s₁.inode i).addrs ndirect = 0 := by
    rw [hself]
    show Function.update (s.inode i).addrs ndirect 0 ndirect = 0
    rw [Function.update_self]
  have hdata : s₁.data = s.data := by rw [he]; rfl
  have hop : s₁.op = s.op := by rw [he]; rfl
  refine h.truncEnd (h.blocks.release ho (by rw [he]; rfl) ?_ fun i' k' hno => ?_) hop
    (fun k' _ hr => ?_) hdata (fun i' hi => hother hi) (by rw [he]; rfl) (by rw [he]; rfl)
  · refine own_eq_none (Or.inl ?_)
    rw [slot_of_le (Nat.le_refl _)]
    exact hzero
  · rcases eq_or_ne i' i with rfl | hi
    · rcases Nat.lt_or_ge ndirect k' with hlt | hle
      · -- the entries were all freed
        rw [own_eq_none (Or.inl (slot_of_gt_zero hlt hzero))]
        by_cases hk' : k' ≤ lastSlot
        · refine (own_eq_none (Or.inr ?_)).symm
          rw [ht]
          exact ⟨hlt, Nat.lt_succ_iff.mpr hk'⟩
        · rw [FsState.own, if_neg (fun e => hk' e.1)]
      · refine own_congr ?_ (congrFun hop i')
        rw [slot_of_le hle, slot_of_le hle, hself]
        show Function.update (s.inode i').addrs ndirect 0 k' = _
        rw [Function.update_of_ne fun e => hno ⟨rfl, e⟩]
    · refine own_congr (slot_congr (fun _ => ?_) (fun _ => ?_) fun _ _ => ?_) (congrFun hop i')
      · rw [hother hi]
      · rw [hother hi]
      · rw [hdata]
  · rw [ht] at hr
    exact slot_of_gt_zero hr.1 hzero

theorem FsInv.freeSlot (h : FsInv nmeta sz s) (ht : s.op i = .freeing k) :
    FsInv nmeta sz (s.freeSlot i k) ∧ (s.freeSlot i k).content = Function.update s.content i [] := by
  have hok := h.ops i
  rw [ht] at hok
  have hk := hok.1
  rw [FsState.freeSlot]
  split_ifs with h₁ h₂ h₃ h₄ h₅ h₆
  · exact h.passSlot ht (by rw [lastSlot]; omega) (Or.inl ⟨h₂, by omega⟩)
  · exact h.freeDirect ht h₁ h₂
  · refine h.truncEnd h.blocks rfl (fun k' _ hr => ?_) rfl (fun _ _ => rfl) rfl rfl
    rw [ht, FsOp.Released] at hr
    omega
  · exact h.passSlot ht (by rw [h₃]; decide) (Or.inr ⟨h₄, h₃⟩)
  · exact h.passSlot ht h₅ (Or.inl ⟨h₆, h₃⟩)
  · exact h.freeEntry ht (by omega) h₅ h₆
  · obtain rfl : k = lastSlot + 1 := by
      rw [lastSlot] at hk ⊢
      omega
    exact h.freeIndirect ht

/-! ### Every run -/

/-- A volume whose block maps and free map agree, with no operation under way. -/
structure FsState.Consistent (nmeta sz : Nat) (s : FsState) : Prop where
  blocks : FsBlocks nmeta sz s
  idle : ∀ i, s.op i = .idle
  mapped : ∀ i bn, bn * bsize < (s.inode i).size → s.slot i (fileSlot bn) ≠ 0
  size_le : ∀ i, (s.inode i).size ≤ maxfile * bsize
  through : s.dinode = s.inode
  panicked : s.panicked = none

/-- Operations on the files of a consistent volume of `sz` blocks, the first `nmeta` of which are
reserved. -/
def fsMachine (nmeta sz : Nat) : Labelled FsState (Option FileAct) where
  init := FsState.Consistent nmeta sz
  step := FsStep sz

/-- The same without the labels. -/
def fsSystem (nmeta sz : Nat) : System FsState := (fsMachine nmeta sz).system

theorem FsState.Consistent.inv (h : s.Consistent nmeta sz) : FsInv nmeta sz s := by
  have hext (i : Nat) : s.extent i = (s.inode i).size := by rw [FsState.extent, h.idle, FsOp.extent]
  refine ⟨h.blocks, fun i bn hbn => h.mapped i bn (hext i ▸ hbn), fun i => ?_, fun i _ _ => ?_,
    fun i => ?_, fun e he => ?_⟩
  · rw [hext]
    exact h.size_le i
  · rw [h.through]
  · rw [h.idle]
    exact trivial
  · rw [h.panicked] at he
    cases he

/-- The bytes of a file when an operation begins. -/
theorem extent_same {o : FsOp} (ht : s.op i = .idle)
    (ho : o.extent (s.inode i).size = (s.inode i).size) : (s.setOp i o).extent i = s.extent i := by
  rw [FsState.extent, FsState.extent, ht, show (s.setOp i o).op i = o from Function.update_self ..]
  exact ho

/-- One step keeps the invariant and does to the files what its label says. -/
theorem FsInv.next {act : Option FileAct} (h : FsInv nmeta sz s) (hs : FsStep sz act s s') :
    FsInv nmeta sz s' ∧ fileStore.Sees act s.content s'.content := by
  cases hs with
  | readi _ i off n ht hk hoff hn hsum =>
      exact h.setOp (i := i) (o := .reading off (min n ((s.inode i).size - off)) [])
        (fun k e => by rw [ht] at e; cases e) (fun k e => by cases e) (extent_same ht rfl)
        ⟨by show off + 0 + _ ≤ (s.inode i).size; omega, rfl⟩
  | readBlock _ i off left got ht hleft hk => exact h.readBlock ht hleft
  | readEnd _ i off got ht hk =>
      exact h.setOp (i := i) (o := .idle) (fun k e => by rw [ht] at e; cases e)
        (fun k e => by cases e) (by
          rw [FsState.extent, FsState.extent, ht, show (s.setOp i .idle).op i = .idle from
            Function.update_self ..]
          rfl) trivial
  | writei _ i off src ht hk hoff hn hsum hmax =>
      exact h.setOp (i := i) (o := .writing off src) (fun k e => by rw [ht] at e; cases e)
        (fun k e => by cases e) (extent_same ht (Nat.max_eq_left hoff)) (by
          show off + src.length ≤ maxfile * bsize
          rw [Nat.mod_eq_of_lt] at hmax
          · exact hmax
          · have hle := h.extent_le i
            rw [FsState.extent, ht] at hle
            have hmb : maxfile * bsize < 4294967296 := by decide
            have hoff' : off ≤ maxfile * bsize := Nat.le_trans hoff hle
            omega)
  | writeBlock _ i off src ht hsrc hk => exact h.writeBlock ht hsrc
  | writeEnd _ i off ht hk => exact h.writeEnd ht
  | itrunc _ i ht hk =>
      obtain ⟨hi, hc⟩ := h.itrunc ht
      refine ⟨hi, ?_⟩
      rw [hc]
      exact FileStoreStep.truncate s.content i
  | freeSlot _ i k ht hk =>
      obtain ⟨hi, hc⟩ := h.freeSlot ht
      refine ⟨hi, ?_⟩
      rw [hc, ← content_nil (extent_freeing ht), Function.update_eq_self]
      rfl

theorem fsInv_of_reachable (h : (fsSystem nmeta sz).Reachable s) : FsInv nmeta sz s := by
  refine h.invariant ?_ ?_
  · intro s hs
    exact FsState.Consistent.inv hs
  · rintro s s' - hi ⟨_, hs⟩
    exact (FsInv.next hi hs).1

/-- A turn of the loop of `writei` that does not panic: the bytes that fit into the block are
written, and the rest is left. -/
theorem writeBlock_op {p : Nat × FsState} (src : List UInt8) (hb : s.bmap sz i (off / bsize) = .ok p) :
    ∃ bytes rest, src = bytes ++ rest ∧ s.written sz i off src = some (.write i off bytes) ∧
      (s.writeBlock sz i off src).op i = .writing (off + bytes.length) rest := by
  refine ⟨src.take (min src.length (bsize - off % bsize)),
    src.drop (min src.length (bsize - off % bsize)), (List.take_append_drop ..).symm, ?_, ?_⟩
  · rw [FsState.written, hb]
  · rw [FsState.writeBlock, hb, List.length_take, Nat.min_eq_left (Nat.min_le_left ..)]
    exact Function.update_self ..

/-- What is written to a file is what the `writei` under way on it has to write next. -/
theorem write_next {bytes : List UInt8} (hs : FsStep sz (some (.write i off bytes)) s s') :
    ∃ rest, s.op i = .writing off (bytes ++ rest) ∧
      s'.op i = .writing (off + bytes.length) rest := by
  generalize hact : some (FileAct.write i off bytes) = act at hs
  cases hs with
  | writeBlock _ j off' src ht hsrc hk =>
      rcases hb : s.bmap sz j (off' / bsize) with e | p
      · rw [FsState.written, hb] at hact
        cases hact
      · obtain ⟨bytes', rest, rfl, hw, hop⟩ := writeBlock_op src hb
        rw [hw] at hact
        cases hact
        exact ⟨rest, ht, hop⟩
  | readi _ j off' n ht hk hoff hn hsum => cases hact
  | readBlock _ j off' left got ht hleft hk => cases hact
  | readEnd _ j off' got ht hk => cases hact
  | writei _ j off' src ht hk hoff hn hsum hmax => cases hact
  | writeEnd _ j off' ht hk => cases hact
  | itrunc _ j ht hk => cases hact
  | freeSlot _ j k ht hk => cases hact

/-- **Files are lists of bytes.**  Whatever operations run, in any order and with any turns between
them, a file changes only where its own `writei` writes, to the bytes that this call has to write
there next, and when its own `itrunc` empties it. -/
theorem fs_refines (nmeta sz : Nat) :
    (fsMachine nmeta sz).Refines fileStore FsState.content ∧
    ∀ s s' i off bytes, FsStep sz (some (.write i off bytes)) s s' →
      ∃ rest, s.op i = .writing off (bytes ++ rest) ∧
        s'.op i = .writing (off + bytes.length) rest :=
  ⟨⟨fun _ _ => trivial, fun _ _ _ h hs => ((fsInv_of_reachable h).next hs).2⟩,
    fun _ _ _ _ _ hs => write_next hs⟩

/-! ### A whole write -/

theorem slotAlloc_op (h : s.slotAlloc sz i k = .ok (b, s')) : s'.op = s.op := by
  rw [FsState.slotAlloc, FsState.balloc] at h
  split_ifs at h
  · rcases hf : (List.range sz).find? fun b => !s.used b with - | c
    · rw [hf] at h
      cases h
    · rw [hf] at h
      cases h
      rw [FsState.setSlot]
      split_ifs <;> rfl
  · cases h
    rfl

theorem bmap_op {bn : Nat} (h : s.bmap sz i bn = .ok (b, s')) : s'.op = s.op := by
  rw [FsState.bmap] at h
  split_ifs at h
  · exact slotAlloc_op h
  · rcases ha : s.slotAlloc sz i ndirect with e | ⟨c, s₁⟩
    · rw [ha] at h
      cases h
    · rw [ha] at h
      exact (slotAlloc_op h).trans (slotAlloc_op ha)

/-- The operations of the other inodes go on as they are. -/
theorem readBlock_op_of_ne (hi : i' ≠ i) : (s.readBlock sz i off left got).op i' = s.op i' := by
  rw [FsState.readBlock]
  rcases hb : s.bmap sz i ((off + got.length) / bsize) with e | ⟨b, s₁⟩
  · rfl
  · exact (Function.update_of_ne hi ..).trans (congrFun (bmap_op hb) i')

theorem writeBlock_op_of_ne (hi : i' ≠ i) : (s.writeBlock sz i off src).op i' = s.op i' := by
  rw [FsState.writeBlock]
  rcases hb : s.bmap sz i (off / bsize) with e | ⟨b, s₁⟩
  · rfl
  · exact (Function.update_of_ne hi ..).trans (congrFun (bmap_op hb) i')

theorem writeEnd_op_of_ne (hi : i' ≠ i) : (s.writeEnd i off).op i' = s.op i' := by
  rw [FsState.writeEnd]
  split_ifs
  · exact Function.update_of_ne hi ..
  · exact Function.update_of_ne hi ..

theorem freeSlot_op_of_ne (hi : i' ≠ i) : (s.freeSlot i k).op i' = s.op i' := by
  have hfree (b : Nat) : (s.bfree b).op i' = s.op i' := by
    rw [FsState.bfree]
    split_ifs <;> rfl
  have hset (t : FsState) (k b : Nat) : (t.setSlot i k b).op i' = t.op i' := by
    rw [FsState.setSlot]
    split_ifs <;> rfl
  have hop (t : FsState) (o : FsOp) : (t.setOp i o).op i' = t.op i' := Function.update_of_ne hi ..
  have hend (t : FsState) : (t.truncEnd i).op i' = t.op i' := Function.update_of_ne hi ..
  rw [FsState.freeSlot]
  split_ifs
  · exact hop ..
  · rw [hop, hset, hfree]
  · exact hend s
  · exact hop ..
  · exact hop ..
  · rw [hop, hfree]
  · rw [hend, hset, hfree]

theorem FileStoreStep.write_eq {f f' : Nat → List UInt8} {bytes : List UInt8}
    (h : FileStoreStep (.write i off bytes) f f') :
    f' = Function.update f i (patch (f i) off bytes) := by
  cases h
  rfl

/-- What is done to another file. -/
theorem sees_other {act : Option FileAct} {f f' : Nat → List UInt8} (h : fileStore.Sees act f f')
    (hact : ∀ a, act = some a → i ≠ a.inode) : f' i = f i := by
  rcases act with - | a
  · exact congrFun h i
  · have hi := hact a rfl
    rcases h with ⟨_, j, off, bytes, -⟩ | ⟨_, j⟩
    · exact Function.update_of_ne hi ..
    · exact Function.update_of_ne hi ..

/-- While a `writei` is under way a step ends it, or puts the next of its bytes, possibly none,
into the file. -/
theorem FsInv.writing_step {act : Option FileAct} (h : FsInv nmeta sz s)
    (ht : s.op i = .writing off src) (hs : FsStep sz act s s') :
    s'.op i = .idle ∨ ∃ bytes rest, src = bytes ++ rest ∧
      s'.op i = .writing (off + bytes.length) rest ∧
      s'.content i = patch (s.content i) off bytes := by
  have hsees := (h.next hs).2
  -- a step of another inode
  have hother {j : Nat} (hop : i ≠ j → s'.op i = s.op i) (hj : i ≠ j)
      (hact : ∀ a, act = some a → a.inode = j) : s'.op i = .idle ∨ ∃ bytes rest,
      src = bytes ++ rest ∧ s'.op i = .writing (off + bytes.length) rest ∧
      s'.content i = patch (s.content i) off bytes := by
    refine Or.inr ⟨[], src, rfl, (hop hj).trans ht, ?_⟩
    rw [patch_nil]
    exact sees_other hsees fun a ha e => hj (e.trans (hact a ha))
  have hne {j : Nat} {o : FsOp} (hj : s.op j = o) (ho : o ≠ .writing off src) : i ≠ j := by
    rintro rfl
    exact ho (hj.symm.trans ht)
  cases hs with
  | readi _ j off' n hj hk hoff hn hsum =>
      exact hother (fun hi => Function.update_of_ne hi ..) (hne hj (by simp)) (by simp)
  | readBlock _ j off' left got hj hleft hk =>
      exact hother readBlock_op_of_ne (hne hj (by simp)) (by simp)
  | readEnd _ j off' got hj hk =>
      exact hother (fun hi => Function.update_of_ne hi ..) (hne hj (by simp)) (by simp)
  | writei _ j off' src' hj hk hoff hn hsum hmax =>
      exact hother (fun hi => Function.update_of_ne hi ..) (hne hj (by simp)) (by simp)
  | writeBlock _ j off' src' hj hsrc hk =>
      rcases eq_or_ne i j with rfl | hi
      · cases hj.symm.trans ht
        right
        rcases hb : s.bmap sz i (off / bsize) with e | p
        · -- the volume is full
          have he : s.writeBlock sz i off src = s.panic e := by rw [FsState.writeBlock, hb]
          rw [he]
          exact ⟨[], src, rfl, ht, (patch_nil ..).symm⟩
        · obtain ⟨bytes, rest, hsrc', hw, hop⟩ := writeBlock_op src hb
          rw [hw] at hsees
          refine ⟨bytes, rest, hsrc', hop, ?_⟩
          rw [FileStoreStep.write_eq hsees, Function.update_self]
      · refine hother writeBlock_op_of_ne hi fun a ha => ?_
        rw [FsState.written] at ha
        split at ha
        · cases ha
        · cases ha
          rfl
  | writeEnd _ j off' hj hk =>
      rcases eq_or_ne i j with rfl | hi
      · left
        rw [FsState.writeEnd]
        split_ifs
        · exact Function.update_self ..
        · exact Function.update_self ..
      · exact hother writeEnd_op_of_ne hi (by simp)
  | itrunc _ j hj hk =>
      refine hother (fun hi => Function.update_of_ne hi ..) (hne hj (by simp)) ?_
      rintro a ⟨⟩
      rfl
  | freeSlot _ j k hj hk =>
      exact hother freeSlot_op_of_ne (hne hj (by simp)) (by simp)

/-- A volume of eight blocks, two of them reserved, without files. -/
def fsEmpty : FsState where
  used b := decide (b < 2)
  data _ := fun _ => 0
  inode _ := ⟨0, fun _ => 0⟩
  dinode _ := ⟨0, fun _ => 0⟩
  op _ := .idle
  panicked := none

theorem fsEmpty_consistent : fsEmpty.Consistent 2 8 := by
  have hslot (i k : Nat) : fsEmpty.slot i k = 0 := by
    rw [FsState.slot]
    split_ifs <;> rfl
  refine ⟨⟨by decide, by decide, fun b hb => decide_eq_true hb, fun b hb => ?_, ?_⟩, fun _ => rfl,
    fun _ bn hbn => absurd hbn (Nat.not_lt_zero _), fun _ => Nat.zero_le _, rfl, rfl⟩
  · exact Nat.lt_trans (of_decide_eq_true hb) (by decide)
  · have hown (p : Nat × Nat) : fsEmpty.own p = none := own_eq_none (Or.inl (hslot p.1 p.2))
    refine ⟨fun {p q b} hp => ?_, fun b => ⟨fun hb => ?_, ?_⟩⟩
    · rw [hown p] at hp
      cases hp
    · exact absurd (of_decide_eq_true hb.2) (Nat.not_lt.mpr hb.1)
    · rintro ⟨p, hp⟩
      rw [hown p] at hp
      cases hp

theorem fsEmpty_reachable : (fsSystem 2 8).Reachable fsEmpty := .start fsEmpty_consistent

/-- A `writei` to file 1 has begun. -/
def fsBegun : FsState := fsEmpty.setOp 1 (.writing 0 [7])

theorem fsBegun_reachable : (fsSystem 2 8).Reachable fsBegun :=
  fsEmpty_reachable.next ⟨_, .writei _ 1 0 [7] rfl rfl (Nat.le_refl _) (by decide) (by decide)
    (by decide)⟩

/-- Before its turn a byte goes to file 2. -/
def fsTwo : FsState :=
  ((fsBegun.setOp 2 (.writing 0 [9])).writeBlock 8 2 0 [9]).writeBlock 8 1 0 [7]

theorem fsTwo_run : (fsSystem 2 8).While (fun t => t.op 1 ≠ .idle) fsBegun fsTwo := by
  have hbusy {t : FsState} (h : t.op 1 = .writing 0 [7]) : t.op 1 ≠ .idle := by
    rw [h]
    simp
  have h₁ : (fsSystem 2 8).step fsBegun (fsBegun.setOp 2 (.writing 0 [9])) :=
    ⟨_, .writei _ 2 0 [9] rfl rfl (Nat.le_refl _) (by decide) (by decide) (by decide)⟩
  have h₂ : (fsSystem 2 8).step _ ((fsBegun.setOp 2 (.writing 0 [9])).writeBlock 8 2 0 [9]) :=
    ⟨_, .writeBlock _ 2 0 [9] rfl (by decide) rfl⟩
  have h₃ : (fsSystem 2 8).step _ fsTwo := ⟨_, .writeBlock _ 1 0 [7] rfl (by decide) rfl⟩
  exact ((Relation.ReflTransGen.single ⟨hbusy rfl, h₁⟩).tail ⟨hbusy rfl, h₂⟩).tail ⟨hbusy rfl, h₃⟩

theorem fsTwo_reachable : (fsSystem 2 8).Reachable fsTwo := fsBegun_reachable.while fsTwo_run

/-- **A write is made whole.**  Whatever happens to other files between the turns of a `writei`, from
any point of the call until its last byte is written the file becomes what it was with the bytes
that were left at the offset where they were to go. -/
theorem fs_write_whole {n : Nat} (h : (fsSystem nmeta sz).Reachable s)
    (ht : s.op i = .writing off src)
    (hrun : (fsSystem nmeta sz).While (fun t => t.op i ≠ .idle) s s')
    (hend : s'.op i = .writing n []) :
    n = off + src.length ∧ s'.content i = patch (s.content i) off src := by
  have hoff : off ≤ (s.content i).length := by
    rw [length_content, FsState.extent, ht]
    exact Nat.le_max_right ..
  -- what has been written so far, unless the call has ended
  have hinv : s'.op i = .idle ∨ ∃ done rest, src = done ++ rest ∧
      s'.op i = .writing (off + done.length) rest ∧
      s'.content i = patch (s.content i) off done := by
    refine hrun.invariant (Q := fun t => t.op i = .idle ∨ ∃ done rest, src = done ++ rest ∧
      t.op i = .writing (off + done.length) rest ∧ t.content i = patch (s.content i) off done)
      ?_ h (Or.inr ⟨[], src, rfl, ht, (patch_nil ..).symm⟩)
    rintro t t' hr hbusy (hidle | ⟨done, rest, hsrc, hop, hcont⟩) ⟨act, hstep⟩
    · exact absurd hidle hbusy
    · rcases (fsInv_of_reachable hr).writing_step hop hstep with hidle | ⟨bytes, rest', hrest, hop', hc⟩
      · exact Or.inl hidle
      · refine Or.inr ⟨done ++ bytes, rest', ?_, ?_, ?_⟩
        · rw [hsrc, hrest, List.append_assoc]
        · rw [hop', List.length_append, Nat.add_assoc]
        · rw [hc, hcont, patch_patch done bytes hoff]
  rw [hend] at hinv
  rcases hinv with hidle | ⟨done, rest, hsrc, hop, hcont⟩
  · cases hidle
  · cases hop
    rw [List.append_nil] at hsrc
    rw [hsrc]
    exact ⟨rfl, hcont⟩

/-- File 1 gets its byte although file 2 was written to meanwhile. -/
theorem fs_write_whole_turns : fsBegun.content 1 = [] ∧ fsTwo.op 2 = .writing 1 [] ∧
    fsTwo.content 1 = [7] := by
  have h := fs_write_whole (i := 1) fsBegun_reachable rfl fsTwo_run (n := 1) rfl
  exact ⟨rfl, rfl, h.2⟩

/-- **A read gets the bytes of the file**, from the offset where it began, and ends within it. -/
theorem fs_reads (h : (fsSystem nmeta sz).Reachable s) (ht : s.op i = .reading off left got) :
    off + got.length + left ≤ (s.content i).length ∧ got = ((s.content i).drop off).take got.length := by
  have hok := (fsInv_of_reachable h).ops i
  rw [ht] at hok
  rw [length_content, FsState.extent, ht]
  exact hok

/-- A byte is written to file 1 and read again. -/
theorem fs_reads_one : ∃ s : FsState, (fsSystem 2 8).Reachable s ∧ s.op 1 = .reading 0 0 [7] ∧
    [7] = ((s.content 1).drop 0).take 1 := by
  have h₁ := fsEmpty_reachable.next ⟨_, .writei _ 1 0 [7] rfl rfl (Nat.le_refl _) (by decide)
    (by decide) (by decide)⟩
  have h₂ := h₁.next ⟨_, .writeBlock _ 1 0 [7] rfl (by decide) rfl⟩
  have h₃ := h₂.next ⟨_, .writeEnd _ 1 1 rfl rfl⟩
  have h₄ := h₃.next ⟨_, .readi _ 1 0 1 rfl rfl (Nat.zero_le _) (by decide) (by decide)⟩
  have h₅ := h₄.next ⟨_, .readBlock _ 1 0 1 [] rfl (by decide) rfl⟩
  exact ⟨_, h₅, rfl, (fs_reads h₅ (show _ = FsOp.reading 0 0 [7] from rfl)).2⟩

/-- **The inode cache is written through.**  Whenever no operation is under way on an inode, the copy on
the disk is the one in memory: `writei` calls `iupdate` only for a file that grows, and no other
write has changed the inode. -/
theorem fs_write_through (h : (fsSystem nmeta sz).Reachable s) (ht : s.op i = .idle) :
    s.dinode i = s.inode i := by
  refine (fsInv_of_reachable h).through i (fun k e => ?_) ?_
  · rw [ht] at e
    cases e
  · rw [FsState.extent, ht, FsOp.extent]

/-- File 1 has grown by a byte, and then the byte is replaced without a call of `iupdate`. -/
theorem fs_write_through_replaced : ∃ s : FsState, (fsSystem 2 8).Reachable s ∧ s.op 1 = .idle ∧
    (s.inode 1).size = 1 ∧ s.byte 1 0 = 8 ∧ s.dinode 1 = s.inode 1 := by
  have h₁ := fsTwo_reachable.next ⟨_, .writeEnd _ 1 1 rfl rfl⟩
  have h₂ := h₁.next ⟨_, .writei _ 1 0 [8] rfl rfl (Nat.zero_le _) (by decide) (by decide)
    (by decide)⟩
  have h₃ := h₂.next ⟨_, .writeBlock _ 1 0 [8] rfl (by decide) rfl⟩
  have h₄ := h₃.next ⟨_, .writeEnd _ 1 1 rfl rfl⟩
  exact ⟨_, h₄, rfl, rfl, rfl, fs_write_through h₄ rfl⟩

end SystemsPortfolio.Xv6
