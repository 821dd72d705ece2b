/-
SystemsPortfolio/Xv6/InodeBlocks.lean

Who owns the blocks of a volume.

A slot of a block map owns the block it names, until `itrunc` has freed it: the entries of an
indirect block are freed one by one and stay in it until the block itself is freed.  The blocks
that the free map has beyond the reserved ones are owned, each by exactly one slot, so what
`balloc` finds is nobody's and what `bfree` is given is marked.
-/
import SystemsPortfolio.Xv6.Inode
import SystemsPortfolio.Lib.Ownership

namespace SystemsPortfolio.Xv6

open ByteStore Ownership

/-! ### Indirect blocks -/

variable {blk : Store} {j j' v : Nat}

theorem word_setWord_same (hv : v < 4294967296) : word (setWord blk j v) j = v := by
  have h : load (store blk (4 * j) (encode 4 v)) (4 * j) 4 = encode 4 v := by
    have hs : load (store blk (4 * j) (encode 4 v)) (4 * j) (encode 4 v).length = encode 4 v :=
      load_store_same
    rwa [length_encode] at hs
  rw [word, setWord, h, decode_encode]
  exact Nat.mod_eq_of_lt (by omega)

theorem word_setWord_of_ne (h : j' ≠ j) : word (setWord blk j v) j' = word blk j' := by
  rw [word, setWord, load_store_disjoint, word]
  rw [length_encode]
  omega

theorem word_fill (h : j < nindirect) : word (fill blk 0 bsize 0) j = 0 := by
  rw [nindirect] at h
  refine decode_eq_zero fun c hc => ?_
  obtain ⟨x, hx, rfl⟩ := List.mem_map.mp hc
  have hx' := List.mem_range.mp hx
  rw [bsize]
  exact fill_of_mem (by omega) (by omega)

/-! ### Slots -/

/-- The entries that `itrunc` has freed already. -/
def FsOp.Released : FsOp → Nat → Prop
  | freeing j, k => ndirect < k ∧ k < j
  | _, _ => False

instance (o : FsOp) (k : Nat) : Decidable (o.Released k) := by
  cases o <;> unfold FsOp.Released <;> infer_instance

/-- The last slot of a block map. -/
def lastSlot : Nat := ndirect + nindirect

/-- The block that a slot owns. -/
def FsState.own (s : FsState) (p : Nat × Nat) : Option Nat :=
  if p.2 ≤ lastSlot ∧ s.slot p.1 p.2 ≠ 0 ∧ ¬ (s.op p.1).Released p.2 then some (s.slot p.1 p.2)
  else none

variable {s s' : FsState} {nmeta sz i i' k k' b c : Nat}

theorem own_eq_some : s.own (i, k) = some b ↔
    k ≤ lastSlot ∧ s.slot i k = b ∧ b ≠ 0 ∧ ¬ (s.op i).Released k := by
  rw [FsState.own]
  split_ifs with h
  · rw [Option.some.injEq]
    constructor
    · rintro rfl
      exact ⟨h.1, rfl, h.2.1, h.2.2⟩
    · exact fun e => e.2.1
  · constructor
    · exact fun e => by cases e
    · rintro ⟨h₁, rfl, h₂, h₃⟩
      exact absurd ⟨h₁, h₂, h₃⟩ h

theorem own_congr (hslot : s'.slot i k = s.slot i k) (hop : s'.op i = s.op i) :
    s'.own (i, k) = s.own (i, k) := by
  rw [FsState.own, FsState.own, hslot, hop]

theorem not_released_of_le (h : k ≤ ndirect) (o : FsOp) : ¬ o.Released k := by
  cases o
  · exact id
  · exact id
  · exact id
  · exact fun hr => absurd hr.1 (Nat.not_lt.mpr h)

theorem slot_of_le (h : k ≤ ndirect) : s.slot i k = (s.inode i).addrs k := if_pos h

theorem slot_of_gt (h : ndirect < k) (hind : (s.inode i).addrs ndirect ≠ 0) :
    s.slot i k = word (s.data ((s.inode i).addrs ndirect)) (k - (ndirect + 1)) := by
  rw [FsState.slot, if_neg (Nat.not_le.mpr h), if_neg hind]

theorem slot_of_gt_zero (h : ndirect < k) (hind : (s.inode i).addrs ndirect = 0) : s.slot i k = 0 := by
  rw [FsState.slot, if_neg (Nat.not_le.mpr h), if_pos hind]

/-- A slot depends on its field or, for an entry, on the indirect block. -/
theorem slot_congr (hle : k ≤ ndirect → (s'.inode i).addrs k = (s.inode i).addrs k)
    (hgt : ndirect < k → (s'.inode i).addrs ndirect = (s.inode i).addrs ndirect)
    (hd : ndirect < k → (s.inode i).addrs ndirect ≠ 0 →
      s'.data ((s.inode i).addrs ndirect) = s.data ((s.inode i).addrs ndirect)) :
    s'.slot i k = s.slot i k := by
  rcases Nat.lt_or_ge ndirect k with hlt | hk
  · by_cases hz : (s.inode i).addrs ndirect = 0
    · rw [slot_of_gt_zero hlt hz, slot_of_gt_zero hlt ((hgt hlt).trans hz)]
    · rw [slot_of_gt hlt hz, slot_of_gt hlt (hgt hlt ▸ hz), hgt hlt, hd hlt hz]
  · rw [slot_of_le hk, slot_of_le hk, hle hk]

/-- What writing a slot does. -/
structure SlotSet (s : FsState) (i k v : Nat) (s' : FsState) : Prop where
  slot : s'.slot i k = v
  others : ∀ i' k', k' ≤ lastSlot → ¬ (i' = i ∧ k' = k) → s'.slot i' k' = s.slot i' k'
  data : ∀ c, c ≠ (s.inode i).addrs ndirect → s'.data c = s.data c
  used : s'.used = s.used
  size : ∀ i', (s'.inode i').size = (s.inode i').size
  inode : ∀ i', i' ≠ i → s'.inode i' = s.inode i'
  dinode : s'.dinode = s.dinode
  op : s'.op = s.op
  panicked : s'.panicked = s.panicked

/-- Writing an entry of an indirect block that no other inode has. -/
theorem setSlot_entry (hlt : ndirect < k) (hi : (s.inode i).addrs ndirect ≠ 0) (hv : v < 4294967296)
    (hinj : ∀ i', i' ≠ i → (s.inode i').addrs ndirect ≠ 0 →
      (s.inode i').addrs ndirect ≠ (s.inode i).addrs ndirect) :
    SlotSet s i k v (s.setSlot i k v) := by
  rw [FsState.setSlot, if_neg (Nat.not_le.mpr hlt)]
  set a := (s.inode i).addrs ndirect with ha
  set s' := s.setData a (setWord (s.data a) (k - (ndirect + 1)) v) with hs'
  have hself : s'.data a = setWord (s.data a) (k - (ndirect + 1)) v := Function.update_self ..
  have hother {c : Nat} (hc : c ≠ a) : s'.data c = s.data c := Function.update_of_ne hc ..
  have hentry {k' : Nat} (hk' : ndirect < k') :
      s'.slot i k' = word (setWord (s.data a) (k - (ndirect + 1)) v) (k' - (ndirect + 1)) := by
    rw [slot_of_gt (s := s') hk' hi, ← hself]
    rfl
  refine ⟨?_, fun i' k' hk' hno => ?_, fun c hc => hother hc, rfl, fun _ => rfl, fun _ _ => rfl, rfl,
    rfl, rfl⟩
  · rw [hentry hlt]
    exact word_setWord_same hv
  · by_cases hii : i' = i
    · subst hii
      rcases Nat.lt_or_ge ndirect k' with hlt' | hle'
      · rw [hentry hlt', slot_of_gt (s := s) hlt' hi]
        refine word_setWord_of_ne fun e => hno ⟨rfl, ?_⟩
        omega
      · exact slot_congr (fun _ => rfl) (fun _ => rfl) fun h => absurd h (Nat.not_lt.mpr hle')
    · exact slot_congr (fun _ => rfl) (fun _ => rfl) fun _ hi' => hother (hinj i' hii hi')

/-- Writing a field of the inode; a new indirect block must be clear, and an old one is not changed
unless the slot is its own. -/
theorem setSlot_field (hle : k ≤ ndirect)
    (hnew : k = ndirect → (s.inode i).addrs ndirect = 0 ∧ v ≠ 0 ∧ ∀ j < nindirect, word (s.data v) j = 0) :
    SlotSet s i k v (s.setSlot i k v) := by
  rw [FsState.setSlot, if_pos hle]
  set s' := s.setInode i { s.inode i with addrs := Function.update (s.inode i).addrs k v } with hs'
  have hself : s'.inode i = { s.inode i with addrs := Function.update (s.inode i).addrs k v } :=
    Function.update_self ..
  have hother {i' : Nat} (hi : i' ≠ i) : s'.inode i' = s.inode i' := Function.update_of_ne hi ..
  refine ⟨?_, fun i' k' hk' hno => ?_, fun _ _ => rfl, rfl, fun i' => ?_, fun i' hi => hother hi, rfl,
    rfl, rfl⟩
  · rw [slot_of_le hle, hself]
    exact Function.update_self ..
  · by_cases hii : i' = i
    · subst hii
      by_cases hkn : k = ndirect ∧ ndirect < k'
      · -- the entries of a new indirect block
        obtain ⟨rfl, hlt'⟩ := hkn
        obtain ⟨hz, hv, hclear⟩ := hnew rfl
        have hind : (s'.inode i').addrs ndirect = v := by
          rw [hself]
          show Function.update (s.inode i').addrs ndirect v ndirect = v
          rw [Function.update_self]
        rw [slot_of_gt_zero hlt' hz, slot_of_gt hlt' (hind ▸ hv), hind]
        refine hclear _ ?_
        rw [lastSlot] at hk'
        omega
      · refine slot_congr (fun _ => ?_) (fun hlt' => ?_) fun _ _ => rfl
        · rw [hself]
          show Function.update (s.inode i').addrs k v k' = _
          rw [Function.update_of_ne fun e => hno ⟨rfl, e⟩]
        · rw [hself]
          show Function.update (s.inode i').addrs k v ndirect = _
          rw [Function.update_of_ne fun e => hkn ⟨e.symm, hlt'⟩]
    · refine slot_congr (fun _ => ?_) (fun _ => ?_) fun _ _ => rfl <;> rw [hother hii]
  · by_cases hii : i' = i
    · subst hii
      rw [hself]
    · rw [hother hii]

/-! ### Ownership -/

/-- The free map and the block maps agree. -/
structure FsBlocks (nmeta sz : Nat) (s : FsState) : Prop where
  pos : 0 < nmeta
  bound : sz ≤ 4294967296
  reserved : ∀ b, b < nmeta → s.used b = true
  small : ∀ b, s.used b = true → b < sz
  owned : Exact s.own fun b => nmeta ≤ b ∧ s.used b = true

theorem FsBlocks.used (h : FsBlocks nmeta sz s) (ho : s.own (i, k) = some b) : s.used b = true :=
  ((h.owned.range b).mpr ⟨_, ho⟩).2

/-- The indirect block of an inode is owned. -/
theorem own_indirect (h : (s.inode i).addrs ndirect ≠ 0) :
    s.own (i, ndirect) = some ((s.inode i).addrs ndirect) :=
  own_eq_some.mpr ⟨by decide, slot_of_le (Nat.le_refl _), h, not_released_of_le (Nat.le_refl _) _⟩

theorem FsBlocks.indirect_used (h : FsBlocks nmeta sz s) (hi : (s.inode i).addrs ndirect ≠ 0) :
    s.used ((s.inode i).addrs ndirect) = true :=
  h.used (own_indirect hi)

theorem balloc_eq_ok (h : s.balloc sz = .ok (b, s')) :
    b < sz ∧ s.used b = false ∧
      s' = { s with used := Function.update s.used b true }.setData b (fill (s.data b) 0 bsize 0) := by
  rw [FsState.balloc] at h
  rcases hf : (List.range sz).find? (fun b => !s.used b) with - | c
  · rw [hf] at h
    cases h
  · rw [hf] at h
    cases h
    have hmem := List.mem_of_find?_eq_some hf
    have hp := List.find?_some hf
    exact ⟨List.mem_range.mp hmem, by simpa using hp, rfl⟩

/-- What an allocation for a slot does: the slot has the block `b`, every other one what it had, and
no block that was in use is touched but the indirect block of the inode. -/
structure Allocated (s : FsState) (i k b : Nat) (s' : FsState) : Prop where
  slot : s'.slot i k = b
  ne : b ≠ 0
  old : s.used b = true → b = s.slot i k
  others : ∀ i' k', k' ≤ lastSlot → ¬ (i' = i ∧ k' = k) → s'.slot i' k' = s.slot i' k'
  data : ∀ c, s.used c = true → c ≠ (s.inode i).addrs ndirect → s'.data c = s.data c
  used : ∀ c, s.used c = true → s'.used c = true
  size : ∀ i', (s'.inode i').size = (s.inode i').size
  inode : ∀ i', i' ≠ i → s'.inode i' = s.inode i'
  dinode : s'.dinode = s.dinode
  op : s'.op = s.op
  panicked : s'.panicked = s.panicked

/-- A new block is in a slot that was empty. -/
theorem FsBlocks.assign (h : FsBlocks nmeta sz s) (hk : k ≤ lastSlot) (hrel : ¬ (s.op i).Released k)
    (hs : s.slot i k = 0) (hb : s.used b = false) (hbsz : b < sz)
    (hused : s'.used = Function.update s.used b true) (ha : Allocated s i k b s') :
    FsBlocks nmeta sz s' := by
  have hmeta : nmeta ≤ b := by
    by_contra hlt
    rw [h.reserved b (Nat.not_le.mp hlt)] at hb
    cases hb
  have hown : s'.own = Function.update s.own (i, k) (some b) := by
    funext ⟨i', k'⟩
    rcases eq_or_ne (i', k') (i, k) with e | hne
    · cases e
      rw [Function.update_self, own_eq_some]
      exact ⟨hk, ha.slot, ha.ne, ha.op ▸ hrel⟩
    · rw [Function.update_of_ne hne]
      by_cases hk' : k' ≤ lastSlot
      · refine own_congr (ha.others i' k' hk' fun e => hne ?_) (congrFun ha.op i')
        rw [e.1, e.2]
      · rw [FsState.own, FsState.own, if_neg (fun e => hk' e.1), if_neg (fun e => hk' e.1)]
  have hnone : s.own (i, k) = none := by
    rw [FsState.own, if_neg]
    exact fun e => e.2.1 hs
  have hexact := h.owned.assign hnone (k := b) (by rw [hb]; simp)
  refine ⟨h.pos, h.bound, fun c hc => ?_, fun c hc => ?_, ?_⟩
  · rw [hused, Function.update_of_ne (by omega)]
    exact h.reserved c hc
  · rw [hused] at hc
    rcases eq_or_ne c b with rfl | hcb
    · exact hbsz
    · rw [Function.update_of_ne hcb] at hc
      exact h.small c hc
  · refine hexact.congr hown fun c => ?_
    rw [hused]
    rcases eq_or_ne c b with rfl | hcb
    · simp [hmeta]
    · simp [hcb]

/-- Only the holder of an indirect block has it. -/
theorem FsBlocks.indirect_inj (h : FsBlocks nmeta sz s) (hi : (s.inode i).addrs ndirect ≠ 0)
    (hne : i' ≠ i) (hi' : (s.inode i').addrs ndirect ≠ 0) :
    (s.inode i').addrs ndirect ≠ (s.inode i).addrs ndirect := by
  intro e
  have hinj := h.owned.inj (own_indirect hi') (e ▸ own_indirect hi)
  exact hne (congrArg Prod.fst hinj)

/-- An empty slot gets the block that `balloc` finds. -/
theorem balloc_setSlot {s₁ : FsState} (h : FsBlocks nmeta sz s) (hk : k ≤ lastSlot)
    (hind : ndirect < k → (s.inode i).addrs ndirect ≠ 0) (hs : s.slot i k = 0)
    (hb : s.balloc sz = .ok (b, s₁)) : Allocated s i k b (s₁.setSlot i k b) ∧
      (s₁.setSlot i k b).used = Function.update s.used b true ∧ b < sz ∧ s.used b = false := by
  obtain ⟨hbsz, hfree, rfl⟩ := balloc_eq_ok hb
  have hb0 : b ≠ 0 := by
    rintro rfl
    rw [h.reserved 0 h.pos] at hfree
    cases hfree
  have hne {c : Nat} (hc : s.used c = true) : c ≠ b := by
    rintro rfl
    rw [hc] at hfree
    cases hfree
  -- marking and clearing the block changes no slot
  set s₁ : FsState := { s with used := Function.update s.used b true }.setData b
    (fill (s.data b) 0 bsize 0) with hs₁
  have hdata {c : Nat} (hc : c ≠ b) : s₁.data c = s.data c := Function.update_of_ne hc ..
  have hslot (i' k' : Nat) : s₁.slot i' k' = s.slot i' k' :=
    slot_congr (fun _ => rfl) (fun _ => rfl) fun _ hi => hdata (hne (h.indirect_used hi))
  have hset : SlotSet s₁ i k b (s₁.setSlot i k b) := by
    rcases Nat.lt_or_ge ndirect k with hlt | hle
    · exact setSlot_entry hlt (hind hlt) (Nat.lt_of_lt_of_le hbsz h.bound)
        fun i' hi' => h.indirect_inj (hind hlt) hi'
    · refine setSlot_field hle fun e => ⟨?_, hb0, fun j hj => ?_⟩
      · subst e
        rw [slot_of_le (Nat.le_refl _)] at hs
        exact hs
      · rw [show s₁.data b = fill (s.data b) 0 bsize 0 from Function.update_self ..]
        exact word_fill hj
  refine ⟨⟨hset.slot, hb0, fun hc => absurd rfl (hne hc), fun i' k' hk' hno => ?_, fun c hc hci => ?_, fun c hc => ?_, hset.size,
    hset.inode, hset.dinode, hset.op, hset.panicked⟩, hset.used, hbsz, hfree⟩
  · rw [hset.others i' k' hk' hno, hslot]
  · rw [hset.data c hci, hdata (hne hc)]
  · rw [hset.used]
    exact (Function.update_of_ne (hne hc) ..).trans hc

/-- The block in a slot, new or old. -/
theorem slotAlloc_spec (h : FsBlocks nmeta sz s) (hk : k ≤ lastSlot) (hrel : ¬ (s.op i).Released k)
    (hind : ndirect < k → (s.inode i).addrs ndirect ≠ 0) (hb : s.slotAlloc sz i k = .ok (b, s')) :
    FsBlocks nmeta sz s' ∧ Allocated s i k b s' ∧ (s.slot i k ≠ 0 → s' = s) := by
  rw [FsState.slotAlloc] at hb
  split_ifs at hb with hs
  · rcases hall : s.balloc sz with e | ⟨c, s₁⟩
    · rw [hall] at hb
      cases hb
    · rw [hall] at hb
      cases hb
      obtain ⟨ha, hused, hbsz, hfree⟩ := balloc_setSlot h hk hind hs hall
      exact ⟨h.assign hk hrel hs hfree hbsz hused ha, ha, fun hne => absurd hs hne⟩
  · cases hb
    exact ⟨h, ⟨rfl, hs, fun _ => rfl, fun _ _ _ _ => rfl, fun _ _ _ => rfl, fun _ hc => hc, fun _ => rfl,
      fun _ _ => rfl, rfl, rfl, rfl⟩, fun _ => rfl⟩

/-! ### The blocks of a file -/

/-- The slot of block `bn` of a file. -/
def fileSlot (bn : Nat) : Nat := if bn < ndirect then bn else bn + 1

theorem fileSlot_ne (bn : Nat) : fileSlot bn ≠ ndirect := by
  rw [fileSlot]
  split_ifs <;> omega

theorem fileSlot_le {bn : Nat} (h : bn < maxfile) : fileSlot bn ≤ lastSlot := by
  rw [maxfile] at h
  rw [fileSlot, lastSlot]
  split_ifs <;> omega

theorem fileSlot_inj {bn bn' : Nat} (h : fileSlot bn = fileSlot bn') : bn = bn' := by
  rw [fileSlot, fileSlot] at h
  split_ifs at h <;> omega

/-- What `bmap` does: as for a slot, with the indirect block as another slot that may be new. -/
structure Mapped (s : FsState) (i bn b : Nat) (s' : FsState) : Prop where
  slot : s'.slot i (fileSlot bn) = b
  ne : b ≠ 0
  others : ∀ i' bn', bn' < maxfile → ¬ (i' = i ∧ bn' = bn) →
    s'.slot i' (fileSlot bn') = s.slot i' (fileSlot bn')
  data : ∀ c, s.used c = true → c ≠ (s.inode i).addrs ndirect → s'.data c = s.data c
  size : ∀ i', (s'.inode i').size = (s.inode i').size
  inode : ∀ i', i' ≠ i → s'.inode i' = s.inode i'
  dinode : s'.dinode = s.dinode
  op : s'.op = s.op
  panicked : s'.panicked = s.panicked

theorem Allocated.mapped {bn : Nat} (h : Allocated s i (fileSlot bn) b s') : Mapped s i bn b s' where
  slot := h.slot
  ne := h.ne
  others i' bn' hbn hno :=
    h.others i' (fileSlot bn') (fileSlot_le hbn) fun e => hno ⟨e.1, fileSlot_inj e.2⟩
  data := h.data
  size := h.size
  inode := h.inode
  dinode := h.dinode
  op := h.op
  panicked := h.panicked

/-- The indirect block first, and then an entry of it. -/
theorem Allocated.then {s₁ : FsState} {a bn : Nat} (h₁ : Allocated s i ndirect a s₁)
    (h₂ : Mapped s₁ i bn b s') : Mapped s i bn b s' where
  slot := h₂.slot
  ne := h₂.ne
  others i' bn' hbn hno := by
    rw [h₂.others i' bn' hbn hno, h₁.others i' _ (fileSlot_le hbn) fun e => fileSlot_ne bn' e.2]
  data c hc hci := by
    have hind : (s₁.inode i).addrs ndirect = a := by
      rw [← slot_of_le (Nat.le_refl _)]
      exact h₁.slot
    rw [h₂.data c (h₁.used c hc), h₁.data c hc hci]
    rintro rfl
    rw [hind] at hc hci
    exact hci ((h₁.old hc).trans (slot_of_le (Nat.le_refl _)))
  size i' := (h₂.size i').trans (h₁.size i')
  inode i' hi := (h₂.inode i' hi).trans (h₁.inode i' hi)
  dinode := h₂.dinode.trans h₁.dinode
  op := h₂.op.trans h₁.op
  panicked := h₂.panicked.trans h₁.panicked

/-- `bmap` on an inode that is not being truncated. -/
theorem bmap_spec {bn : Nat} (h : FsBlocks nmeta sz s) (hop : ∀ k, ¬ (s.op i).Released k)
    (hb : s.bmap sz i bn = .ok (b, s')) :
    FsBlocks nmeta sz s' ∧ Mapped s i bn b s' ∧ (s.slot i (fileSlot bn) ≠ 0 → s' = s) := by
  rw [FsState.bmap] at hb
  split_ifs at hb with hlt hlt'
  · have hf : fileSlot bn = bn := if_pos hlt
    obtain ⟨h₁, h₂, h₃⟩ := slotAlloc_spec h (by rw [lastSlot]; omega) (hop bn)
      (fun hgt => absurd hlt (by omega)) hb
    refine ⟨h₁, (hf.symm ▸ h₂ : Allocated s i (fileSlot bn) b s').mapped, fun hne => h₃ ?_⟩
    rwa [hf] at hne
  · have hf : fileSlot bn = ndirect + 1 + (bn - ndirect) := by
      rw [fileSlot, if_neg hlt]
      omega
    rcases hall : s.slotAlloc sz i ndirect with e | ⟨a, s₁⟩
    · rw [hall] at hb
      cases hb
    · rw [hall] at hb
      obtain ⟨hb₁, ha₁, hsame₁⟩ := slotAlloc_spec h (by decide) (hop ndirect)
        (fun hgt => absurd hgt (Nat.lt_irrefl _)) hall
      have hind : (s₁.inode i).addrs ndirect ≠ 0 := by
        rw [← slot_of_le (Nat.le_refl _), ha₁.slot]
        exact ha₁.ne
      obtain ⟨hb₂, ha₂, hsame₂⟩ := slotAlloc_spec hb₁ (by rw [lastSlot]; omega)
        (ha₁.op ▸ hop (ndirect + 1 + (bn - ndirect))) (fun _ => hind) hb
      have hmap : Mapped s₁ i bn b s' := (hf.symm ▸ ha₂ : Allocated s₁ i (fileSlot bn) b s').mapped
      refine ⟨hb₂, ha₁.then hmap, fun hne => ?_⟩
      · have hi : s.slot i ndirect ≠ 0 := by
          intro hz
          rw [slot_of_le (Nat.le_refl _)] at hz
          exact hne (slot_of_gt_zero (by omega) hz)
        obtain rfl := hsame₁ hi
        exact hsame₂ (hf ▸ hne)

/-! ### Freeing -/

/-- A block is freed with the slot that owns it. -/
theorem FsBlocks.release (h : FsBlocks nmeta sz s) (ho : s.own (i, k) = some b)
    (hused : s'.used = Function.update s.used b false)
    (hself : s'.own (i, k) = none) (hown : ∀ i' k', ¬ (i' = i ∧ k' = k) → s'.own (i', k') = s.own (i', k')) :
    FsBlocks nmeta sz s' := by
  have hmark := (h.owned.range b).mpr ⟨_, ho⟩
  have hexact := h.owned.release fun p => p = (i, k)
  refine ⟨h.pos, h.bound, fun c hc => ?_, fun c hc => ?_, hexact.congr ?_ fun c => ?_⟩
  · rw [hused, Function.update_of_ne (by omega)]
    exact h.reserved c hc
  · rw [hused] at hc
    rcases eq_or_ne c b with rfl | hcb
    · rw [Function.update_self] at hc
      cases hc
    · rw [Function.update_of_ne hcb] at hc
      exact h.small c hc
  · funext ⟨i', k'⟩
    split_ifs with hp
    · cases hp
      exact hself
    · exact hown i' k' fun e => hp (by rw [e.1, e.2])
  · rw [hused]
    rcases eq_or_ne c b with rfl | hcb
    · simp [ho]
    · rw [Function.update_of_ne hcb]
      constructor
      · exact fun hc => ⟨hc, fun p hp e => hcb (Option.some.inj (e.symm.trans (hp ▸ ho)))⟩
      · exact fun hc => hc.1

/-- Nothing that the block maps depend on changes. -/
theorem FsBlocks.congr (h : FsBlocks nmeta sz s) (hused : s'.used = s.used) (hown : s'.own = s.own) :
    FsBlocks nmeta sz s' := by
  refine ⟨h.pos, h.bound, fun c hc => ?_, fun c hc => ?_, h.owned.congr hown fun c => ?_⟩
  · rw [hused]
    exact h.reserved c hc
  · rw [hused] at hc
    exact h.small c hc
  · rw [hused]

/-- The block of a file is nobody's indirect block. -/
theorem FsBlocks.ne_indirect (h : FsBlocks nmeta sz s) (ho : s.own (i, k) = some b) (hk : k ≠ ndirect)
    (hi : (s.inode i').addrs ndirect ≠ 0) : b ≠ (s.inode i').addrs ndirect := by
  rintro rfl
  exact hk (congrArg Prod.snd (h.owned.inj ho (own_indirect hi)))

end SystemsPortfolio.Xv6
