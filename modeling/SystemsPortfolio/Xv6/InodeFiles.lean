/-
SystemsPortfolio/Xv6/InodeFiles.lean

The contents of files, whatever blocks they are in.

A file is the list of its bytes.  `readi` gets a part of it without touching the volume, and a
turn of `writei` puts bytes over a part of it or behind its end.  A step for one inode leaves
the files of all others alone (`Untouched`), since no block has two owners.
-/
import SystemsPortfolio.Xv6.InodeBlocks

namespace SystemsPortfolio.Xv6

open ByteStore Transition Ownership

/-! ### Files as lists -/

/-- `c` over the bytes of `l` from `off` on. -/
def patch {α : Type} (l : List α) (off : Nat) (c : List α) : List α :=
  l.take off ++ c ++ l.drop (off + c.length)

theorem getElem?_patch {α : Type} {l : List α} {off : Nat} (bs : List α) (h : off ≤ l.length)
    (x : Nat) :
    (patch l off bs)[x]? = if off ≤ x ∧ x < off + bs.length then bs[x - off]? else l[x]? := by
  have htake : (l.take off).length = off := List.length_take_of_le h
  rw [patch]
  split_ifs with hx
  · rw [List.getElem?_append_left (by rw [List.length_append, htake]; omega),
      List.getElem?_append_right (by omega), htake]
  · rcases Nat.lt_or_ge x off with hlt | hge
    · rw [List.getElem?_append_left (by rw [List.length_append, htake]; omega),
        List.getElem?_append_left (by omega), List.getElem?_take_of_lt hlt]
    · rw [List.getElem?_append_right (by rw [List.length_append, htake]; omega), List.getElem?_drop,
        List.length_append, htake]
      congr 1
      omega

theorem patch_nil {α : Type} (l : List α) (off : Nat) : patch l off [] = l := by
  rw [patch, List.append_nil, List.length_nil, Nat.add_zero, List.take_append_drop]

/-- Bytes that are put one after the other. -/
theorem patch_patch {α : Type} {l : List α} {off : Nat} (c d : List α) (h : off ≤ l.length) :
    patch (patch l off c) (off + c.length) d = patch l off (c ++ d) := by
  have htake : (l.take off).length = off := List.length_take_of_le h
  have hlen : (l.take off ++ c).length = off + c.length := by rw [List.length_append, htake]
  have hfront : (patch l off c).take (off + c.length) = l.take off ++ c := by
    rw [patch, List.take_append_of_le_length (Nat.le_of_eq hlen.symm), List.take_of_length_le
      (Nat.le_of_eq hlen)]
  have hback : (patch l off c).drop (off + c.length + d.length) =
      l.drop (off + (c ++ d).length) := by
    rw [patch, ← List.drop_drop, List.drop_append_of_le_length (Nat.le_of_eq hlen.symm),
      List.drop_of_length_le (Nat.le_of_eq hlen), List.nil_append, List.drop_drop, List.length_append,
      Nat.add_assoc]
  rw [patch, hfront, hback, patch]
  simp only [List.append_assoc]

/-- The files of a volume, by inode. -/
inductive FileStoreStep : FileAct → (Nat → List UInt8) → (Nat → List UInt8) → Prop
  | write (f : Nat → List UInt8) (i off : Nat) (bytes : List UInt8) (h : off ≤ (f i).length) :
      FileStoreStep (.write i off bytes) f (Function.update f i (patch (f i) off bytes))
  | truncate (f : Nat → List UInt8) (i : Nat) :
      FileStoreStep (.truncate i) f (Function.update f i [])

/-- Files that can be written and emptied. -/
def fileStore : Labelled (Nat → List UInt8) FileAct where
  init _ := True
  step := FileStoreStep

/-! ### The bytes of an inode -/

variable {s s' : FsState} {nmeta sz i i' k b bn off left x : Nat} {src got : List UInt8}

/-- The end of a file of `size` bytes: a write in progress may be beyond the size already. -/
def FsOp.extent (size : Nat) : FsOp → Nat
  | idle => size
  | reading _ _ _ => size
  | writing off _ => max size off
  | freeing _ => 0

namespace FsState

def extent (s : FsState) (i : Nat) : Nat := (s.op i).extent (s.inode i).size

/-- The byte at `x`. -/
def byte (s : FsState) (i x : Nat) : UInt8 :=
  s.data (s.slot i (fileSlot (x / bsize))) ((x % bsize : Nat) : Int)

/-- The bytes of a file. -/
def content (s : FsState) (i : Nat) : List UInt8 := (List.range (s.extent i)).map (s.byte i)

end FsState

theorem length_content (s : FsState) (i : Nat) : (s.content i).length = s.extent i := by
  rw [FsState.content, List.length_map, List.length_range]

theorem getElem?_content (h : x < s.extent i) : (s.content i)[x]? = some (s.byte i x) := by
  rw [FsState.content, List.getElem?_map, List.getElem?_range h]
  rfl

theorem content_congr (he : s'.extent i = s.extent i)
    (hb : ∀ x, x < s.extent i → s'.byte i x = s.byte i x) : s'.content i = s.content i := by
  rw [FsState.content, FsState.content, he]
  exact List.map_congr_left fun x hx => hb x (List.mem_range.mp hx)

/-- Bytes within one block. -/
theorem div_mod_add {p j : Nat} (h : p % bsize + j < bsize) :
    (p + j) / bsize = p / bsize ∧ (p + j) % bsize = p % bsize + j := by
  rw [bsize] at h ⊢
  omega

/-- A part of a block is a part of the file. -/
theorem load_eq_content {p m : Nat} (hext : p + m ≤ s.extent i) (hm : p % bsize + m ≤ bsize) :
    load (s.data (s.slot i (fileSlot (p / bsize)))) ((p % bsize : Nat) : Int) m =
      ((s.content i).drop p).take m := by
  refine List.ext_getElem? fun j => ?_
  rcases Nat.lt_or_ge j m with hj | hj
  · obtain ⟨hdiv, hmod⟩ := div_mod_add (p := p) (j := j) (by omega)
    rw [load, List.getElem?_map, List.getElem?_range hj, List.getElem?_take_of_lt hj, List.getElem?_drop,
      getElem?_content (by omega), FsState.byte, hdiv, hmod]
    simp
  · rw [List.getElem?_eq_none (by rw [length_load]; exact hj),
      List.getElem?_eq_none (by rw [List.length_take]; omega)]

/-! ### What holds between steps -/

/-- What an operation may rely on. -/
def FsState.OpOk (s : FsState) (i : Nat) : FsOp → Prop
  | .idle => True
  | .reading off left got => off + got.length + left ≤ (s.inode i).size ∧
      got = ((s.content i).drop off).take got.length
  | .writing off src => off + src.length ≤ maxfile * bsize
  | .freeing k => k ≤ lastSlot + 1 ∧ (ndirect < k → (s.inode i).addrs ndirect ≠ 0)

structure FsInv (nmeta sz : Nat) (s : FsState) : Prop where
  blocks : FsBlocks nmeta sz s
  mapped : ∀ i bn, bn * bsize < s.extent i → s.slot i (fileSlot bn) ≠ 0
  extent_le : ∀ i, s.extent i ≤ maxfile * bsize
  through : ∀ i, (∀ k, s.op i ≠ .freeing k) → s.extent i = (s.inode i).size →
    s.dinode i = s.inode i
  ops : ∀ i, s.OpOk i (s.op i)
  panics : ∀ e, s.panicked = some e → e = .outOfBlocks

/-- The block of a file is owned by its slot. -/
theorem FsInv.own_block (h : FsInv nmeta sz s) (hbn : bn * bsize < s.extent i) :
    s.own (i, fileSlot bn) = some (s.slot i (fileSlot bn)) := by
  have hle := h.extent_le i
  have hlt : bn < maxfile := by
    by_contra hge
    have := Nat.mul_le_mul_right bsize (Nat.not_lt.mp hge)
    omega
  refine own_eq_some.mpr ⟨fileSlot_le hlt, rfl, h.mapped i bn hbn, fun hr => ?_⟩
  rcases hop : s.op i with - | ⟨off, left, got⟩ | ⟨off, src⟩ | k <;> rw [hop] at hr
  · exact hr
  · exact hr
  · exact hr
  · rw [FsState.extent, hop] at hbn
    exact Nat.not_lt_zero _ hbn

/-! ### Other inodes -/

/-- A step leaves the file of an inode alone. -/
structure Untouched (s s' : FsState) (i : Nat) : Prop where
  inode : s'.inode i = s.inode i
  dinode : s'.dinode i = s.dinode i
  op : s'.op i = s.op i
  slot : ∀ bn, bn * bsize < s.extent i → s'.slot i (fileSlot bn) = s.slot i (fileSlot bn)
  data : ∀ bn, bn * bsize < s.extent i →
    s'.data (s.slot i (fileSlot bn)) = s.data (s.slot i (fileSlot bn))

theorem Untouched.extent (h : Untouched s s' i) : s'.extent i = s.extent i := by
  rw [FsState.extent, FsState.extent, h.op, h.inode]

theorem Untouched.content (h : Untouched s s' i) : s'.content i = s.content i := by
  refine content_congr h.extent fun x hx => ?_
  have hbn : x / bsize * bsize < s.extent i := Nat.lt_of_le_of_lt (Nat.div_mul_le_self x bsize) hx
  rw [FsState.byte, FsState.byte, h.slot _ hbn, h.data _ hbn]

/-- A step for inode `i`, from what it does to this inode. -/
theorem FsInv.at (h : FsInv nmeta sz s) (hb : FsBlocks nmeta sz s')
    (hother : ∀ i', i' ≠ i → Untouched s s' i')
    (hmapped : ∀ bn, bn * bsize < s'.extent i → s'.slot i (fileSlot bn) ≠ 0)
    (hextent : s'.extent i ≤ maxfile * bsize)
    (hthrough : (∀ k, s'.op i ≠ .freeing k) → s'.extent i = (s'.inode i).size → s'.dinode i = s'.inode i)
    (hop : s'.OpOk i (s'.op i)) (hp : ∀ e, s'.panicked = some e → e = .outOfBlocks) :
    FsInv nmeta sz s' where
  blocks := hb
  mapped i' bn hbn := by
    rcases eq_or_ne i' i with rfl | hi
    · exact hmapped bn hbn
    · rw [(hother i' hi).extent] at hbn
      rw [(hother i' hi).slot bn hbn]
      exact h.mapped i' bn hbn
  extent_le i' := by
    rcases eq_or_ne i' i with rfl | hi
    · exact hextent
    · rw [(hother i' hi).extent]
      exact h.extent_le i'
  through i' hno he := by
    rcases eq_or_ne i' i with rfl | hi
    · exact hthrough hno he
    · have hu := hother i' hi
      rw [hu.extent, hu.inode] at he
      rw [hu.dinode, hu.inode]
      exact h.through i' (fun k => hu.op ▸ hno k) he
  ops i' := by
    rcases eq_or_ne i' i with rfl | hi
    · exact hop
    · have hu := hother i' hi
      have ho := h.ops i'
      rw [hu.op]
      rcases hq : s.op i' with - | ⟨off, left, got⟩ | ⟨off, src⟩ | k <;> rw [hq] at ho
      · exact trivial
      · refine ⟨?_, ?_⟩
        · rw [hu.inode]
          exact ho.1
        · rw [hu.content]
          exact ho.2
      · exact ho
      · refine ⟨ho.1, ?_⟩
        rw [hu.inode]
        exact ho.2
  panics := hp

/-! ### Steps that move no block -/

theorem untouched_setOp (o : FsOp) (hi : i' ≠ i) : Untouched s (s.setOp i o) i' :=
  ⟨rfl, rfl, Function.update_of_ne hi .., fun _ _ => rfl, fun _ _ => rfl⟩

theorem not_released {o : FsOp} (h : ∀ k, o ≠ .freeing k) (k : Nat) : ¬ o.Released k := by
  cases o with
  | freeing j => exact absurd rfl (h j)
  | _ => exact id

theorem content_setOp {o : FsOp} (hext : (s.setOp i o).extent i = s.extent i) :
    (s.setOp i o).content = s.content := by
  funext i'
  rcases eq_or_ne i' i with rfl | hi
  · exact content_congr hext fun _ _ => rfl
  · exact (untouched_setOp o hi).content

/-- Another operation begins or goes on, over the same bytes. -/
theorem FsInv.setOp {o : FsOp} (h : FsInv nmeta sz s) (hold : ∀ k, s.op i ≠ .freeing k)
    (hnew : ∀ k, o ≠ .freeing k) (hext : (s.setOp i o).extent i = s.extent i)
    (hop : (s.setOp i o).OpOk i o) :
    FsInv nmeta sz (s.setOp i o) ∧ (s.setOp i o).content = s.content := by
  have hself : (s.setOp i o).op i = o := Function.update_self ..
  refine ⟨h.at (h.blocks.congr rfl ?_) (fun i' hi => untouched_setOp o hi) (fun bn hbn => ?_) ?_
    (fun _ he => ?_) (by rw [hself]; exact hop) h.panics, content_setOp hext⟩
  · funext ⟨i', k⟩
    rcases eq_or_ne i' i with rfl | hi
    · rw [FsState.own, FsState.own]
      dsimp only
      rw [hself]
      simp only [not_released hold, not_released hnew]
      rfl
    · exact own_congr rfl (Function.update_of_ne hi ..)
  · rw [hext] at hbn
    exact h.mapped i bn hbn
  · rw [hext]
    exact h.extent_le i
  · rw [hext] at he
    exact h.through i hold he

/-! ### A block is mapped -/

theorem slotAlloc_error {e : FsPanic} (h : s.slotAlloc sz i k = .error e) : e = .outOfBlocks := by
  rw [FsState.slotAlloc, FsState.balloc] at h
  split_ifs at h
  · rcases hf : (List.range sz).find? (fun b => !s.used b) with - | b
    · rw [hf] at h
      cases h
      rfl
    · rw [hf] at h
      cases h

theorem bmap_error {e : FsPanic} (hbn : bn < maxfile) (h : s.bmap sz i bn = .error e) :
    e = .outOfBlocks := by
  rw [maxfile] at hbn
  rw [FsState.bmap] at h
  split_ifs at h with h₁ h₂
  · exact slotAlloc_error h
  · rcases hall : s.slotAlloc sz i ndirect with e' | ⟨a, s₁⟩
    · rw [hall] at h
      cases h
      exact slotAlloc_error hall
    · rw [hall] at h
      exact slotAlloc_error h
  · omega

theorem FsInv.panic {e : FsPanic} (h : FsInv nmeta sz s) (he : e = .outOfBlocks) :
    FsInv nmeta sz (s.panic e) where
  blocks := h.blocks.congr rfl rfl
  mapped := h.mapped
  extent_le := h.extent_le
  through := h.through
  ops := h.ops
  panics e' he' := by
    cases he'
    exact he

/-- The files of other inodes, and the other blocks of this one, across `bmap`. -/
theorem Mapped.block (hm : Mapped s i bn b s') (h : FsInv nmeta sz s) {bn' : Nat}
    (hbn' : bn' * bsize < s.extent i') (hno : ¬ (i' = i ∧ bn' = bn)) :
    s'.slot i' (fileSlot bn') = s.slot i' (fileSlot bn') ∧
      s'.data (s.slot i' (fileSlot bn')) = s.data (s.slot i' (fileSlot bn')) := by
  have ho := h.own_block hbn'
  have hlt : bn' < maxfile := by
    have hle := h.extent_le i'
    by_contra hge
    have := Nat.mul_le_mul_right bsize (Nat.not_lt.mp hge)
    omega
  refine ⟨hm.others i' bn' hlt hno, hm.data _ (h.blocks.used ho) ?_⟩
  by_cases hz : (s.inode i).addrs ndirect = 0
  · rw [hz]
    exact h.mapped i' bn' hbn'
  · exact h.blocks.ne_indirect ho (fileSlot_ne bn') hz

theorem Mapped.untouched (hm : Mapped s i bn b s') (h : FsInv nmeta sz s) (hi : i' ≠ i) :
    Untouched s s' i' where
  inode := hm.inode i' hi
  dinode := congrFun hm.dinode i'
  op := congrFun hm.op i'
  slot _ hbn := (hm.block h hbn fun e => hi e.1).1
  data _ hbn := (hm.block h hbn fun e => hi e.1).2

/-- The byte `x` of the inode across `bmap`, in a block that was there. -/
theorem Mapped.byte_eq (hm : Mapped s i bn b s') (h : FsInv nmeta sz s)
    (hsame : s.slot i (fileSlot bn) ≠ 0 → s' = s) (hx : x < s.extent i) : s'.byte i x = s.byte i x := by
  have hbn : x / bsize * bsize < s.extent i := Nat.lt_of_le_of_lt (Nat.div_mul_le_self x bsize) hx
  by_cases e : x / bsize = bn
  · rw [e] at hbn
    rw [hsame (h.mapped i bn hbn)]
  · obtain ⟨hs, hd⟩ := hm.block h hbn fun e' => e e'.2
    rw [FsState.byte, FsState.byte, hs, hd]

/-- A file that is there is read without a change to the volume. -/
theorem FsInv.readBlock (h : FsInv nmeta sz s) (ht : s.op i = .reading off left got) (hleft : 0 < left) :
    FsInv nmeta sz (s.readBlock sz i off left got) ∧
      (s.readBlock sz i off left got).content = s.content := by
  have ho := h.ops i
  rw [ht] at ho
  obtain ⟨hle, hgot⟩ := ho
  have hext : s.extent i = (s.inode i).size := by rw [FsState.extent, ht, FsOp.extent]
  set p := off + got.length with hp
  have hbn : p / bsize * bsize < s.extent i :=
    Nat.lt_of_le_of_lt (Nat.div_mul_le_self p bsize) (by omega)
  have hne := h.mapped i _ hbn
  have hlt : p / bsize < maxfile := by
    have := h.extent_le i
    by_contra hge
    have := Nat.mul_le_mul_right bsize (Nat.not_lt.mp hge)
    omega
  have hnorel (k : Nat) : ¬ (s.op i).Released k := by
    rw [ht]
    exact id
  rcases hb : s.bmap sz i (p / bsize) with e | ⟨b, s₁⟩
  · have he : s.readBlock sz i off left got = s.panic e := by
      rw [FsState.readBlock, ← hp, hb]
    rw [he]
    exact ⟨h.panic (bmap_error hlt hb), rfl⟩
  · obtain ⟨-, hm, hsame⟩ := bmap_spec h.blocks hnorel hb
    obtain rfl := hsame hne
    have hmod : p % bsize < bsize := Nat.mod_lt _ (by decide)
    set m := min left (bsize - p % bsize) with hmdef
    have he : s₁.readBlock sz i off left got = s₁.setOp i (.reading off (left - m)
        (got ++ load (s₁.data b) ((p % bsize : Nat) : Int) m)) := by
      rw [FsState.readBlock, ← hp, hb]
    have hext' (l : Nat) (g : List UInt8) : (s₁.setOp i (.reading off l g)).extent i = s₁.extent i := by
      rw [FsState.extent, hext, show (s₁.setOp i (.reading off l g)).op i = _ from
        Function.update_self ..]
      rfl
    rw [he]
    refine h.setOp (fun k e => ?_) (fun k e => by cases e) (hext' _ _) ⟨?_, ?_⟩
    · rw [ht] at e
      cases e
    · rw [List.length_append, length_load]
      show off + (got.length + m) + (left - m) ≤ (s₁.inode i).size
      omega
    · rw [content_setOp (hext' _ _), List.length_append, length_load, List.take_add, List.drop_drop,
        ← hp, ← hgot, ← load_eq_content (by omega) (by omega), hm.slot]

/-! ### A block is written -/

/-- Bytes go into a block of the file of `i`: no block map and no other block changes. -/
theorem setData_untouched {x : Store} (h : FsBlocks nmeta sz s) (ho : s.own (i, fileSlot bn) = some b) :
    FsBlocks nmeta sz (s.setData b x) ∧ ∀ i' k, (s.setData b x).slot i' k = s.slot i' k := by
  have hslot (i' k : Nat) : (s.setData b x).slot i' k = s.slot i' k :=
    slot_congr (fun _ => rfl) (fun _ => rfl) fun _ hi =>
      Function.update_of_ne (h.ne_indirect ho (fileSlot_ne bn) hi).symm ..
  refine ⟨h.congr rfl ?_, hslot⟩
  funext ⟨i', k⟩
  exact own_congr (hslot i' k) rfl

/-- The bytes `c` are about to go into block `b` of the file of `i`, which `bmap` has given. -/
structure BlockWrite (nmeta sz : Nat) (s : FsState) (i off : Nat) (c rest : List UInt8) (b : Nat)
    (s₁ : FsState) : Prop where
  inv : FsInv nmeta sz s
  op : s.op i = .writing off (c ++ rest)
  pos : 0 < c.length
  fit : off % bsize + c.length ≤ bsize
  blocks : FsBlocks nmeta sz s₁
  mapped : Mapped s i (off / bsize) b s₁
  same : s.slot i (fileSlot (off / bsize)) ≠ 0 → s₁ = s

namespace BlockWrite

variable {s₁ : FsState} {c rest : List UInt8}

/-- The state after the turn. -/
def after (i off : Nat) (c rest : List UInt8) (b : Nat) (s₁ : FsState) : FsState :=
  (s₁.setData b (store (s₁.data b) ((off % bsize : Nat) : Int) c)).setOp i
    (.writing (off + c.length) rest)

theorem sum_le (h : BlockWrite nmeta sz s i off c rest b s₁) :
    off + c.length + rest.length ≤ maxfile * bsize := by
  have ho := h.inv.ops i
  rw [h.op] at ho
  have hle : off + (c ++ rest).length ≤ maxfile * bsize := ho
  rw [List.length_append] at hle
  omega

theorem extent_eq (h : BlockWrite nmeta sz s i off c rest b s₁) :
    s.extent i = max (s.inode i).size off := by
  rw [FsState.extent, h.op, FsOp.extent]

theorem extent_after (h : BlockWrite nmeta sz s i off c rest b s₁) :
    (after i off c rest b s₁).extent i = max (s.extent i) (off + c.length) := by
  rw [FsState.extent, show (after i off c rest b s₁).op i = .writing (off + c.length) rest from
    Function.update_self ..]
  show max (s₁.inode i).size (off + c.length) = _
  rw [h.mapped.size, h.extent_eq]
  omega

theorem lt_maxfile (h : BlockWrite nmeta sz s i off c rest b s₁) : off / bsize < maxfile := by
  have hle := h.sum_le
  have hpos := h.pos
  have hdiv : off / bsize * bsize ≤ off := Nat.div_mul_le_self off bsize
  by_contra hge
  have := Nat.mul_le_mul_right bsize (Nat.not_lt.mp hge)
  omega

theorem own_block (h : BlockWrite nmeta sz s i off c rest b s₁) :
    s₁.own (i, fileSlot (off / bsize)) = some b := by
  refine own_eq_some.mpr ⟨fileSlot_le h.lt_maxfile, h.mapped.slot, h.mapped.ne, ?_⟩
  rw [h.mapped.op, h.op]
  exact id

theorem slot_after (h : BlockWrite nmeta sz s i off c rest b s₁) (i' k : Nat) :
    (after i off c rest b s₁).slot i' k = s₁.slot i' k :=
  (setData_untouched h.blocks h.own_block).2 i' k

/-- Another block of a file is not the one that is written. -/
theorem block_ne (h : BlockWrite nmeta sz s i off c rest b s₁) {bn' : Nat}
    (hbn' : bn' * bsize < s.extent i') (hno : ¬ (i' = i ∧ bn' = off / bsize)) :
    s.slot i' (fileSlot bn') ≠ b := by
  intro e
  have ho := h.inv.own_block hbn'
  rw [e] at ho
  have ho₁ : s₁.own (i', fileSlot bn') = some b := by
    rw [← ho]
    exact own_congr (h.mapped.block h.inv hbn' hno).1 (congrFun h.mapped.op i')
  have hinj := h.blocks.owned.inj ho₁ h.own_block
  exact hno ⟨congrArg Prod.fst hinj, fileSlot_inj (congrArg Prod.snd hinj)⟩

theorem untouched (h : BlockWrite nmeta sz s i off c rest b s₁) (hi : i' ≠ i) :
    Untouched s (after i off c rest b s₁) i' := by
  have hu := h.mapped.untouched h.inv hi
  refine ⟨hu.inode, hu.dinode, (Function.update_of_ne hi ..).trans hu.op, fun bn hbn => ?_,
    fun bn hbn => ?_⟩
  · rw [h.slot_after, hu.slot bn hbn]
  · exact (Function.update_of_ne (h.block_ne hbn fun e => hi e.1) ..).trans (hu.data bn hbn)

/-- The bytes of the file after the turn. -/
theorem byte_after (h : BlockWrite nmeta sz s i off c rest b s₁)
    (hx : x < max (s.extent i) (off + c.length)) :
    (after i off c rest b s₁).byte i x =
      if off ≤ x ∧ x < off + c.length then c.getD (x - off) 0 else s.byte i x := by
  have hoff : off ≤ s.extent i := by
    rw [h.extent_eq]
    exact Nat.le_max_right ..
  have hfit := h.fit
  have hdiv : off / bsize * bsize + off % bsize = off := Nat.div_add_mod' off bsize
  have hxdiv : x / bsize * bsize + x % bsize = x := Nat.div_add_mod' x bsize
  have hxmod : x % bsize < bsize := Nat.mod_lt _ (by decide)
  rw [FsState.byte, h.slot_after]
  by_cases e : x / bsize = off / bsize
  · -- the block that is written
    rw [e, h.mapped.slot, show (after i off c rest b s₁).data b =
      store (s₁.data b) ((off % bsize : Nat) : Int) c from Function.update_self ..]
    rw [e] at hxdiv
    split_ifs with hin
    · rw [show ((x % bsize : Nat) : Int) = ((off % bsize : Nat) : Int) + ((x - off : Nat) : Int) by omega,
        store_of_mem (by omega)]
    · rw [store_of_disjoint (by omega), ← h.mapped.byte_eq h.inv h.same (by omega), FsState.byte, e,
        h.mapped.slot]
  · -- any other block
    have hout : ¬ (off ≤ x ∧ x < off + c.length) := by
      rintro ⟨h₁, h₂⟩
      obtain ⟨hd, -⟩ := div_mod_add (p := off) (j := x - off) (by omega)
      rw [Nat.add_sub_cancel' h₁] at hd
      exact e hd
    have hxe : x < s.extent i := by omega
    have hbn : x / bsize * bsize < s.extent i := Nat.lt_of_le_of_lt (Nat.div_mul_le_self x bsize) hxe
    rw [if_neg hout, ← h.mapped.byte_eq h.inv h.same hxe, FsState.byte]
    have hne := h.block_ne hbn fun e' => e e'.2
    rw [← (h.mapped.block h.inv hbn fun e' => e e'.2).1] at hne
    rw [show (after i off c rest b s₁).data (s₁.slot i (fileSlot (x / bsize))) =
      s₁.data (s₁.slot i (fileSlot (x / bsize))) from Function.update_of_ne hne ..]

theorem content_after (h : BlockWrite nmeta sz s i off c rest b s₁) :
    (after i off c rest b s₁).content = Function.update s.content i (patch (s.content i) off c) := by
  funext i'
  rcases eq_or_ne i' i with rfl | hi
  · have hoff : off ≤ (s.content i').length := by
      rw [length_content, h.extent_eq]
      exact Nat.le_max_right ..
    rw [Function.update_self]
    refine List.ext_getElem? fun x => ?_
    rw [getElem?_patch c hoff]
    have hleft := Nat.le_max_left (s.extent i') (off + c.length)
    have hright := Nat.le_max_right (s.extent i') (off + c.length)
    rcases Nat.lt_or_ge x (max (s.extent i') (off + c.length)) with hx | hx
    · rw [getElem?_content (by rw [h.extent_after]; exact hx), h.byte_after hx]
      split_ifs with hin
      · rw [List.getD_eq_getElem?_getD, List.getElem?_eq_getElem (by omega)]
        rfl
      · rw [getElem?_content]
        rw [length_content] at hoff
        by_contra hge
        have hle : max (s.extent i') (off + c.length) ≤ x := Nat.max_le.mpr ⟨by omega, by omega⟩
        omega
    · rw [List.getElem?_eq_none (by rw [length_content, h.extent_after]; exact hx), if_neg (by omega),
        List.getElem?_eq_none (by rw [length_content]; omega)]
  · rw [Function.update_of_ne hi]
    exact (h.untouched hi).content

theorem inv_after (h : BlockWrite nmeta sz s i off c rest b s₁) :
    FsInv nmeta sz (after i off c rest b s₁) := by
  have hop : (after i off c rest b s₁).op i = .writing (off + c.length) rest := Function.update_self ..
  have hsum := h.sum_le
  have hoffs := h.extent_eq
  have hle := h.inv.extent_le i
  refine h.inv.at ?_ (fun i' hi => h.untouched hi) (fun bn hbn => ?_) ?_ (fun _ he => ?_) ?_ (fun e he => ?_)
  · have hdata : FsBlocks nmeta sz (s₁.setData b (store (s₁.data b) ((off % bsize : Nat) : Int) c)) :=
      (setData_untouched h.blocks h.own_block).1
    refine hdata.congr rfl ?_
    funext ⟨i', k⟩
    rcases eq_or_ne i' i with rfl | hi
    · rw [FsState.own, FsState.own]
      dsimp only
      rw [hop, show (s₁.setData b (store (s₁.data b) ((off % bsize : Nat) : Int) c)).op i' = _ from
        (congrFun h.mapped.op i').trans h.op]
      rfl
    · exact own_congr rfl (Function.update_of_ne hi ..)
  · rw [h.extent_after] at hbn
    rw [h.slot_after]
    by_cases e : bn = off / bsize
    · rw [e, h.mapped.slot]
      exact h.mapped.ne
    · have hlt : bn * bsize < s.extent i := by
        have hfit := h.fit
        have hdiv : off / bsize * bsize + off % bsize = off := Nat.div_add_mod' off bsize
        by_contra hge
        have hlt : bn * bsize < (off / bsize + 1) * bsize := by
          rw [Nat.add_mul, Nat.one_mul]
          omega
        have hlt' := Nat.lt_of_mul_lt_mul_right hlt
        have hmul : bn * bsize ≤ off / bsize * bsize := Nat.mul_le_mul_right _ (by omega)
        have hmul' : (bn + 1) * bsize ≤ off / bsize * bsize := Nat.mul_le_mul_right _ (by omega)
        rw [Nat.add_mul, Nat.one_mul] at hmul'
        have : 0 < bsize := by decide
        omega
      rw [(h.mapped.block h.inv hlt fun e' => e e'.2).1]
      exact h.inv.mapped i bn hlt
  · rw [h.extent_after]
    omega
  · -- the size is beyond what is written, so no block was new
    rw [h.extent_after] at he
    have hsize : (s₁.inode i).size = (s.inode i).size := h.mapped.size i
    change max (s.extent i) (off + c.length) = (s₁.inode i).size at he
    have hpos := h.pos
    have hbn : off / bsize * bsize < s.extent i := by
      have : off / bsize * bsize ≤ off := Nat.div_mul_le_self off bsize
      omega
    obtain rfl := h.same (h.inv.mapped i _ hbn)
    exact h.inv.through i (fun k e => by rw [h.op] at e; cases e) (by omega)
  · rw [hop]
    exact hsum
  · exact h.inv.panics e (h.mapped.panicked ▸ he)

end BlockWrite

/-- One turn of the loop of `writei` puts the first bytes of `src` at `off`. -/
theorem FsInv.writeBlock (h : FsInv nmeta sz s) (ht : s.op i = .writing off src) (hsrc : src ≠ []) :
    FsInv nmeta sz (s.writeBlock sz i off src) ∧
      fileStore.Sees (s.written sz i off src) s.content (s.writeBlock sz i off src).content := by
  have hsum : off + src.length ≤ maxfile * bsize := by
    have ho := h.ops i
    rw [ht] at ho
    exact ho
  have hpos : 0 < src.length := List.length_pos_of_ne_nil hsrc
  have hmod : off % bsize < bsize := Nat.mod_lt _ (by decide)
  have hnorel (k : Nat) : ¬ (s.op i).Released k := by
    rw [ht]
    exact id
  rcases hb : s.bmap sz i (off / bsize) with e | ⟨b, s₁⟩
  · have he : s.writeBlock sz i off src = s.panic e := by
      rw [FsState.writeBlock, hb]
    have hlt : off / bsize < maxfile := by
      have hdiv : off / bsize * bsize ≤ off := Nat.div_mul_le_self off bsize
      by_contra hge
      have := Nat.mul_le_mul_right bsize (Nat.not_lt.mp hge)
      omega
    rw [he, FsState.written, hb]
    exact ⟨h.panic (bmap_error hlt hb), rfl⟩
  · obtain ⟨hb₁, hm, hsame⟩ := bmap_spec h.blocks hnorel hb
    have hclen : (src.take (min src.length (bsize - off % bsize))).length =
        min src.length (bsize - off % bsize) := by
      rw [List.length_take]
      omega
    have hw : BlockWrite nmeta sz s i off (src.take (min src.length (bsize - off % bsize)))
        (src.drop (min src.length (bsize - off % bsize))) b s₁ :=
      ⟨h, by rw [List.take_append_drop]; exact ht, by omega, by omega, hb₁, hm, hsame⟩
    have he : s.writeBlock sz i off src =
        BlockWrite.after i off (src.take (min src.length (bsize - off % bsize)))
          (src.drop (min src.length (bsize - off % bsize))) b s₁ := by
      rw [FsState.writeBlock, hb, BlockWrite.after, hclen]
    rw [he, FsState.written, hb, hw.content_after]
    refine ⟨hw.inv_after, FileStoreStep.write s.content i off _ ?_⟩
    rw [length_content, hw.extent_eq]
    exact Nat.le_max_right ..

theorem slot_setSize (s : FsState) (i n i' k : Nat) (o : FsOp) :
    (((s.setInode i { s.inode i with size := n }).iupdate i).setOp i o).slot i' k = s.slot i' k := by
  have ha : ((((s.setInode i { s.inode i with size := n }).iupdate i).setOp i o).inode i').addrs =
      (s.inode i').addrs := by
    show (Function.update s.inode i { s.inode i with size := n } i').addrs = _
    rcases eq_or_ne i' i with rfl | hi
    · rw [Function.update_self]
    · rw [Function.update_of_ne hi]
  exact slot_congr (fun _ => congrFun ha k) (fun _ => congrFun ha ndirect) fun _ _ => rfl

/-- The end of `writei`. -/
theorem FsInv.writeEnd (h : FsInv nmeta sz s) (ht : s.op i = .writing off []) :
    FsInv nmeta sz (s.writeEnd i off) ∧ (s.writeEnd i off).content = s.content := by
  have hext : s.extent i = max (s.inode i).size off := by rw [FsState.extent, ht, FsOp.extent]
  rw [FsState.writeEnd]
  split_ifs with hlt
  · set s' := ((s.setInode i { s.inode i with size := off }).iupdate i).setOp i .idle with hs'
    have hself : s'.inode i = { s.inode i with size := off } := Function.update_self ..
    have hop : s'.op i = .idle := Function.update_self ..
    have hslot (i' k : Nat) : s'.slot i' k = s.slot i' k := slot_setSize s i off i' k .idle
    have hext' : s'.extent i = s.extent i := by
      rw [FsState.extent, hop, hself, hext]
      exact (Nat.max_eq_right (Nat.le_of_lt hlt)).symm
    have hun (i' : Nat) (hi : i' ≠ i) : Untouched s s' i' :=
      ⟨Function.update_of_ne hi .., Function.update_of_ne hi .., Function.update_of_ne hi ..,
        fun _ _ => hslot i' _, fun _ _ => rfl⟩
    refine ⟨h.at (h.blocks.congr rfl ?_) hun (fun bn hbn => ?_) ?_ (fun _ _ => ?_) ?_ h.panics, ?_⟩
    · funext ⟨i', k⟩
      rcases eq_or_ne i' i with rfl | hi
      · rw [FsState.own, FsState.own]
        dsimp only
        rw [hslot, hop, ht]
        rfl
      · exact own_congr (hslot i' k) (Function.update_of_ne hi ..)
    · rw [hslot]
      exact h.mapped i bn (hext' ▸ hbn)
    · rw [hext']
      exact h.extent_le i
    · show Function.update s.dinode i _ i = s'.inode i
      rw [Function.update_self]
      rfl
    · rw [hop]
      exact trivial
    · funext i'
      rcases eq_or_ne i' i with rfl | hi
      · refine content_congr hext' fun x _ => ?_
        rw [FsState.byte, FsState.byte, hslot]
        rfl
      · exact (hun i' hi).content
  · have hext' : (s.setOp i .idle).extent i = s.extent i := by
      rw [FsState.extent, show (s.setOp i .idle).op i = .idle from Function.update_self .., hext]
      exact (Nat.max_eq_left (Nat.not_lt.mp hlt)).symm
    refine h.setOp (fun k e => ?_) (fun k e => by cases e) hext' trivial
    rw [ht] at e
    cases e

end SystemsPortfolio.Xv6
