/-
SystemsPortfolio/Wfs/FileData.lean

The bytes of regular files.

A file is a map from offsets to bytes: `content` reads it through
`data_offset`, `byteAt` through the slots of the inode.  The loop of `wfs_read`
delivers a stretch of this map (`readLoop_eq`).  The loop of `wfs_write`
changes it chunk by chunk; its invariant `Wrote` says what has been written,
which blocks have been touched, and how many free blocks that took.
-/
import SystemsPortfolio.Wfs.Runs

namespace SystemsPortfolio.Wfs

open ByteStore NameTree

variable {d d' : Disk} {s t : Fs} {i j p : Nat} {buf : List UInt8}

/-- The byte at offset `x`, as found through `data_offset` without allocation. -/
def content (s : Fs) (i x : Nat) : UInt8 :=
  match (dataOffset s i x false).1 with
  | none => 0
  | some a => s.data a

theorem content_eq (s : Fs) (i x : Nat) : content s i x = byteAt s.toDisk i x := by
  rw [content, byteAt]
  by_cases hx : x / 512 < 70
  · rw [dif_pos hx, dataOffset_false hx]
    dsimp only
    split_ifs <;> rfl
  · rw [dif_neg hx, dataOffset_of_ge (not_lt.mp hx)]

/-! ### Reading -/

/-- One chunk: the bytes of a block from `x` on, not past its end. -/
theorem map_byteAt_block {x n : Nat} (hx : x / 512 < 70) (hn : x % 512 + n ≤ 512) :
    (List.range' x n).map (byteAt d i) =
      if slotVal d i (leaf ⟨x / 512, hx⟩) = 0 then List.replicate n 0
      else load d.data (slotVal d i (leaf ⟨x / 512, hx⟩) + (x % 512 : Nat)) n := by
  have hbyte : ∀ k < n, byteAt d i (x + k) =
      if slotVal d i (leaf ⟨x / 512, hx⟩) = 0 then 0
      else d.data (slotVal d i (leaf ⟨x / 512, hx⟩) + (x % 512 : Nat) + (k : Int)) := by
    intro k hk
    have hdiv : (x + k) / 512 = x / 512 := by omega
    have hmod : (x + k) % 512 = x % 512 + k := by omega
    simp only [byteAt, hdiv, dif_pos hx, hmod, Nat.cast_add, Int.add_assoc]
  by_cases h0 : slotVal d i (leaf ⟨x / 512, hx⟩) = 0
  · simp only [if_pos h0] at hbyte ⊢
    apply List.ext_getElem
    · simp
    · intro k h₁ h₂
      simpa using hbyte k (by simpa using h₁)
  · simp only [if_neg h0] at hbyte ⊢
    apply List.ext_getElem
    · simp
    · intro k h₁ h₂
      simpa [load] using hbyte k (by simpa using h₁)

theorem map_byteAt_beyond {x n : Nat} (hx : 70 ≤ x / 512) :
    (List.range' x n).map (byteAt d i) = List.replicate n 0 := by
  apply List.ext_getElem
  · simp
  · intro k h₁ h₂
    have hdiv : ¬ (x + k) / 512 < 70 := by omega
    simp [byteAt, hdiv]

/-- Below 2^63 the addition of an offset and a length does not wrap. -/
theorem offT_add {x n : Nat} (h : x + n < 2 ^ 63) : offT ((x : Int) + n) = ((x + n : Nat) : Int) := by
  rw [offT, Int.bmod_eq_of_le] <;> omega

theorem chunkLen_natCast (x n : Nat) : chunkLen x n = min n (512 - x % 512) := by
  rw [chunkLen, Int.tmod_eq_emod_of_nonneg (by omega)]
  omega

/-- The loop of `wfs_read` delivers the bytes it was asked for. -/
theorem readLoop_eq {o toRead fuel done : Nat} (hfit : o + toRead < 2 ^ 63)
    (hfuel : toRead - done ≤ fuel) :
    (readLoop i o toRead fuel done s).1 =
      (List.range' (o + done) (toRead - done)).map (byteAt s.toDisk i) := by
  induction fuel generalizing s done with
  | zero =>
      rw [readLoop, Nat.le_zero.mp hfuel]
      rfl
  | succ fuel ih =>
      rw [readLoop]
      by_cases hlt : done < toRead
      · rw [if_pos hlt, offT_add (by omega)]
        simp only [chunkLen_natCast]
        generalize hc : min (toRead - done) (512 - (o + done) % 512) = c
        -- the rest of the loop reads the same image, `c` bytes further
        have hrest : (readLoop i o toRead fuel (done + c)
            (dataOffset s i ((o + done : Nat) : Int) false).2).1 = _ := ih (by omega)
        rw [dataOffset_false_toDisk] at hrest
        rw [hrest]
        have hsplit : toRead - done = c + (toRead - (done + c)) := by omega
        rw [hsplit, ← List.range'_append_1, List.map_append, Nat.add_assoc o done c]
        refine congrArg (· ++ _) ?_
        -- a chunk never crosses a block
        by_cases hx : (o + done) / 512 < 70
        · rw [map_byteAt_block hx (by omega), dataOffset_false hx]
          dsimp only
          split_ifs <;> rfl
        · rw [map_byteAt_beyond (not_lt.mp hx), dataOffset_of_ge (not_lt.mp hx)]
      · rw [if_neg hlt, show toRead - done = 0 by omega]
        rfl

section wfsRead

variable {path : List UInt8} {env : Env} {o len : Nat}

/-- How many bytes a read may deliver. -/
def readCount (size : Int) (off : Int) (len : Nat) : Nat :=
  if offT (off + len) > size then sizeT (size - off) else len

/-- The end of `wfs_read`, after its loop. -/
def finishRead (i : Nat) (env : Env) (r : List UInt8 × Fs) : Int × List UInt8 × Fs :=
  (cInt r.1.length, r.1,
    if 0 < r.1.length
    then r.2.setInode i (wfsUpdateTimes (r.2.inodes i) (env.now 0) true false false) else r.2)

/-- `wfs_read` of a regular file. -/
theorem wfsRead_file (hp : getInodeFromPath s (cleanPath path) = .ok i)
    (hfile : isDir (s.inodes i).mode = false) (off : Int) :
    wfsRead s path len off env = if off ≥ (s.inodes i).size then (0, [], s)
      else finishRead i env (readLoop i off (readCount (s.inodes i).size off len)
        (readCount (s.inodes i).size off len) 0 s) := by
  simp only [wfsRead, hp, hfile, Bool.false_eq_true, if_false, finishRead, readCount]
  by_cases hoff : off ≥ (s.inodes i).size
  · rw [if_pos hoff, if_pos hoff]
  · rw [if_neg hoff, if_neg hoff]
    by_cases hgt : offT (off + len) > (s.inodes i).size
    · simp only [if_pos hgt]
    · simp only [if_neg hgt]

theorem readCount_eq {size : Int} (hfit : o + len < 2 ^ 63) (hoff : ¬ (o : Int) ≥ size) :
    readCount size o len = min (o + len) size.toNat - o := by
  have hsum : offT ((o : Int) + len) = ((o + len : Nat) : Int) := by
    exact offT_add hfit
  rw [readCount, hsum]
  split_ifs with hgt
  · have hsz : (sizeT (size - o) : Int) = size - o := sizeT_of_nonneg (by omega) (by omega)
    omega
  · omega

/-- The bytes `wfs_read` delivers from a regular file. -/
theorem wfsRead_bytes (hp : getInodeFromPath s (cleanPath path) = .ok i)
    (hfile : isDir (s.inodes i).mode = false) (hfit : o + len < 2 ^ 63) :
    (wfsRead s path len o env).2.1 =
      (List.range' o (min (o + len) (s.inodes i).size.toNat - o)).map (byteAt s.toDisk i) := by
  rw [wfsRead_file hp hfile]
  by_cases hoff : (o : Int) ≥ (s.inodes i).size
  · rw [if_pos hoff, show min (o + len) (s.inodes i).size.toNat - o = 0 by omega]
    rfl
  · rw [if_neg hoff, finishRead, readCount_eq hfit hoff, readLoop_eq (by omega) (by omega),
      Nat.sub_zero, Nat.add_zero]

theorem wfsRead_ret (hp : getInodeFromPath s (cleanPath path) = .ok i)
    (hfile : isDir (s.inodes i).mode = false) (off : Int) :
    (wfsRead s path len off env).1 = cInt (wfsRead s path len off env).2.1.length := by
  rw [wfsRead_file hp hfile]
  by_cases hoff : off ≥ (s.inodes i).size
  · rw [if_pos hoff]
    show (0 : Int) = cInt 0
    decide
  · rw [if_neg hoff, finishRead]

/-- `wfs_read` changes nothing but the access time of the file. -/
theorem wfsRead_toDisk (hp : getInodeFromPath s (cleanPath path) = .ok i)
    (hfile : isDir (s.inodes i).mode = false) (off : Int) :
    ∃ a, (wfsRead s path len off env).2.2.toDisk =
      { s.toDisk with inodes := Function.update s.inodes i { s.inodes i with atim := a } } := by
  have hsame : ∃ a, s.toDisk =
      { s.toDisk with inodes := Function.update s.inodes i { s.inodes i with atim := a } } :=
    ⟨(s.inodes i).atim, by rw [Function.update_eq_self]⟩
  rw [wfsRead_file hp hfile]
  by_cases hoff : off ≥ (s.inodes i).size
  · rw [if_pos hoff]
    exact hsame
  rw [if_neg hoff]
  have hs₁ : (readLoop i off (readCount (s.inodes i).size off len)
      (readCount (s.inodes i).size off len) 0 s).2.toDisk = s.toDisk := readLoop_toDisk
  generalize readLoop i off _ _ 0 s = r at hs₁
  rw [finishRead]
  by_cases hpos : 0 < r.1.length
  · simp only [if_pos hpos, Fs.setInode, hs₁]
    exact ⟨env.now 0, rfl⟩
  · simp only [if_neg hpos, hs₁]
    exact hsame

end wfsRead

/-! ### Writing one chunk -/

theorem putChunk_slotVal {a : Int} {done c : Nat} {b : Fin 70} (ho : Owned t.toDisk)
    (hi : Allocated t.toDisk i) (hne : slotVal t.toDisk i (leaf b) ≠ 0)
    (h₁ : slotVal t.toDisk i (leaf b) ≤ a) (h₂ : a + c ≤ slotVal t.toDisk i (leaf b) + 512)
    (tl : Slot) : slotVal (putChunk t a buf done c).toDisk i tl = slotVal t.toDisk i tl := by
  have hW : Within t.toDisk (putChunk t a buf done c).toDisk (slotVal t.toDisk i (leaf b)) := by
    intro y hy
    apply store_of_disjoint
    rw [List.length_take]
    omega
  exact ho.slotVal_of_within hi (leaf_ne_ind b) hne hW rfl tl

/-- What the file holds after a chunk has been copied into block `b`. -/
theorem byteAt_putChunk {r done c : Nat} {b : Fin 70} (ho : Owned t.toDisk)
    (hi : Allocated t.toDisk i) (hne : slotVal t.toDisk i (leaf b) ≠ 0) (hr : r + c ≤ 512)
    (hlen : done + c ≤ buf.length) (y : Nat) :
    byteAt (putChunk t (slotVal t.toDisk i (leaf b) + r) buf done c).toDisk i y =
      if 512 * b.val + r ≤ y ∧ y < 512 * b.val + r + c then buf.getD (y - (512 * b.val + r) + done) 0
      else byteAt t.toDisk i y := by
  have hslot : ∀ tl, slotVal (putChunk t (slotVal t.toDisk i (leaf b) + r) buf done c).toDisk i tl =
      slotVal t.toDisk i tl := putChunk_slotVal ho hi hne (by omega) (by omega)
  rw [byteAt, byteAt]
  by_cases hy : y / 512 < 70
  · simp only [dif_pos hy, hslot]
    by_cases hyb : y / 512 = b.val
    · -- the byte lies in the block that is written
      have hb : (⟨y / 512, hy⟩ : Fin 70) = b := Fin.ext hyb
      rw [hb, if_neg hne, if_neg hne]
      by_cases hin : 512 * b.val + r ≤ y ∧ y < 512 * b.val + r + c
      · rw [if_pos hin]
        have hidx : slotVal t.toDisk i (leaf b) + ((y % 512 : Nat) : Int) =
            slotVal t.toDisk i (leaf b) + r + ((y - (512 * b.val + r) : Nat) : Int) := by omega
        have hlt : y - (512 * b.val + r) < ((buf.drop done).take c).length := by
          rw [List.length_take, List.length_drop]
          omega
        rw [hidx]
        refine (store_of_mem hlt).trans ?_
        rw [List.getD_eq_getElem?_getD, List.getD_eq_getElem?_getD, List.getElem?_take_of_lt (by omega),
          List.getElem?_drop, Nat.add_comm done]
      · rw [if_neg hin]
        apply store_of_disjoint
        rw [List.length_take]
        omega
    · -- it lies in another block of the same file
      have hb : (⟨y / 512, hy⟩ : Fin 70) ≠ b := fun e => hyb (congrArg Fin.val e)
      have hout : ¬ (512 * b.val + r ≤ y ∧ y < 512 * b.val + r + c) := by omega
      rw [if_neg hout]
      by_cases h0 : slotVal t.toDisk i (leaf ⟨y / 512, hy⟩) = 0
      · rw [if_pos h0, if_pos h0]
      · rw [if_neg h0, if_neg h0]
        have hdis := ho.disjoint hi hi (fun e => hb (leaf_injective (Prod.mk.inj e).2)) h0 hne
        apply store_of_disjoint
        rw [List.length_take]
        omega
  · have hb := b.isLt
    rw [dif_neg hy, dif_neg hy, if_neg (by omega)]

/-! ### How many blocks a write needs -/

/-- Block `b` of inode `i` is a hole. -/
def isHole (d : Disk) (i b : Nat) : Bool :=
  if h : b < 70 then slotVal d i (leaf ⟨b, h⟩) = 0 else false

/-- How many free blocks it takes to reach the `n` blocks of inode `i` from block
`lo` on. -/
def need (d : Disk) (i lo n : Nat) : Nat :=
  (List.range' lo n).countP (isHole d i) +
    if 0 < n ∧ 6 < lo + n ∧ slotVal d i .ind = 0 then 1 else 0

theorem need_succ (d : Disk) (i lo n : Nat) : need d i lo (n + 1) = need d i lo n +
    ((if isHole d i (lo + n) = true then 1 else 0) +
      if 6 ≤ lo + n ∧ slotVal d i .ind = 0 ∧ ¬ (0 < n ∧ 6 < lo + n) then 1 else 0) := by
  rw [need, need, List.range'_1_concat, List.countP_append, List.countP_singleton]
  by_cases h0 : slotVal d i .ind = 0
  · simp only [h0, and_true, true_and]
    split_ifs <;> omega
  · simp only [h0, and_false, false_and, if_false]
    omega

theorem need_mono {lo n m : Nat} (h : n ≤ m) : need d i lo n ≤ need d i lo m := by
  induction h with
  | refl => exact le_refl _
  | step _ ih =>
      rw [need_succ]
      omega

/-! ### The loop of `wfs_write` -/

/-- How far the loop has come: `done` bytes in `n` blocks, the last of them full
unless everything has been written. -/
structure Progress (o len done n : Nat) : Prop where
  le : done ≤ len
  span : (n = 0 ∧ done = 0) ∨ (0 < n ∧ 512 * (o / 512 + n) < o + done + 512 ∧
    o + done ≤ 512 * (o / 512 + n) ∧ (done = len ∨ o + done = 512 * (o / 512 + n)))
  lt : n = 0 ∨ o / 512 + n ≤ 70

theorem Progress.next {o len done n : Nat} (h : Progress o len done n) (hlt : done < len) :
    (o + done) / 512 = o / 512 + n := by
  rcases h.span with ⟨rfl, rfl⟩ | ⟨hn, h₁, h₂, h₃⟩
  · rfl
  · omega

/-- After `done` bytes of `buf` have been written at offset `o`. -/
structure Wrote (s₀ s : Fs) (i o : Nat) (buf : List UInt8) (done n : Nat) : Prop where
  progress : Progress o buf.length done n
  confined : Confined s₀.toDisk s.toDisk i
  bytes : ∀ y, byteAt s.toDisk i y =
    if o ≤ y ∧ y < o + done then buf.getD (y - o) 0 else byteAt s₀.toDisk i y
  slots : ∀ tl, slotVal s.toDisk i tl = 0 ↔ slotVal s₀.toDisk i tl = 0 ∧
    (∀ b : Fin 70, o / 512 ≤ b.val → b.val < o / 512 + n → tl ≠ leaf b) ∧
    ¬ (tl = .ind ∧ 0 < n ∧ 6 < o / 512 + n)
  count : freeBlocks s.toDisk + need s₀.toDisk i (o / 512) n = freeBlocks s₀.toDisk

theorem Wrote.start {o : Nat} (ho : Owned s.toDisk) : Wrote s s i o buf 0 0 where
  progress := ⟨Nat.zero_le _, Or.inl ⟨rfl, rfl⟩, Or.inl rfl⟩
  confined := Confined.refl ho
  bytes y := by rw [if_neg (by omega)]
  slots tl := ⟨fun h => ⟨h, fun b _ _ => by omega, fun h => by omega⟩, fun h => h.1⟩
  count := by simp [need]

section Wrote

variable {s₀ : Fs} {o done n : Nat}

/-- What it costs to reach the next block is what the whole write needs more. -/
theorem Wrote.cost (hw : Wrote s₀ s i o buf done n) {b : Fin 70} (hb : b.val = o / 512 + n) :
    need s₀.toDisk i (o / 512) (n + 1) = need s₀.toDisk i (o / 512) n + cost s.toDisk i b := by
  have hleaf : slotVal s.toDisk i (leaf b) = 0 ↔ slotVal s₀.toDisk i (leaf b) = 0 := by
    rw [hw.slots]
    refine ⟨fun h => h.1, fun h => ⟨h, fun b' _ h₂ e => ?_, fun h' => leaf_ne_ind b h'.1⟩⟩
    have := congrArg Fin.val (leaf_injective e)
    omega
  have hind : slotVal s.toDisk i .ind = 0 ↔
      slotVal s₀.toDisk i .ind = 0 ∧ ¬ (0 < n ∧ 6 < o / 512 + n) := by
    rw [hw.slots]
    refine ⟨fun h => ⟨h.1, fun h' => h.2.2 ⟨rfl, h'⟩⟩, fun h => ⟨h.1, fun b' _ _ e => ?_, fun h' => h.2 h'.2⟩⟩
    exact leaf_ne_ind b' e.symm
  have hhole : isHole s₀.toDisk i (o / 512 + n) = true ↔ slotVal s₀.toDisk i (leaf b) = 0 := by
    have hlt := b.isLt
    have hfin : (⟨o / 512 + n, by omega⟩ : Fin 70) = b := Fin.ext hb.symm
    rw [isHole, dif_pos (by omega), hfin, decide_eq_true_eq]
  rw [need_succ, Wfs.cost]
  simp only [hhole, hleaf, hind, hb]

/-- One round of the loop: block `b` is reached and a chunk copied into it. -/
theorem Wrote.round (hw : Wrote s₀ s i o buf done n) (hi : Allocated s₀.toDisk i)
    (hlt : done < buf.length) {b : Fin 70} (hb : b.val = o / 512 + n) (hr : Reached s t i b) :
    Wrote s₀ (putChunk t (slotVal t.toDisk i (leaf b) + ((o + done) % 512 : Nat)) buf done
        (min (buf.length - done) (512 - (o + done) % 512))) i o buf
      (done + min (buf.length - done) (512 - (o + done) % 512)) (n + 1) := by
  have hnext := hw.progress.next hlt
  have hblt := b.isLt
  have hit : Allocated t.toDisk i := hr.confined.allocated.mpr (hw.confined.allocated.mpr hi)
  generalize hc : min (buf.length - done) (512 - (o + done) % 512) = c
  have hpos : 512 * b.val + (o + done) % 512 = o + done := by omega
  have hslot : ∀ tl, slotVal (putChunk t (slotVal t.toDisk i (leaf b) + ((o + done) % 512 : Nat)) buf
      done c).toDisk i tl = slotVal t.toDisk i tl :=
    putChunk_slotVal hr.confined.owned hit hr.used (by omega) (by omega)
  refine ⟨⟨by omega, ?_, by omega⟩, ?_, fun y => ?_, fun tl => ?_, ?_⟩
  · rcases hw.progress.span with ⟨rfl, rfl⟩ | ⟨hn, h₁, h₂, h₃⟩
    · omega
    · omega
  · exact (hw.confined.trans hr.confined).trans (Confined.putChunk hr.confined.owned hit
      (leaf_ne_ind b) hr.used (by omega) (by omega))
  · -- a byte of this chunk, one of an earlier chunk, or neither
    rw [byteAt_putChunk hr.confined.owned hit hr.used (by omega) (by omega), hpos, hr.bytes, hw.bytes]
    by_cases hin : o + done ≤ y ∧ y < o + done + c
    · rw [if_pos hin, if_pos (by omega), show y - (o + done) + done = y - o by omega]
    · rw [if_neg hin]
      by_cases hold : o ≤ y ∧ y < o + done
      · rw [if_pos hold, if_pos (by omega)]
      · rw [if_neg hold, if_neg (by omega)]
  · -- the holes that are left: those of before, without block `b` and what it needs
    rw [hslot, hr.slots, hw.slots]
    constructor
    · rintro ⟨⟨h0, hold, hind⟩, hnew, hnind⟩
      refine ⟨h0, fun b' h₁ h₂ => ?_, fun h' => hnind ⟨h'.1, by omega⟩⟩
      by_cases hbb : b' = b
      · rw [hbb]
        exact hnew
      · have hv : b'.val ≠ b.val := fun e => hbb (Fin.ext e)
        exact hold b' h₁ (by omega)
    · rintro ⟨h0, hall, hnind⟩
      refine ⟨⟨h0, fun b' h₁ h₂ => hall b' h₁ (by omega), fun h' => hnind ⟨h'.1, by omega⟩⟩,
        hall b (by omega) (by omega), fun h' => hnind ⟨h'.1, by omega⟩⟩
  · have hcost := hw.cost hb
    have hcount := hr.count
    have hold := hw.count
    show freeBlocks t.toDisk + _ = _
    omega

/-- The loop has stopped at a block, having written nothing into it. -/
structure Halted (s t : Fs) (i : Nat) : Prop where
  confined : Confined s.toDisk t.toDisk i
  bytes : ∀ y, byteAt t.toDisk i y = byteAt s.toDisk i y
  error : t.wfsError = -ENOSPC

/-- The run lemma of the loop: it writes everything, or stops at a block that is
out of range or for which there are not enough free blocks. -/
theorem writeLoop_cases {fuel : Nat} (ho : o < 2 ^ 63) (hi : Allocated s₀.toDisk i)
    (hw : Wrote s₀ s i o buf done n) (hfuel : buf.length - done ≤ fuel) :
    (∃ t m, writeLoop i buf o fuel done s = (some buf.length, t) ∧
      Wrote s₀ t i o buf buf.length m) ∨
    ∃ t s' k m, writeLoop i buf o fuel done s = (none, t) ∧ Wrote s₀ s' i o buf k m ∧
      k < buf.length ∧ Halted s' t i ∧
      (70 ≤ o / 512 + m ∨ freeBlocks s₀.toDisk < need s₀.toDisk i (o / 512) (m + 1)) := by
  induction fuel generalizing s done n with
  | zero =>
      have hle := hw.progress.le
      obtain rfl : done = buf.length := by omega
      exact Or.inl ⟨s, n, rfl, hw⟩
  | succ fuel ih =>
      by_cases hlt : done < buf.length
      · have hnext := hw.progress.next hlt
        have hoff : offT ((o : Int) + done) = ((o + done : Nat) : Int) := by
          have hspan := hw.progress.span
          have hmax := hw.progress.lt
          exact offT_add (by omega)
        have his : Allocated s.toDisk i := hw.confined.allocated.mpr hi
        -- the next block is reached, is starved of free blocks, or is out of range
        by_cases hb : (o + done) / 512 < 70
        · rcases dataOffset_true hw.confined.owned his hb with ⟨t, hr, e⟩ | ⟨t, hst, e⟩
          · rw [← hoff] at e
            rw [writeLoop_step hlt e, hoff, chunkLen_natCast]
            exact ih (hw.round hi hlt hnext hr) (by omega)
          · rw [← hoff] at e
            rw [writeLoop_fail hlt e]
            refine Or.inr ⟨t, s, done, n, rfl, hw, hlt, ⟨hst.confined, hst.bytes, hst.error⟩, Or.inr ?_⟩
            have hcost := hw.cost (b := ⟨(o + done) / 512, hb⟩) hnext
            have hcount := hw.count
            have hless := hst.count
            omega
        · have e := dataOffset_of_ge (s := s) (i := i) (not_lt.mp hb) true
          rw [← hoff] at e
          rw [writeLoop_fail hlt e]
          exact Or.inr ⟨_, s, done, n, rfl, hw, hlt,
            ⟨Confined.refl hw.confined.owned, fun _ => rfl, rfl⟩, Or.inl (by omega)⟩
      · have hle := hw.progress.le
        obtain rfl : done = buf.length := by omega
        rw [writeLoop_stop (le_refl _)]
        exact Or.inl ⟨s, n, rfl, hw⟩

end Wrote

end SystemsPortfolio.Wfs
