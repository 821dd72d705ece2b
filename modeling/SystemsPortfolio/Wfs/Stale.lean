/-
SystemsPortfolio/Wfs/Stale.lean

What files store beyond their end.

A block is zeroed when it is allocated and when it is freed, and a write that
succeeds raises the size over all it has copied.  A write that fails does not:
the chunks it has copied before it stopped stay, the size does not move, and the
file can be extended over them later.  `run_no_stale_bytes` says that nothing
else leaves bytes behind: they are zero in all states of a run if and only if
every failing write of the run copies zeros beyond the end.
-/
import SystemsPortfolio.Wfs.Files
import SystemsPortfolio.Wfs.FileRuns

namespace SystemsPortfolio.Wfs

open ByteStore NameTree

variable {d : Disk} {s t : Fs} {i j o : Nat} {path buf : List UInt8} {env : Env}

/-! ### Offsets -/

theorem offT_offT_add (off : Int) (k : Nat) : offT (offT off + k) = offT (off + k) :=
  Int.bmod_add_bmod

/-- The loop of `wfs_write` sees its offset as an `off_t` only. -/
theorem writeLoop_offT (off : Int) (fuel done : Nat) :
    writeLoop i buf (offT off) fuel done s = writeLoop i buf off fuel done s := by
  induction fuel generalizing s done with
  | zero => rfl
  | succ fuel ih => simp only [writeLoop, offT_offT_add, ih]

theorem wfsWrite_offT (off : Int) : wfsWrite s path buf (offT off) env = wfsWrite s path buf off env := by
  simp only [wfsWrite, writeLoop_offT, offT_offT_add]

theorem offT_lt (off : Int) : offT off < 2 ^ 63 := by
  have h : offT off < (2 ^ 64 + 1) / 2 := Int.bmod_lt (by decide)
  omega

/-- A write before the start of a file copies nothing. -/
theorem wfsWrite_of_neg (hp : getInodeFromPath s (cleanPath path) = .ok i)
    (hfile : isDir (s.inodes i).mode = false) {off : Int} (hoff : offT off < 0) (buf : List UInt8)
    (env : Env) :
    ∃ ino, (wfsWrite s path buf off env).2.toDisk = (s.setInode i ino).toDisk ∧
      ino.mode = (s.inodes i).mode ∧ ino.blocks = (s.inodes i).blocks ∧
      (s.inodes i).size ≤ ino.size := by
  rcases buf with - | ⟨b, buf⟩
  · have e : writeLoop i [] off ([] : List UInt8).length 0 s = (some 0, s) := rfl
    rw [wfsWrite_of_some hp hfile e]
    refine ⟨_, rfl, ?_, writtenInode_blocks .., ?_⟩
    · rw [writtenInode_mode]
    · rw [writtenInode_size]
      exact le_max_left ..
  · -- the first round already fails
    have hzero : offT (off + (0 : Nat)) < 0 := by simpa using hoff
    have hnone : dataOffset s i (offT (off + (0 : Nat))) true = (none, { s with wfsError := -ENOENT }) := by
      rw [dataOffset, if_pos hzero]
    rw [wfsWrite_of_none hp hfile (writeLoop_fail (by simp) hnone)]
    refine ⟨s.inodes i, ?_, rfl, rfl, le_refl _⟩
    show s.toDisk = { s.toDisk with inodes := Function.update s.inodes i (s.inodes i) }
    rw [Function.update_eq_self]

/-! ### Bytes beyond the end -/

/-- What a regular file stores from its size on is zero. -/
def NoStale (s : Fs) : Prop :=
  ∀ i, Allocated s.toDisk i → isReg (s.inodes i).mode = true →
    ∀ x : Nat, (s.inodes i).size ≤ x → content s i x = 0

/-- A write from offset `o` on gets as far as offset `x`: the inode can map the block
of `x`, and there are free blocks for all up to it. -/
def CanStore (d : Disk) (i o x : Nat) : Prop :=
  x / 512 < 70 ∧ need d i (o / 512) (x / 512 - o / 512 + 1) ≤ freeBlocks d

/-- If the operation is a write that will not get to its end, then the bytes that it
copies beyond the end of the file are zero. -/
def Harmless (s : Fs) : Op → Prop
  | .write path buf off => ∀ i o : Nat, getInodeFromPath s (cleanPath path.bytes) = .ok i →
      isReg (s.inodes i).mode = true → offT off = o →
      (∃ x, o ≤ x ∧ x < o + buf.length ∧ ¬ CanStore s.toDisk i o x) →
      ∀ x : Nat, o ≤ x → x < o + buf.length → (s.inodes i).size ≤ x → CanStore s.toDisk i o x →
        buf.getD (x - o) 0 = 0
  | _ => True

theorem byteAt_of_bare (h : (d.inodes j).blocks = fun _ => 0) (x : Nat) : byteAt d j x = 0 := by
  have hslot (sl : Slot) : slotVal d j sl = 0 := by
    cases sl <;> simp [slotVal, h]
  rw [byteAt]
  split_ifs with hx h0
  · rfl
  · exact absurd (hslot _) h0
  · rfl

theorem NoStale.keepsFiles (h : NoStale s) (hk : KeepsFiles s.toDisk t.toDisk)
    (hb : Base s.toDisk) : NoStale t := by
  intro j hj hreg x hx
  rw [content_eq]
  by_cases hjs : Allocated s.toDisk j
  · have hfile := (hk.dir j hjs hj).symm.trans (isDir_eq_false_of_isReg hreg)
    have hregs : isReg (s.inodes j).mode = true :=
      (hb.kind j hjs).resolve_left (by rw [hfile]; simp)
    rw [(hk.same j hjs hj hfile).byteAt, ← content_eq]
    rw [hk.size j hjs hj hfile] at hx
    exact h j hjs hregs x hx
  · exact byteAt_of_bare (hk.bare j hjs hj) x

theorem NoStale.setInode (h : NoStale s) {ino : Inode} (hmode : ino.mode = (s.inodes i).mode)
    (hblocks : ino.blocks = (s.inodes i).blocks) (hsize : (s.inodes i).size ≤ ino.size)
    (ht : t.toDisk = (s.setInode i ino).toDisk) : NoStale t := by
  intro j hj hreg x hx
  rw [content_eq, ht, (sameBlocks_setInode hblocks j).byteAt, ← content_eq]
  rw [ht] at hj hreg hx
  rcases eq_or_ne j i with rfl | hji
  · rw [Fs.setInode_self] at hreg hx
    exact h j hj (by rw [← hmode]; exact hreg) x (le_trans hsize hx)
  · rw [Fs.setInode_ne hji] at hreg hx
    exact h j hj hreg x hx

/-- All bytes of a write that completes could be stored. -/
theorem Wrote.canStore {m x : Nat} (hw : Wrote s t i o buf buf.length m) (h₁ : o ≤ x)
    (h₂ : x < o + buf.length) : CanStore s.toDisk i o x := by
  have hspan := hw.progress.span
  have hmax := hw.progress.lt
  have hcount := hw.count
  have hmono : need s.toDisk i (o / 512) (x / 512 - o / 512 + 1) ≤ need s.toDisk i (o / 512) m :=
    need_mono (by omega)
  exact ⟨by omega, by omega⟩

/-- What happens inside one file leaves the tails of the others alone. -/
theorem NoStale.confined (h : NoStale s) (hc : Confined s.toDisk t.toDisk i) (hji : j ≠ i)
    (hj : Allocated t.toDisk j) (hreg : isReg (t.inodes j).mode = true) {x : Nat}
    (hx : (t.inodes j).size ≤ x) : byteAt t.toDisk j x = 0 := by
  have hjs := hc.allocated.mp hj
  rw [hc.others j hji] at hreg hx
  rw [(hc.same j hji hjs).byteAt, ← content_eq]
  exact h j hjs hreg x hx

theorem Wrote.noStale {m : Nat} {now : Int} (hw : Wrote s t i o buf buf.length m) (h : NoStale s) :
    NoStale (t.setInode i (writtenInode (t.inodes i) (o + buf.length : Nat) buf.length now)) := by
  have hsame := sameBlocks_setInode (s := t) (i := i)
    (writtenInode_blocks (t.inodes i) (o + buf.length : Nat) buf.length now)
  intro j hj hreg x hx
  rw [content_eq, (hsame j).byteAt]
  rcases eq_or_ne j i with rfl | hji
  · -- the size has been raised over everything that was copied
    rw [Fs.setInode_self] at hreg hx
    rw [writtenInode_size, hw.confined.field Inode.size fun _ _ => rfl] at hx
    rw [writtenInode_mode, hw.confined.field Inode.mode fun _ _ => rfl] at hreg
    rw [hw.bytes, if_neg (by omega), ← content_eq]
    exact h j (hw.confined.allocated.mp hj) hreg x (by omega)
  · rw [Fs.setInode_ne hji] at hreg hx
    exact h.confined hw.confined hji hj hreg hx

/-- After a write that stops, the tails are zero if the bytes copied into the tail were. -/
theorem Wrote.noStale_iff {s' : Fs} {k m : Nat} (hw : Wrote s s' i o buf k m) (hh : Halted s' t i)
    (h : NoStale s) (hi : Allocated s.toDisk i) (hreg : isReg (s.inodes i).mode = true) :
    NoStale t ↔ ∀ x : Nat, o ≤ x → x < o + k → (s.inodes i).size ≤ x → buf.getD (x - o) 0 = 0 := by
  have hc := hw.confined.trans hh.confined
  have hsize : (t.inodes i).size = (s.inodes i).size := hc.field Inode.size (fun _ _ => rfl) i
  have hmode : (t.inodes i).mode = (s.inodes i).mode := hc.field Inode.mode (fun _ _ => rfl) i
  have hbytes (x : Nat) : byteAt t.toDisk i x =
      if o ≤ x ∧ x < o + k then buf.getD (x - o) 0 else byteAt s.toDisk i x := by
    rw [hh.bytes, hw.bytes]
  constructor
  · intro ht x h₁ h₂ hx
    have hzero := ht i (hc.allocated.mpr hi) (by rw [hmode]; exact hreg) x (by rw [hsize]; exact hx)
    rwa [content_eq, hbytes, if_pos ⟨h₁, h₂⟩] at hzero
  · intro hz j hj hregj x hx
    rw [content_eq]
    rcases eq_or_ne j i with rfl | hji
    · rw [hsize] at hx
      rw [hbytes]
      split_ifs with hin
      · exact hz x hin.1 hin.2 hx
      · rw [← content_eq]
        exact h j hi hreg x hx
    · exact h.confined hc hji hj hregj hx

/-- The step lemma: an operation keeps the tails of files zero if and only if it is
harmless. -/
theorem noStale_exec_iff (hb : Base s.toDisk) (h : NoStale s) (op : Op) :
    NoStale (exec env op s).2 ↔ Harmless s op := by
  by_cases hop : ∃ path buf off, op = .write path buf off
  swap
  · have hno : ∀ path buf off, op ≠ .write path buf off := fun path buf off e => hop ⟨path, buf, off, e⟩
    have hharm : Harmless s op := by
      cases op with
      | write path buf off => exact absurd rfl (hno path buf off)
      | _ => trivial
    exact iff_of_true (h.keepsFiles (exec_keepsFiles hb hno) hb) hharm
  obtain ⟨path, buf, off, rfl⟩ := hop
  show NoStale (wfsWrite s path.bytes buf off env).2 ↔ _
  rcases hp : getInodeFromPath s (cleanPath path.bytes) with e | i
  · refine iff_of_true ?_ fun i o hi => ?_
    · rw [wfsWrite, hp]
      exact h
    · rw [hp] at hi
      cases hi
  have hi := getInodeFromPath_ok hp
  rcases hb.kind i hi with hdir | hreg
  · refine iff_of_true ?_ fun i' o hi' hreg => ?_
    · simp only [wfsWrite, hp, hdir, if_true]
      exact h
    · obtain rfl := Except.ok.inj (hp.symm.trans hi')
      rw [isDir_eq_false_of_isReg hreg] at hdir
      cases hdir
  have hfile := isDir_eq_false_of_isReg hreg
  rcases lt_or_ge (offT off) 0 with hneg | hpos
  · obtain ⟨ino, ht, hmode, hblocks, hsize⟩ := wfsWrite_of_neg hp hfile hneg buf env
    refine iff_of_true (h.setInode hmode hblocks hsize ht) fun i' o _ _ ho => ?_
    omega
  obtain ⟨o, ho⟩ := Int.eq_ofNat_of_zero_le hpos
  have hlt := offT_lt off
  rw [← wfsWrite_offT, ho]
  have hlt' : o < 2 ^ 63 := by omega
  -- in both outcomes `CanStore` tells what has been copied
  rcases wfsWrite_cases hb hp hfile hlt' buf env with
    ⟨t, m, hw, e⟩ | ⟨t, s', k, m, hw, hk, hh, hwhy, e⟩
  · rw [e]
    refine iff_of_true (hw.noStale h) fun i' o' hi' _ ho' => ?_
    obtain rfl := Except.ok.inj (hp.symm.trans hi')
    obtain rfl : o = o' := by omega
    rintro ⟨x, h₁, h₂, hx⟩
    exact absurd (hw.canStore h₁ h₂) hx
  · rw [e]
    have hcopied (x : Nat) (hx : o ≤ x) : x < o + k ↔ CanStore s.toDisk i o x :=
      hw.copied_iff hk hwhy hx
    rw [hw.noStale_iff hh h hi hreg]
    constructor
    · intro hz i' o' hi' _ ho' _ x h₁ _ hx hcan
      obtain rfl := Except.ok.inj (hp.symm.trans hi')
      obtain rfl : o = o' := by omega
      exact hz x h₁ ((hcopied x h₁).mpr hcan) hx
    · intro hharm x h₁ h₂ hx
      refine hharm i o hp hreg ho ⟨o + k, by omega, by omega, fun hcan => ?_⟩ x h₁ (by omega) hx
        ((hcopied x h₁).mp h₂)
      exact absurd ((hcopied (o + k) (by omega)).mpr hcan) (lt_irrefl _)

/-! ### Runs -/

theorem MkfsImage.noStale (h : MkfsImage d) : NoStale (mount d) := by
  intro i hi hreg
  obtain ⟨env, hroot⟩ := h.root
  rw [h.allocated.mp hi] at hreg
  have hmode : isReg (rootInode env).mode = false := by
    show isReg 0o040700#32 = false
    decide
  rw [show (mount d).inodes 0 = rootInode env from hroot, hmode] at hreg
  cases hreg

/-- In a state without stale bytes, a write that succeeds beyond the end of a file
leaves a gap of zeros. -/
theorem NoStale.gap (h : NoStale s) (hb : Base s.toDisk) {off : Nat} (hoff : off < 2 ^ 63)
    (hp : getInodeFromPath s (cleanPath path) = .ok i) (hreg : isReg (s.inodes i).mode = true)
    (hok : 0 ≤ (wfsWrite s path buf off env).1) {path' : List UInt8} {len' off' : Nat} {env' : Env}
    (hp' : getInodeFromPath (wfsWrite s path buf off env).2 (cleanPath path') = .ok i)
    (hoff' : (s.inodes i).size ≤ off') (hlen' : off' + len' ≤ off) :
    (wfsRead (wfsWrite s path buf off env).2 path' len' off' env').2.1 = List.replicate len' 0 := by
  have hfile := isDir_eq_false_of_isReg hreg
  rcases wfsWrite_cases hb hp hfile hoff buf env with ⟨t, m, hw, e⟩ | ⟨t, s', k, m, -, -, -, -, e⟩
  · rw [e] at hp' ⊢
    have hsame := sameBlocks_setInode (s := t) (i := i)
      (writtenInode_blocks (t.inodes i) (off + buf.length : Nat) buf.length (env.now 0))
    have hfile' : isDir (writtenInode (t.inodes i) (off + buf.length : Nat) buf.length
        (env.now 0)).mode = false := by
      rw [writtenInode_mode, hw.confined.field Inode.mode fun _ _ => rfl]
      exact hfile
    rw [wfsRead_bytes hp' (by rwa [Fs.setInode_self]) (by omega), Fs.setInode_self, writtenInode_size,
      hw.confined.field Inode.size fun _ _ => rfl,
      show min (off' + len') (max (s.inodes i).size (off + buf.length : Nat)).toNat - off' = len' by omega]
    -- the write has not touched what lies before its offset
    refine List.eq_replicate_iff.mpr ⟨by simp, fun b hbyte => ?_⟩
    obtain ⟨x, hx, rfl⟩ := List.mem_map.mp hbyte
    rw [List.mem_range'_1] at hx
    rw [(hsame i).byteAt, hw.bytes, if_neg (by omega), ← content_eq]
    exact h i (getInodeFromPath_ok hp) hreg x (by omega)
  · rw [e] at hok
    exact absurd hok (show ¬ (0 : Int) ≤ -ENOSPC by decide)

/-- No state of a run has stale bytes if and only if all writes of the run are
harmless; and then a write that succeeds beyond the end of a file leaves a gap
that reads as zeros. -/
theorem run_no_stale_bytes {ops : List (Env × Op)} (hd : MkfsImage d) (hs : run (mount d) ops = s) :
    (Meets Harmless (mount d) ops ↔ ∀ pre, pre <+: ops → NoStale (run (mount d) pre)) ∧
    (Meets Harmless (mount d) ops → ∀ (path : CString) (buf : List UInt8) (off : Nat) (env : Env)
      (i : Nat), off < 2 ^ 63 → getInodeFromPath s (cleanPath path.bytes) = .ok i →
      isReg (s.inodes i).mode = true → 0 ≤ (wfsWrite s path.bytes buf off env).1 →
      ∀ (path' : CString) (len' off' : Nat) (env' : Env),
        getInodeFromPath (wfsWrite s path.bytes buf off env).2 (cleanPath path'.bytes) = .ok i →
        (s.inodes i).size ≤ off' → off' + len' ≤ off →
        (wfsRead (wfsWrite s path.bytes buf off env).2 path'.bytes len' off' env').2.1 =
          List.replicate len' 0) := by
  subst hs
  have hiff : Meets Harmless (mount d) ops ↔ ∀ pre, pre <+: ops → NoStale (run (mount d) pre) :=
    meets_iff (B := fun t => Base t.toDisk) (fun _ op _ ht => (exec_effect ht op).base ht)
      (fun _ op _ ht hn => noStale_exec_iff ht hn op) hd.base hd.noStale ops
  refine ⟨hiff, fun hmeets path buf off env i hoff hp hreg hok path' len' off' env' hp' hoff' hlen' => ?_⟩
  have hn := hiff.mp hmeets ops (List.prefix_refl ops)
  exact hn.gap (base_run hd ops) hoff hp hreg hok hp' hoff' hlen'

theorem edgeStart_path : getInodeFromPath edgeStart (cleanPath smallPath.bytes) = .ok 1 := by
  decide +kernel

/-- A byte written at offset 3 of the new file: the three before it read as zeros. -/
theorem run_no_stale_bytes_gap :
    Meets Harmless (mount smallDisk) (edgeOps.take 1) ∧
      (wfsRead (wfsWrite edgeStart smallPath.bytes [7] (3 : Nat) plainEnv).2 smallPath.bytes 3 (0 : Nat)
        plainEnv).2.1 = [0, 0, 0] := by
  have hmeets : Meets Harmless (mount smallDisk) (edgeOps.take 1) := ⟨trivial, trivial⟩
  have hfile : isDir (edgeStart.inodes 1).mode = false := by decide +kernel
  have hloop : writeLoop 1 [7] (3 : Nat) [(7 : UInt8)].length 0 edgeStart =
      (some 1, (writeLoop 1 [7] (3 : Nat) 1 0 edgeStart).2) := Prod.ext (by decide +kernel) rfl
  have hwrite : wfsWrite edgeStart smallPath.bytes [7] (3 : Nat) plainEnv = _ :=
    wfsWrite_of_some edgeStart_path hfile hloop
  have hok : 0 ≤ (wfsWrite edgeStart smallPath.bytes [7] (3 : Nat) plainEnv).1 := by
    rw [hwrite]
    decide
  have hp' : getInodeFromPath (wfsWrite edgeStart smallPath.bytes [7] (3 : Nat) plainEnv).2
      (cleanPath smallPath.bytes) = .ok 1 := by
    rw [hwrite]
    decide +kernel
  have hstart : run (mount smallDisk) (edgeOps.take 1) = edgeStart := rfl
  have hgap := (run_no_stale_bytes smallDisk_mkfs.mkfsImage hstart).2 hmeets smallPath [7] 3 plainEnv 1
    (by decide) edgeStart_path (by decide +kernel) hok smallPath 3 0 plainEnv hp' (by decide +kernel)
    (by decide)
  exact ⟨hmeets, hgap⟩

/-- Make "/f", and write three bytes of which the last does not fit. -/
def staleOps : List (Env × Op) :=
  [(plainEnv, .mknod smallPath 0o100644#32), (plainEnv, .write smallPath [2, 3, 4] 35838)]

/-- The state in which the second write has stopped. -/
def staleState : Fs := (writeLoop 1 [2, 3, 4] 35838 3 0 edgeStart).2

theorem run_staleOps : run (mount smallDisk) staleOps = staleState := by
  have hloop : writeLoop 1 [2, 3, 4] 35838 [(2 : UInt8), 3, 4].length 0 edgeStart = (none, staleState) :=
    Prod.ext (by decide +kernel) rfl
  show (wfsWrite edgeStart smallPath.bytes [2, 3, 4] 35838 plainEnv).2 = staleState
  rw [wfsWrite_of_none edgeStart_path (by decide +kernel) hloop]

/-- The empty file "/f" stores the byte 2 beyond its end, and a later write lays it open. -/
theorem failed_write_leaves_bytes :
    ¬ NoStale (run (mount smallDisk) staleOps) ∧
      ((run (mount smallDisk) staleOps).inodes 1).size = 0 ∧
      (wfsRead (wfsWrite (run (mount smallDisk) staleOps) smallPath.bytes [9] (35839 : Nat) plainEnv).2
        smallPath.bytes 1 (35838 : Nat) plainEnv).2.1 = [2] := by
  rw [run_staleOps]
  have hp : getInodeFromPath staleState (cleanPath smallPath.bytes) = .ok 1 := by decide +kernel
  have hsize : (staleState.inodes 1).size = 0 := by decide +kernel
  refine ⟨fun h => ?_, hsize, ?_⟩
  · have hzero := h 1 (by decide +kernel) (by decide +kernel) 35838 (by rw [hsize]; decide)
    exact absurd hzero (by decide +kernel)
  · have hloop : writeLoop 1 [9] (35839 : Nat) [(9 : UInt8)].length 0 staleState =
        (some 1, (writeLoop 1 [9] (35839 : Nat) 1 0 staleState).2) := Prod.ext (by decide +kernel) rfl
    rw [wfsWrite_of_some hp (by decide +kernel) hloop,
      wfsRead_bytes (i := 1) (by decide +kernel) (by decide +kernel) (by decide)]
    decide +kernel

end SystemsPortfolio.Wfs
