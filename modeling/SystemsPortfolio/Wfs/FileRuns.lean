/-
SystemsPortfolio/Wfs/FileRuns.lean

Reading and writing regular files in reachable states.

`run_file_data` says that a file is a byte map: a successful write changes
exactly the bytes it was given, a read delivers the bytes of the map.
`run_failed_write` says when a write that fails leaves its file as it was: the
loop of `wfs_write` does not take back the chunks it has copied, so these
chunks must have held the same bytes before.
-/
import Mathlib.Data.List.Find
import SystemsPortfolio.Wfs.FileData

namespace SystemsPortfolio.Wfs

open ByteStore NameTree

variable {d : Disk} {s t : Fs} {i j p o : Nat} {path buf : List UInt8} {env : Env}

/-! ### `wfs_write` -/

/-- The inode after a successful write of `done` bytes that ends at `newEnd`. -/
def writtenInode (ino : Inode) (newEnd : Int) (done : Nat) (now : Int) : Inode :=
  let ino := { ino with size := if newEnd > ino.size then newEnd else ino.size }
  if 0 < done then wfsUpdateTimes ino now false true true else ino

theorem writtenInode_blocks (ino : Inode) (newEnd : Int) (done : Nat) (now : Int) :
    (writtenInode ino newEnd done now).blocks = ino.blocks := by
  rw [writtenInode]
  split_ifs <;> rfl

theorem writtenInode_mode (ino : Inode) (newEnd : Int) (done : Nat) (now : Int) :
    (writtenInode ino newEnd done now).mode = ino.mode := by
  rw [writtenInode]
  split_ifs <;> rfl

theorem writtenInode_size (ino : Inode) (newEnd : Int) (done : Nat) (now : Int) :
    (writtenInode ino newEnd done now).size = max ino.size newEnd := by
  rw [writtenInode]
  split_ifs <;> simp only [wfsUpdateTimes] <;> omega

theorem wfsWrite_of_some (hp : getInodeFromPath s (cleanPath path) = .ok i)
    (hfile : isDir (s.inodes i).mode = false) {off : Int} {done : Nat}
    (e : writeLoop i buf off buf.length 0 s = (some done, t)) :
    wfsWrite s path buf off env =
      (cInt done, t.setInode i (writtenInode (t.inodes i) (offT (off + done)) done (env.now 0))) := by
  simp only [wfsWrite, hp, hfile, Bool.false_eq_true, if_false, e, writtenInode]

theorem wfsWrite_of_none (hp : getInodeFromPath s (cleanPath path) = .ok i)
    (hfile : isDir (s.inodes i).mode = false) {off : Int}
    (e : writeLoop i buf off buf.length 0 s = (none, t)) :
    wfsWrite s path buf off env = (errorCode t, t) := by
  simp only [wfsWrite, hp, hfile, Bool.false_eq_true, if_false, e]

/-- `wfs_write` of a regular file: everything is written, or the loop halts. -/
theorem wfsWrite_cases (h : Base s.toDisk) (hp : getInodeFromPath s (cleanPath path) = .ok i)
    (hfile : isDir (s.inodes i).mode = false) (ho : o < 2 ^ 63) (buf : List UInt8) (env : Env) :
    (∃ t m, Wrote s t i o buf buf.length m ∧ wfsWrite s path buf o env = ((buf.length : Int),
      t.setInode i (writtenInode (t.inodes i) (o + buf.length : Nat) buf.length (env.now 0)))) ∨
    ∃ t s' k m, Wrote s s' i o buf k m ∧ k < buf.length ∧ Halted s' t i ∧
      (70 ≤ o / 512 + m ∨ freeBlocks s.toDisk < need s.toDisk i (o / 512) (m + 1)) ∧
      wfsWrite s path buf o env = (-ENOSPC, t) := by
  have hi := getInodeFromPath_ok hp
  have hstart : Wrote s s i o buf 0 0 := Wrote.start h.owned
  rcases writeLoop_cases ho hi hstart (Nat.sub_le _ _) with
    ⟨t, m, e, hw⟩ | ⟨t, s', k, m, e, hw, hk, hh, hwhy⟩
  · -- a file never grows beyond what its inode can map, so the count fits
    have hspan := hw.progress.span
    have hmax := hw.progress.lt
    have hret : cInt buf.length = buf.length := by
      rw [cInt, Int.bmod_eq_of_le] <;> omega
    have hend : offT ((o : Int) + buf.length) = ((o + buf.length : Nat) : Int) :=
      offT_add (by omega)
    refine Or.inl ⟨t, m, hw, ?_⟩
    rw [wfsWrite_of_some hp hfile e, hret, hend]
  · refine Or.inr ⟨t, s', k, m, hw, hk, hh, hwhy, ?_⟩
    have herr : errorCode t = -ENOSPC := by
      rw [errorCode, hh.error]
      decide
    rw [wfsWrite_of_none hp hfile e, herr]

/-- A write that does not fail is a write to a regular file. -/
theorem wfsWrite_nonneg (h : Base s.toDisk) {off : Int} (hok : 0 ≤ (wfsWrite s path buf off env).1) :
    ∃ i, getInodeFromPath s (cleanPath path) = .ok i ∧ isReg (s.inodes i).mode = true := by
  rcases hp : getInodeFromPath s (cleanPath path) with e | i
  · have hneg := getInodeFromPath_error hp
    simp only [wfsWrite, hp] at hok
    omega
  · rcases h.kind i (getInodeFromPath_ok hp) with hdir | hreg
    · simp only [wfsWrite, hp, hdir, if_true] at hok
      exact absurd hok (by decide)
    · exact ⟨i, rfl, hreg⟩

/-! ### Files are byte maps -/

/-- In every reachable state: a successful write of at least one byte returns
the number of bytes, changes exactly these bytes of the file, extends its size
as needed, and leaves all other files and the entries of all directories alone;
a read delivers the bytes of the file up to its size and changes nothing but the
access time. -/
theorem run_file_data {ops : List (Env × Op)} (hd : MkfsImage d) (hs : run (mount d) ops = s) :
    (∀ (path : CString) (buf : List UInt8) (off : Nat) (env : Env), 1 ≤ buf.length →
      off + buf.length < 2 ^ 31 → 0 ≤ (wfsWrite s path.bytes buf off env).1 →
      ∃ i, getInodeFromPath s (cleanPath path.bytes) = .ok i ∧ isReg (s.inodes i).mode = true ∧
        (wfsWrite s path.bytes buf off env).1 = buf.length ∧
        (∀ x, content (wfsWrite s path.bytes buf off env).2 i x =
          if off ≤ x ∧ x < off + buf.length then buf.getD (x - off) 0 else content s i x) ∧
        ((wfsWrite s path.bytes buf off env).2.inodes i).size =
          max (s.inodes i).size (off + buf.length : Nat) ∧
        (∀ j, j ≠ i → Allocated s.toDisk j → isReg (s.inodes j).mode = true →
          (∀ x, content (wfsWrite s path.bytes buf off env).2 j x = content s j x) ∧
          ((wfsWrite s path.bytes buf off env).2.inodes j).size = (s.inodes j).size) ∧
        ∀ p idx, (space s.toDisk).dir p → idx < 96 →
          liveEntry (wfsWrite s path.bytes buf off env).2.toDisk p idx = liveEntry s.toDisk p idx) ∧
    (∀ (path : CString) (len off : Nat) (env : Env) (i : Nat),
      getInodeFromPath s (cleanPath path.bytes) = .ok i → isReg (s.inodes i).mode = true →
      off + len < 2 ^ 63 →
      (wfsRead s path.bytes len off env).2.1 =
        (List.range' off (min (off + len) (s.inodes i).size.toNat - off)).map (content s i) ∧
      (len < 2 ^ 31 → (wfsRead s path.bytes len off env).1 =
        (wfsRead s path.bytes len off env).2.1.length) ∧
      ∃ a, (wfsRead s path.bytes len off env).2.2.toDisk =
        { s.toDisk with inodes := Function.update s.inodes i { s.inodes i with atim := a } }) := by
  subst hs
  have hb := base_run hd ops
  generalize run (mount d) ops = s at hb
  refine ⟨fun path buf off env hlen hfit hok => ?_, fun path len off env i hp hreg hfit => ?_⟩
  · -- the write: what the loop says about the bytes, the inode update changes no pointer
    obtain ⟨i, hp, hreg⟩ := wfsWrite_nonneg hb hok
    have hfile := isDir_eq_false_of_isReg hreg
    have hcalm : Calm s.toDisk (wfsWrite s path.bytes buf off env).2.toDisk := wfsWrite_calm hb
    refine ⟨i, hp, hreg, ?_⟩
    have ho : off < 2 ^ 63 := by omega
    rcases wfsWrite_cases hb hp hfile ho buf env with ⟨t, m, hw, e⟩ | ⟨t, s', k, m, -, -, -, -, e⟩
    · rw [e] at hcalm ⊢
      have hsame := sameBlocks_setInode (s := t) (i := i)
        (writtenInode_blocks (t.inodes i) (off + buf.length : Nat) buf.length (env.now 0))
      refine ⟨rfl, fun x => ?_, ?_, fun j hji hj _ => ⟨fun x => ?_, ?_⟩, hcalm.quiet.live⟩
      · rw [content_eq, content_eq, (hsame i).byteAt, hw.bytes]
      · rw [Fs.setInode_self, writtenInode_size, hw.confined.inode]
      · rw [content_eq, content_eq, (hsame j).byteAt, (hw.confined.same j hji hj).byteAt]
      · rw [Fs.setInode_ne hji, hw.confined.others j hji]
    · rw [e] at hok
      exact absurd hok (show ¬ (0 : Int) ≤ -ENOSPC by decide)
  · -- the read: the returned count is cut to an int, which `len` fits
    have hfile := isDir_eq_false_of_isReg hreg
    have hbytes : (wfsRead s path.bytes len off env).2.1 = _ := wfsRead_bytes hp hfile hfit
    refine ⟨?_, fun hlen => ?_, wfsRead_toDisk hp hfile off⟩
    · rw [hbytes, show content s i = byteAt s.toDisk i from funext (content_eq s i)]
    · have hle : (wfsRead s path.bytes len off env).2.1.length ≤ len := by
        rw [hbytes, List.length_map, List.length_range']
        omega
      rw [wfsRead_ret hp hfile, cInt, Int.bmod_eq_of_le] <;> omega

/-- The same on a small image: two bytes written across a block boundary. -/
theorem run_file_data_small :
    content (wfsWrite (run (mount smallDisk) smallOps) smallPath.bytes [7, 8] (511 : Nat) plainEnv).2
        1 512 = 8 ∧
      (wfsRead (run (mount smallDisk) smallOps) smallPath.bytes 10 (1 : Nat) plainEnv).2.1 = [2] := by
  have hp : getInodeFromPath (run (mount smallDisk) smallOps) (cleanPath smallPath.bytes) = .ok 1 := by
    decide
  have hloop : writeLoop 1 [7, 8] (511 : Nat) [(7 : UInt8), 8].length 0 (run (mount smallDisk) smallOps) =
      (some 2, (writeLoop 1 [7, 8] (511 : Nat) 2 0 (run (mount smallDisk) smallOps)).2) :=
    Prod.ext (by decide +kernel) rfl
  have hok : 0 ≤ (wfsWrite (run (mount smallDisk) smallOps) smallPath.bytes [7, 8] (511 : Nat)
      plainEnv).1 := by
    rw [wfsWrite_of_some hp (by decide) hloop]
    decide
  obtain ⟨hwrite, hread⟩ := run_file_data (s := run (mount smallDisk) smallOps)
    smallDisk_mkfs.mkfsImage rfl
  obtain ⟨i, hi, -, -, hbytes, -⟩ := hwrite smallPath [7, 8] 511 plainEnv (by decide) (by decide) hok
  obtain rfl : 1 = i := Except.ok.inj (hp.symm.trans hi)
  refine ⟨(hbytes 512).trans (by decide), ?_⟩
  rw [(hread smallPath 10 1 plainEnv 1 hp (by decide) (by decide)).1]
  decide

/-! ### Writes that fail -/

section lookup

variable {name : List UInt8}

/-- A directory that has not been touched is searched with the same result. -/
theorem dentryToNum_frame (hblocks : SameBlocks s.toDisk t.toDisk p)
    (hino : t.inodes p = s.inodes p) : dentryToNum t name p = dentryToNum s name p := by
  have hsame : ∀ idx, idx < 96 → SameEntry s.toDisk t.toDisk p idx := fun _ => hblocks.sameEntry
  have htest : ∀ idx ∈ dirEntries (s.inodes p).size,
      (hasEntry t.toDisk p idx && !entryFree t.toDisk p idx &&
        strncmpEq 28 (entryName t.toDisk p idx) name) =
      (hasEntry s.toDisk p idx && !entryFree s.toDisk p idx &&
        strncmpEq 28 (entryName s.toDisk p idx) name) := by
    intro idx hidx
    have h := hsame idx (lt_of_mem_dirEntries hidx)
    rw [h.hasEntry]
    by_cases hb : (s.inodes p).blocks (idx / 16) = 0
    · simp [hasEntry, hb]
    · rw [entryFree, entryFree, h.num hb, h.name hb, h.first hb]
  rw [dentryToNum, dentryToNum, hino, List.find?_congr htest]
  split_ifs
  · rfl
  · rcases e : (dirEntries (s.inodes p).size).find? _ with - | idx
    · rfl
    · have hmem := lt_of_mem_dirEntries (List.mem_of_find?_eq_some e)
      have hfound := List.find?_some e
      simp only [hasEntry, Bool.and_eq_true, decide_eq_true_eq] at hfound
      exact (hsame idx hmem).num hfound.1.1

theorem Confined.dentryToNum (hc : Confined s.toDisk t.toDisk i)
    (hfile : isDir (s.inodes i).mode = false) (hp : Allocated s.toDisk p) :
    dentryToNum t name p = dentryToNum s name p := by
  rcases eq_or_ne p i with rfl | hpi
  · have hmode := hc.field Inode.mode (fun _ _ => rfl) p
    rw [Wfs.dentryToNum, Wfs.dentryToNum, hmode, if_pos hfile, if_pos hfile]
  · exact dentryToNum_frame (hc.same p hpi hp) (hc.others p hpi)

/-- What happens inside a regular file does not change where paths lead. -/
theorem Confined.getInodeFromPath (hc : Confined s.toDisk t.toDisk i)
    (hfile : isDir (s.inodes i).mode = false) (path : List UInt8) :
    getInodeFromPath t path = getInodeFromPath s path :=
  getInodeFromPath_congr hc.sb hc.ibm (fun _ _ hp => hc.dentryToNum hfile hp) path

end lookup

/-- Which of the bytes given to a write that stops have been copied: those in
blocks that the inode can map and for which there were enough free blocks. -/
theorem Wrote.copied_iff {s' : Fs} {k m x : Nat} (hw : Wrote s s' i o buf k m) (hk : k < buf.length)
    (hwhy : 70 ≤ o / 512 + m ∨ freeBlocks s.toDisk < need s.toDisk i (o / 512) (m + 1))
    (hx : o ≤ x) : x < o + k ↔
      x / 512 < 70 ∧ need s.toDisk i (o / 512) (x / 512 - o / 512 + 1) ≤ freeBlocks s.toDisk := by
  have hspan := hw.progress.span
  have hmax := hw.progress.lt
  have hcount := hw.count
  constructor
  · intro hlt
    refine ⟨by omega, ?_⟩
    have hmono : need s.toDisk i (o / 512) (x / 512 - o / 512 + 1) ≤ need s.toDisk i (o / 512) m :=
      need_mono (by omega)
    omega
  · rintro ⟨hblock, hneed⟩
    by_contra hge
    have hnext := hw.progress.next hk
    rcases hwhy with h70 | hfew
    · omega
    · have hmono : need s.toDisk i (o / 512) (m + 1) ≤
          need s.toDisk i (o / 512) (x / 512 - o / 512 + 1) := need_mono (by omega)
      omega

/-- Two states in which paths lead to the same regular file, of the same size,
let it be read with the same results if and only if its bytes below the size
are the same. -/
theorem wfsRead_same {path : List UInt8} {env : Env} {len off : Nat} (hp : getInodeFromPath s (cleanPath path) = .ok i)
    (hp' : getInodeFromPath t (cleanPath path) = .ok i) (hfile : isDir (s.inodes i).mode = false)
    (hfile' : isDir (t.inodes i).mode = false) (hsize : (t.inodes i).size = (s.inodes i).size)
    (hfit : off + len < 2 ^ 63)
    (hbytes : ∀ x : Nat, (x : Int) < (s.inodes i).size → byteAt t.toDisk i x = byteAt s.toDisk i x) :
    (wfsRead t path len off env).1 = (wfsRead s path len off env).1 ∧
      (wfsRead t path len off env).2.1 = (wfsRead s path len off env).2.1 := by
  have heq : (wfsRead t path len off env).2.1 = (wfsRead s path len off env).2.1 := by
    rw [wfsRead_bytes hp hfile hfit, wfsRead_bytes hp' hfile' hfit, hsize]
    apply List.map_congr_left
    intro x hx
    rw [List.mem_range'_1] at hx
    exact hbytes x (by omega)
  refine ⟨?_, heq⟩
  rw [wfsRead_ret hp hfile, wfsRead_ret hp' hfile', heq]

/-- A write to a regular file that fails leaves its size, and everything that
reads of it return, as they were if and only if the bytes it copied before it
stopped (those below the old size, in blocks that could be had) were there
before. -/
theorem run_failed_write {ops : List (Env × Op)} (hd : MkfsImage d) (hs : run (mount d) ops = s)
    (path : CString) (buf : List UInt8) (off : Nat) (env : Env) (hoff : off < 2 ^ 63)
    (hp : getInodeFromPath s (cleanPath path.bytes) = .ok i) (hreg : isReg (s.inodes i).mode = true)
    (hfail : (wfsWrite s path.bytes buf off env).1 < 0) :
    (((wfsWrite s path.bytes buf off env).2.inodes i).size = (s.inodes i).size ∧
      ∀ (path' : CString) (len' off' : Nat) (env' : Env),
        getInodeFromPath s (cleanPath path'.bytes) = .ok i → off' + len' < 2 ^ 63 →
        (wfsRead (wfsWrite s path.bytes buf off env).2 path'.bytes len' off' env').1 =
            (wfsRead s path'.bytes len' off' env').1 ∧
          (wfsRead (wfsWrite s path.bytes buf off env).2 path'.bytes len' off' env').2.1 =
            (wfsRead s path'.bytes len' off' env').2.1) ↔
    ∀ x, off ≤ x → x < off + buf.length → (x : Int) < (s.inodes i).size → x / 512 < 70 →
      need s.toDisk i (off / 512) (x / 512 - off / 512 + 1) ≤ freeBlocks s.toDisk →
      buf.getD (x - off) 0 = content s i x := by
  subst hs
  have hb := base_run hd ops
  generalize run (mount d) ops = s at hb hp hreg hfail ⊢
  have hfile := isDir_eq_false_of_isReg hreg
  rcases wfsWrite_cases hb hp hfile hoff buf env with ⟨t, m, hw, e⟩ | ⟨t, s', k, m, hw, hk, hh, hwhy, e⟩
  · -- a write that completes does not fail
    rw [e] at hfail
    exact absurd hfail (show ¬ ((buf.length : Int) < 0) by omega)
  rw [e]
  have hc := hw.confined.trans hh.confined
  have hsize : (t.inodes i).size = (s.inodes i).size := hc.field Inode.size (fun _ _ => rfl) i
  have hfile' : isDir (t.inodes i).mode = false := by
    rw [hc.field Inode.mode fun _ _ => rfl]
    exact hfile
  have hlook := fun q => hc.getInodeFromPath hfile q
  have hbytes : ∀ x, byteAt t.toDisk i x =
      if off ≤ x ∧ x < off + k then buf.getD (x - off) 0 else byteAt s.toDisk i x := fun x => by
    rw [hh.bytes, hw.bytes]
  constructor
  · rintro ⟨-, hread⟩ x hx hlen hsz hblock hneed
    have hcopied := (hw.copied_iff hk hwhy hx).mpr ⟨hblock, hneed⟩
    -- read the one byte at `x` before and after
    have hone := (hread path 1 x env hp (by omega)).2
    rw [wfsRead_bytes hp hfile (by omega), wfsRead_bytes ((hlook _).trans hp) hfile' (by omega), hsize,
      show min (x + 1) (s.inodes i).size.toNat - x = 1 by omega] at hone
    simp only [List.range'_one, List.map_cons, List.map_nil, List.cons.injEq, and_true] at hone
    rw [content_eq, ← hone, hbytes, if_pos ⟨hx, hcopied⟩]
  · intro hcond
    refine ⟨hsize, fun path' len' off' env' hp' hfit => ?_⟩
    refine wfsRead_same hp' ((hlook _).trans hp') hfile hfile' hsize hfit fun x hsz => ?_
    rw [hbytes]
    split_ifs with hin
    · obtain ⟨hblock, hneed⟩ := (hw.copied_iff hk hwhy hin.1).mp hin.2
      rw [hcond x hin.1 (by omega) hsz hblock hneed, content_eq]
    · rfl

/-- Make "/f" and write the last byte a file can have. -/
def edgeOps : List (Env × Op) :=
  [(plainEnv, .mknod smallPath 0o100644#32), (plainEnv, .write smallPath [1] 35839)]

/-- The state after `mknod` only. -/
def edgeStart : Fs := run (mount smallDisk) (edgeOps.take 1)

/-- The state after the byte has been written. -/
def edgeState : Fs :=
  (writeLoop 1 [1] 35839 1 0 edgeStart).2.setInode 1
    (writtenInode ((writeLoop 1 [1] 35839 1 0 edgeStart).2.inodes 1) 35840 1 0)

theorem run_edgeOps : run (mount smallDisk) edgeOps = edgeState := by
  have hp : getInodeFromPath edgeStart (cleanPath smallPath.bytes) = .ok 1 := by decide +kernel
  have hloop : writeLoop 1 [1] 35839 [(1 : UInt8)].length 0 edgeStart =
      (some 1, (writeLoop 1 [1] 35839 1 0 edgeStart).2) := Prod.ext (by decide +kernel) rfl
  show (wfsWrite edgeStart smallPath.bytes [1] 35839 plainEnv).2 = edgeState
  rw [wfsWrite_of_some hp (by decide +kernel) hloop]
  rfl

theorem edgeState_path : getInodeFromPath edgeState (cleanPath smallPath.bytes) = .ok 1 := by
  decide +kernel

theorem edgeState_file : isDir (edgeState.inodes 1).mode = false := by decide +kernel

/-- A write of two bytes whose loop stops. -/
theorem edgeState_write {a b : UInt8} {off : Int} {u : Option Nat × Fs}
    (hu : writeLoop 1 [a, b] off 2 0 edgeState = u) (h : u.1 = none) :
    wfsWrite edgeState smallPath.bytes [a, b] off plainEnv = (errorCode u.2, u.2) := by
  apply wfsWrite_of_none edgeState_path edgeState_file
  exact hu.trans (Prod.ext h rfl)

/-- A write of two bytes at the last offset fails, but its first byte stays. -/
theorem failed_write_changes_file :
    (wfsWrite (run (mount smallDisk) edgeOps) smallPath.bytes [2, 3] (35839 : Nat) plainEnv).1 < 0 ∧
      (wfsRead (run (mount smallDisk) edgeOps) smallPath.bytes 1 (35839 : Nat) plainEnv).2.1 = [1] ∧
      (wfsRead (wfsWrite (run (mount smallDisk) edgeOps) smallPath.bytes [2, 3] (35839 : Nat) plainEnv).2
        smallPath.bytes 1 (35839 : Nat) plainEnv).2.1 = [2] := by
  rw [run_edgeOps, edgeState_write rfl (by decide +kernel)]
  refine ⟨by decide +kernel, ?_, ?_⟩
  · rw [wfsRead_bytes edgeState_path edgeState_file (by decide)]
    decide +kernel
  · rw [wfsRead_bytes (i := 1) (by decide +kernel) (by decide +kernel) (by decide)]
    decide +kernel

/-- Writing the byte that is there already fails too, and changes nothing. -/
theorem run_failed_write_edge :
    (wfsWrite (run (mount smallDisk) edgeOps) smallPath.bytes [1, 3] (35839 : Nat) plainEnv).1 < 0 ∧
      (wfsRead (wfsWrite (run (mount smallDisk) edgeOps) smallPath.bytes [1, 3] (35839 : Nat) plainEnv).2
          smallPath.bytes 1 (35839 : Nat) plainEnv).2.1 =
        (wfsRead (run (mount smallDisk) edgeOps) smallPath.bytes 1 (35839 : Nat) plainEnv).2.1 := by
  have hp : getInodeFromPath (run (mount smallDisk) edgeOps) (cleanPath smallPath.bytes) = .ok 1 := by
    rw [run_edgeOps]
    exact edgeState_path
  have hfail : (wfsWrite (run (mount smallDisk) edgeOps) smallPath.bytes [1, 3] (35839 : Nat)
      plainEnv).1 < 0 := by
    rw [run_edgeOps, edgeState_write rfl (by decide +kernel)]
    decide +kernel
  refine ⟨hfail, (((run_failed_write smallDisk_mkfs.mkfsImage rfl smallPath [1, 3] 35839 plainEnv
    (by decide) hp (by rw [run_edgeOps]; decide +kernel) hfail).mpr ?_).2 smallPath 1 35839 plainEnv hp
      (by decide)).2⟩
  -- the only byte below the size is the first, and it is the same
  intro x h₁ h₂ hsize _ _
  have hsz : ((run (mount smallDisk) edgeOps).inodes 1).size = 35840 := by
    rw [run_edgeOps]
    decide +kernel
  obtain rfl : x = 35839 := by omega
  rw [run_edgeOps]
  decide +kernel

end SystemsPortfolio.Wfs
