/-
SystemsPortfolio/Wfs/Interference.lean

What the bytes written to one file can change: nothing but the bytes read from it.

The operations of WFS return the same values on two file systems in agreement and keep
them so (`exec_agree`).  The files that may differ are those that only some paths lead
to; no operation makes such a file known under another name (`exec_hidden`).  So the
agreement lasts over two runs that differ in the bytes written to one path
(`run_agree`), and when the file at this path is unlinked nothing is left of the
difference that could be read (`run_noninterference`).
-/
import SystemsPortfolio.Wfs.TwoRuns
import SystemsPortfolio.Wfs.Walks

namespace SystemsPortfolio.Wfs

open ByteStore NameTree

/-! ### One operation on two file systems in agreement -/

section operations

variable {H : Nat → Prop} {s s' : Fs} {i p : Nat} {path name : List UInt8} {env : Env}
  {mode : BitVec 32}

/-- The files in `H` are no directories. -/
def FilesOnly (H : Nat → Prop) (d : Disk) : Prop := ∀ j, H j → isDir (d.inodes j).mode = false

theorem FilesOnly.not_mem (hH : FilesOnly H s.toDisk) (hp : (space s.toDisk).dir p) : ¬ H p := by
  intro h
  have hd := hp.2
  rw [hH p h] at hd
  cases hd

theorem getInodeFromPath_agree (h : Agree H s s') (hH : FilesOnly H s.toDisk) (path : List UInt8) :
    getInodeFromPath s' path = getInodeFromPath s path := by
  refine getInodeFromPath_congr h.sb h.ibm (fun p name hp => ?_) path
  by_cases hd : isDir (s.inodes p).mode = true
  · exact dentryToNum_agree h hp (hH.not_mem ⟨hp, hd⟩) name
  · have hfile : isDir (s.inodes p).mode = false := by simpa using hd
    rw [dentryToNum, dentryToNum, h.inodes, if_pos hfile, if_pos hfile]

theorem parentDir_agree (h : Agree H s s') (hH : FilesOnly H s.toDisk) (path : List UInt8) :
    parentDir s' path = parentDir s path := by
  rw [parentDir, parentDir, getInodeFromPath_agree h hH, h.inodes]

theorem retrieveInode_agree (h : Agree H s s') (inum : Int) :
    retrieveInode s' inum = retrieveInode s inum := by
  rw [retrieveInode, retrieveInode, h.sb, h.ibm]

/-- The live entries are equal. -/
theorem liveEntry_agree (h : Agree H s s') (hH : FilesOnly H s.toDisk) (hp : (space s.toDisk).dir p)
    {idx : Nat} (hidx : idx < 96) : liveEntry s'.toDisk p idx = liveEntry s.toDisk p idx :=
  liveEntry_frame (h.sameBlocks hp.1 (hH.not_mem hp)) hidx

theorem space_agree (h : Agree H s s') (hH : FilesOnly H s.toDisk) :
    space s'.toDisk = space s.toDisk := by
  have hdir : ∀ p, (space s'.toDisk).dir p ↔ (space s.toDisk).dir p := by
    intro p
    show (Allocated s'.toDisk p ∧ _) ↔ (Allocated s.toDisk p ∧ _)
    rw [Allocated, Allocated, h.sb, h.ibm, h.inodes]
  refine Space.ext' (fun j => ?_) hdir fun p idx a c => ?_
  · show Allocated s'.toDisk j ↔ Allocated s.toDisk j
    rw [Allocated, Allocated, h.sb, h.ibm]
  · show ((space s'.toDisk).dir p ∧ idx < 96 ∧ _) ↔ ((space s.toDisk).dir p ∧ idx < 96 ∧ _)
    rw [hdir]
    constructor
    · rintro ⟨hp, hidx, hl⟩
      exact ⟨hp, hidx, by rw [← liveEntry_agree h hH hp hidx]; exact hl⟩
    · rintro ⟨hp, hidx, hl⟩
      exact ⟨hp, hidx, by rw [liveEntry_agree h hH hp hidx]; exact hl⟩

/-- Both runs have no inode left, or take the same one. -/
theorem allocateInode_agree (h : Agree H s s') (hok : s.sb.Ok) (now : Int) :
    (allocateInode s now = (none, { s with wfsError := -ENOSPC }) ∧
      allocateInode s' now = (none, { s' with wfsError := -ENOSPC })) ∨
    ∃ i < s.sb.numInodes, bitmapTest i s.ibm = false ∧ ∃ s₁ s₁',
      allocateInode s now = (some i, s₁) ∧ allocateInode s' now = (some i, s₁') ∧
      ∀ mode env now',
        fillinInode s₁ i mode env now' = newInode s i (freshInode i mode env now') ∧
        fillinInode s₁' i mode env now' = newInode s' i (freshInode i mode env now') := by
  obtain ⟨m, -⟩ := h
  rcases allocateInode_data hok now with ⟨e, -⟩ | ⟨i, hi, hfree, e⟩
  · exact Or.inl ⟨e s.data, e m⟩
  · obtain ⟨s₁, e₁, hfill⟩ := e s.data
    obtain ⟨s₁', e₁', hfill'⟩ := e m
    exact Or.inr ⟨i, hi, hfree, s₁, s₁', e₁, e₁', fun mode env now' =>
      ⟨hfill mode env now', hfill' mode env now'⟩⟩

theorem wfsMknod_agree (h : Agree H s s') (hb : Base s.toDisk) (hH : FilesOnly H s.toDisk) :
    Agrees H (wfsMknod s path mode env) (wfsMknod s' path mode env) := by
  rw [wfsMknod, wfsMknod]
  generalize (if (!isReg mode && !isFifo mode) = true then 0o100000#32 ||| (mode &&& 0o777#32)
    else mode) = mode'
  rcases splitPath (cleanPath path) with e | ⟨dir, name⟩
  · exact ⟨rfl, h⟩
  dsimp only
  rw [parentDir_agree h hH]
  rcases hpd : parentDir s dir with e | p
  · exact ⟨rfl, h⟩
  have hp := parentDir_ok hpd
  have hpH := hH.not_mem hp
  dsimp only
  rw [dentryToNum_agree h hp.1 hpH]
  split_ifs
  · exact ⟨rfl, h⟩
  rcases allocateInode_agree h hb.owned.sbOk (env.now 0) with
    ⟨e, e'⟩ | ⟨i, hi, hfree, s₁, s₁', e, e', hfill⟩
  · simp only [e, e']
    exact ⟨rfl, h.setError _⟩
  have hm := prepared_file hb hp hi hfree mode' env (env.now 1)
  have hnew := h.newInode hi (freshInode i (0o100000#32 ||| (mode' &&& 0o777#32)) env (env.now 1)) rfl
  have hadd := addDentry_agree hnew hm.base.owned (hm.nameable hb).parent.1 hpH i name (env.now 2)
  simp only [e, e', (hfill _ _ _).1, (hfill _ _ _).2, newInode_inode, freshInode_num, hadd.val]
  split_ifs
  · exact ⟨rfl, hadd.fs.freeInode i⟩
  · exact ⟨rfl, hadd.fs⟩

theorem Agree.addLinks (h : Agree H s s') (p : Nat) (n : Int) :
    Agree H (addLinks s p n) (addLinks s' p n) := by
  rw [Wfs.addLinks, Wfs.addLinks, h.inodes]
  exact h.setInode rfl

theorem Agree.times (h : Agree H s s') (i : Nat) (now : Int) (a m c : Bool) :
    Agree H (s.setInode i (wfsUpdateTimes (s.inodes i) now a m c))
      (s'.setInode i (wfsUpdateTimes (s'.inodes i) now a m c)) := by
  rw [h.inodes]
  exact h.setInode rfl

theorem wfsMkdir_agree (h : Agree H s s') (hb : Base s.toDisk) (hH : FilesOnly H s.toDisk) :
    Agrees H (wfsMkdir s path mode env) (wfsMkdir s' path mode env) := by
  rw [wfsMkdir, wfsMkdir]
  rcases splitPath (cleanPath path) with e | ⟨dir, name⟩
  · exact ⟨rfl, h⟩
  dsimp only
  rw [parentDir_agree h hH]
  rcases hpd : parentDir s dir with e | p
  · exact ⟨rfl, h⟩
  have hp := parentDir_ok hpd
  have hpH := hH.not_mem hp
  dsimp only
  rw [dentryToNum_agree h hp.1 hpH]
  split_ifs
  · exact ⟨rfl, h⟩
  rcases allocateInode_agree h hb.owned.sbOk (env.now 0) with
    ⟨e, e'⟩ | ⟨i, hi, hfree, s₁, s₁', e, e', hfill⟩
  · simp only [e, e']
    exact ⟨rfl, h.setError _⟩
  have hm := prepared_dir hb hp hi hfree mode env (env.now 1)
  have hpi := ne_of_free (not_allocated hfree) hp.1
  have hfresh : { freshInode i (0o040000#32 ||| (mode &&& 0o777#32)) env (env.now 1) with nlinks := 2 } =
      freshDir i mode env (env.now 1) := rfl
  have hnum : (freshDir i mode env (env.now 1)).num = i := rfl
  have hnew := (h.newInode hi (freshDir i mode env (env.now 1)) rfl).addLinks p 1
  have hadd := addDentry_agree hnew hm.base.owned (hm.nameable hb).parent.1 hpH i name (env.now 2)
  simp only [e, e', (hfill _ _ _).1, (hfill _ _ _).2, newInode_inode, setInode_newInode, hfresh,
    addLinks_inodes_ne 1 hpi.symm, hnum, hadd.val]
  split_ifs
  · exact ⟨rfl, (hadd.fs.freeInode i).addLinks p (-1)⟩
  · exact ⟨rfl, hadd.fs⟩

/-- The last steps of `wfs_unlink` and `wfs_rmdir`. -/
theorem drop_agree (h : Agree H s s') (ho : Owned s.toDisk) (hi : Allocated s.toDisk i) (p : Nat)
    (now : Int) :
    Agree H (touch (freeInode (freeBlocksOf s i) i) p now)
      (touch (freeInode (freeBlocksOf s' i) i) p now) :=
  ((freeBlocksOf_agree h ho hi).freeInode i).times p now false true true

/-- Both runs look a leaf up with the same result. -/
theorem resolveLeaf_agree (h : Agree H s s') (hH : FilesOnly H s.toDisk) (path : List UInt8) :
    resolveLeaf s' path = resolveLeaf s path := by
  rw [resolveLeaf, resolveLeaf]
  rcases splitPath path with e | ⟨dir, name⟩
  · rfl
  dsimp only
  rw [parentDir_agree h hH]
  rcases hpd : parentDir s dir with e | p
  · rfl
  have hp := parentDir_ok hpd
  dsimp only
  rw [dentryToNum_agree h hp.1 (hH.not_mem hp), retrieveInode_agree h]

theorem wfsUnlink_agree (h : Agree H s s') (hb : Base s.toDisk) (hb' : Base s'.toDisk)
    (hH : FilesOnly H s.toDisk) (hpath : ∀ c ∈ path, c ≠ 0) :
    Agrees H (wfsUnlink s path env) (wfsUnlink s' path env) := by
  rw [wfsUnlink_eq_resolveLeaf, wfsUnlink_eq_resolveLeaf, resolveLeaf_agree h hH]
  rcases splitPath (cleanPath path) with e | split
  · exact ⟨rfl, h⟩
  dsimp only
  by_cases hdot : split.2 = [46] ∨ split.2 = [46, 46]
  · rw [if_pos hdot, if_pos hdot]
    exact ⟨rfl, h⟩
  rw [if_neg hdot, if_neg hdot]
  rcases hr : resolveLeaf s (cleanPath path) with e | ⟨p, i⟩
  · exact ⟨rfl, h⟩
  rw [afterLookup, afterLookup, unlinkAt, unlinkAt, h.inodes]
  by_cases hd : isDir (s.inodes i).mode = true
  · rw [if_pos hd, if_pos hd]
    exact ⟨rfl, h⟩
  rw [if_neg hd, if_neg hd]
  -- the one entry that leads to the inode is the same in both
  obtain ⟨-, name, idx, -, -, -, he⟩ := entry_of_resolveLeaf hb hpath hr
  have he' : (space s'.toDisk).entry p idx name i := by
    rw [space_agree h hH]
    exact he
  have hi := (hb.sound.target he).1
  have hpl := place_of_entry he
  have hcut : Cut s.toDisk (clearEntry s p idx (env.now 0)).toDisk p idx i :=
    cut_file hb he (by simpa using hd)
  have hclear := clearEntry_agree h hb.owned he.1.1 hpl.lt hpl.block (env.now 0)
  have hlinks := hclear.addLinks i (-1)
  have hq := hcut.base.quiet_addLinks (p := i) (-1)
  simp only [removeDentry_eq hb he, removeDentry_eq hb' he', lt_irrefl, if_false, hlinks.inodes]
  split_ifs
  · exact ⟨rfl, drop_agree hlinks hq.owned ((hq.alloc i).mpr (hcut.allocated hi)) p _⟩
  · exact ⟨rfl, hlinks.times p _ false true true⟩

theorem wfsRmdir_agree (h : Agree H s s') (hb : Base s.toDisk) (hb' : Base s'.toDisk)
    (hH : FilesOnly H s.toDisk) (hpath : ∀ c ∈ path, c ≠ 0) :
    Agrees H (wfsRmdir s path env) (wfsRmdir s' path env) := by
  rw [wfsRmdir_eq_resolveLeaf, wfsRmdir_eq_resolveLeaf, resolveLeaf_agree h hH]
  by_cases hroot : cleanPath path = [slash]
  · rw [if_pos hroot, if_pos hroot]
    exact ⟨rfl, h⟩
  rw [if_neg hroot, if_neg hroot]
  rcases hr : resolveLeaf s (cleanPath path) with e | ⟨p, i⟩
  · exact ⟨rfl, h⟩
  rw [afterLookup, afterLookup, rmdirAt, rmdirAt, h.inodes]
  by_cases hd : isDir (s.inodes i).mode = false
  · rw [if_pos hd, if_pos hd]
    exact ⟨rfl, h⟩
  rw [if_neg hd, if_neg hd]
  obtain ⟨-, name, idx, -, -, -, he⟩ := entry_of_resolveLeaf hb hpath hr
  have he' : (space s'.toDisk).entry p idx name i := by
    rw [space_agree h hH]
    exact he
  have hi := (hb.sound.target he).1
  have hdir : isDir (s.inodes i).mode = true := by simpa using hd
  have hpl := place_of_entry he
  have hcut : Cut s.toDisk (addLinks (clearEntry s p idx (env.now 0)) p (-1)).toDisk p idx i :=
    cut_dir hb he hdir
  have hclear := clearEntry_agree h hb.owned he.1.1 hpl.lt hpl.block (env.now 0)
  -- the emptiness test looks at the entries of a directory
  have hempty : hasOtherEntry s' i = hasOtherEntry s i := by
    have hspace := space_agree h hH
    have hiff := hasOtherEntry_iff (i := i) hb' (by rw [hspace]; exact ⟨hi, hdir⟩)
    rw [hspace] at hiff
    rw [Bool.eq_iff_iff, ← not_iff_not, Bool.not_eq_true, Bool.not_eq_true]
    exact hiff.trans (hasOtherEntry_iff hb ⟨hi, hdir⟩).symm
  simp only [hempty, removeDentry_eq hb he, removeDentry_eq hb' he', lt_irrefl, if_false]
  split_ifs
  · exact ⟨rfl, h⟩
  · exact ⟨rfl, drop_agree (hclear.addLinks p (-1)) hcut.base.owned (hcut.allocated hi) p _⟩

/-- `wfs_read` delivers the same number of bytes, and the same bytes of a file that
is not in `H`. -/
theorem wfsRead_agree (h : Agree H s s') (hb : Base s.toDisk) (hH : FilesOnly H s.toDisk)
    (path : List UInt8) (len : Nat) (off : Int) (env : Env) :
    (wfsRead s' path len off env).1 = (wfsRead s path len off env).1 ∧
      Agree H (wfsRead s path len off env).2.2 (wfsRead s' path len off env).2.2 ∧
      ((∀ i, getInodeFromPath s (cleanPath path) = .ok i → ¬ H i) →
        (wfsRead s' path len off env).2.1 = (wfsRead s path len off env).2.1) := by
  rcases hp : getInodeFromPath s (cleanPath path) with e | i
  · have hp' := (getInodeFromPath_agree h hH (cleanPath path)).trans hp
    simp only [wfsRead, hp, hp']
    exact ⟨trivial, h, fun _ => trivial⟩
  have hp' := (getInodeFromPath_agree h hH (cleanPath path)).trans hp
  by_cases hd : isDir (s.inodes i).mode = true
  · have hd' : isDir (s'.inodes i).mode = true := by rwa [h.inodes]
    simp only [wfsRead, hp, hp', hd, hd', if_true]
    exact ⟨trivial, h, fun _ => trivial⟩
  have hfile : isDir (s.inodes i).mode = false := by simpa using hd
  have hfile' : isDir (s'.inodes i).mode = false := by rwa [h.inodes]
  rw [wfsRead_file hp hfile, wfsRead_file hp' hfile', h.inodes]
  split_ifs
  · exact ⟨rfl, h, fun _ => rfl⟩
  generalize readCount (s.inodes i).size off len = n
  obtain ⟨hfs, hlen, hbytes⟩ := readLoop_agree h hb.owned (getInodeFromPath_ok hp) off n n 0
  rw [finishRead, finishRead, hlen]
  refine ⟨rfl, ?_, fun hnot => hbytes (hnot i rfl)⟩
  dsimp only
  split_ifs
  · exact hfs.times i _ true false false
  · exact hfs

theorem wfsWrite_agree {buf buf' : List UInt8} {off : Int} (h : Agree H s s') (hb : Base s.toDisk)
    (hH : FilesOnly H s.toDisk) (hlen : buf'.length = buf.length)
    (hbuf : buf' = buf ∨ ∀ i, getInodeFromPath s (cleanPath path) = .ok i →
      isDir (s.inodes i).mode = false → H i) :
    Agrees H (wfsWrite s path buf off env) (wfsWrite s' path buf' off env) := by
  rcases hp : getInodeFromPath s (cleanPath path) with e | i
  · have hp' := (getInodeFromPath_agree h hH (cleanPath path)).trans hp
    simp only [wfsWrite, hp, hp']
    exact ⟨rfl, h⟩
  have hp' := (getInodeFromPath_agree h hH (cleanPath path)).trans hp
  by_cases hd : isDir (s.inodes i).mode = true
  · have hd' : isDir (s'.inodes i).mode = true := by rwa [h.inodes]
    simp only [wfsWrite, hp, hp', hd, hd', if_true]
    exact ⟨rfl, h⟩
  have hfile : isDir (s.inodes i).mode = false := by simpa using hd
  have hfile' : isDir (s'.inodes i).mode = false := by rwa [h.inodes]
  have hbuf' : buf' = buf ∨ H i := hbuf.imp_right fun hall => hall i hp hfile
  have hw := writeLoop_agree h hb.owned (getInodeFromPath_ok hp) hlen hbuf' off buf.length 0
  rcases e : writeLoop i buf off buf.length 0 s with ⟨- | done, t⟩
  · rcases e' : writeLoop i buf' off buf.length 0 s' with ⟨r, t'⟩
    rw [e, e'] at hw
    obtain rfl : r = none := hw.val
    rw [← hlen] at e'
    rw [wfsWrite_of_none hp hfile e, wfsWrite_of_none hp' hfile' e']
    exact ⟨hw.fs.errorCode, hw.fs⟩
  · rcases e' : writeLoop i buf' off buf.length 0 s' with ⟨r, t'⟩
    rw [e, e'] at hw
    obtain rfl : r = some done := hw.val
    have hfs : Agree H t t' := hw.fs
    rw [← hlen] at e'
    rw [wfsWrite_of_some hp hfile e, wfsWrite_of_some hp' hfile' e', hfs.inodes]
    exact ⟨rfl, hfs.setInode (writtenInode_blocks ..)⟩

theorem wfsGetattr_agree (h : Agree H s s') (hH : FilesOnly H s.toDisk) :
    wfsGetattr s' path = wfsGetattr s path := by
  rw [wfsGetattr, wfsGetattr, getInodeFromPath_agree h hH, h.inodes]

theorem validInum_agree (h : Agree H s s') (inum : Int) : validInum s' inum = validInum s inum := by
  rw [validInum, validInum, h.sb]

theorem wfsGetxattr_agree (h : Agree H s s') (hH : FilesOnly H s.toDisk) (size : Nat) :
    wfsGetxattr s' path name size = wfsGetxattr s path name size := by
  simp only [wfsGetxattr, getInodeFromPath_agree h hH, validInum_agree h, h.inodes]

theorem Agree.setColor (h : Agree H s s') (i : Nat) (color : Color) (now : Int) :
    Agree H (setColor s i color now) (setColor s' i color now) := by
  rw [Wfs.setColor, Wfs.setColor, h.inodes]
  exact h.setInode rfl

theorem wfsSetxattr_agree (h : Agree H s s') (hH : FilesOnly H s.toDisk)
    (value : Option (List UInt8)) :
    Agrees H (wfsSetxattr s path name value env) (wfsSetxattr s' path name value env) := by
  simp only [wfsSetxattr, getInodeFromPath_agree h hH, validInum_agree h, h.inodes]
  repeat' split
  all_goals first | exact ⟨rfl, h⟩ | exact ⟨rfl, h.setColor _ _ _⟩

theorem wfsRemovexattr_agree (h : Agree H s s') (hH : FilesOnly H s.toDisk) :
    Agrees H (wfsRemovexattr s path name env) (wfsRemovexattr s' path name env) := by
  simp only [wfsRemovexattr, getInodeFromPath_agree h hH, validInum_agree h, h.inodes]
  repeat' split
  all_goals first | exact ⟨rfl, h⟩ | exact ⟨rfl, h.setColor _ _ _⟩

theorem wfsReaddir_agree (h : Agree H s s') (hH : FilesOnly H s.toDisk) (path : List UInt8) (env : Env) :
    (wfsReaddir s' path env).1 = (wfsReaddir s path env).1 ∧
      Agree H (wfsReaddir s path env).2.2 (wfsReaddir s' path env).2.2 := by
  rw [wfsReaddir, wfsReaddir, getInodeFromPath_agree h hH]
  rcases getInodeFromPath s (cleanPath path) with e | i
  · exact ⟨rfl, h⟩
  dsimp only
  rw [h.inodes]
  split_ifs
  · exact ⟨rfl, h⟩
  · exact ⟨rfl, h.setInode rfl⟩

end operations

/-! ### Two runs -/

section runs

variable {d : Disk} {s s' : Fs} {i j : Nat} {N : List (List UInt8) → Prop}

/-- The second operation is the first one, or a write to a path in `N` of other bytes
of the same number at the same offset. -/
inductive Varies (N : List (List UInt8) → Prop) : Env × Op → Env × Op → Prop
  | same (e : Env × Op) : Varies N e e
  | write (env : Env) (path : CString) (buf buf' : List UInt8) (off : Int)
      (hpath : N (strtok (cleanPath path.bytes))) (hlen : buf'.length = buf.length) :
      Varies N (env, .write path buf off) (env, .write path buf' off)

theorem filesOnly_hidden : FilesOnly (Hidden N s.toDisk) s.toDisk := fun _ h => h.1

/-- One step: the values are equal, and what differs belongs to files that were hidden
before. -/
theorem exec_agree {e e' : Env × Op} (hv : Varies N e e') (h : Agree (Hidden N s.toDisk) s s')
    (hb : Base s.toDisk) (hb' : Base s'.toDisk) :
    Agrees (Hidden N s.toDisk) (exec e.1 e.2 s) (exec e'.1 e'.2 s') := by
  have hH : FilesOnly (Hidden N s.toDisk) s.toDisk := filesOnly_hidden
  cases hv with
  | write env path buf buf' off hpath hlen =>
      refine wfsWrite_agree h hb hH hlen (Or.inr fun i hp hfile => ?_)
      exact hidden_of_path hb (cleanPath_nul_free path.nul_free) hp hfile hpath
  | same =>
      obtain ⟨env, op⟩ := e
      cases op with
      | getattr path =>
          simp only [exec, wfsGetattr_agree h hH]
          rcases wfsGetattr s path.bytes with e | st
          · exact ⟨rfl, h⟩
          · exact ⟨rfl, h⟩
      | mknod path mode => exact wfsMknod_agree h hb hH
      | mkdir path mode => exact wfsMkdir_agree h hb hH
      | read path len off =>
          obtain ⟨hval, hfs, -⟩ := wfsRead_agree h hb hH path.bytes len off env
          exact ⟨hval, hfs⟩
      | write path buf off => exact wfsWrite_agree h hb hH rfl (Or.inl rfl)
      | readdir path =>
          obtain ⟨hval, hfs⟩ := wfsReaddir_agree h hH path.bytes env
          exact ⟨hval, hfs⟩
      | unlink path => exact wfsUnlink_agree h hb hb' hH path.nul_free
      | rmdir path => exact wfsRmdir_agree h hb hb' hH path.nul_free
      | statfs => exact ⟨rfl, h⟩
      | setxattr path name value => exact wfsSetxattr_agree h hH value
      | getxattr path name size => exact ⟨by simp only [exec, wfsGetxattr_agree h hH], h⟩
      | removexattr path name => exact wfsRemovexattr_agree h hH

/-- A hidden file with blocks stays hidden as long as it is there. -/
theorem exec_hidden {env : Env} {op : Op} {sl : Slot} (hb : Base s.toDisk)
    (hj : Allocated (exec env op s).2.toDisk j) (hne : slotVal (exec env op s).2.toDisk j sl ≠ 0)
    (hidden : Hidden N s.toDisk j) : Hidden N (exec env op s).2.toDisk j := by
  have he : Effect op s.toDisk (exec env op s).2.toDisk := exec_effect hb op
  by_cases hop : ∃ path buf off, op = .write path buf off
  · obtain ⟨path, buf, off, rfl⟩ := hop
    have hc : Calm s.toDisk (wfsWrite s path.bytes buf off env).2.toDisk := wfsWrite_calm hb
    have hold := (hc.quiet.alloc j).mp hj
    exact he.hidden hb hold (congrArg isDir (hc.quiet.mode j hold)) hidden
  · have hk : KeepsFiles s.toDisk (exec env op s).2.toDisk :=
      exec_keepsFiles hb fun path buf off e => hop ⟨path, buf, off, e⟩
    by_cases hold : Allocated s.toDisk j
    · exact he.hidden hb hold (hk.dir j hold hj) hidden
    · -- a new inode has no blocks
      have hbare := hk.bare j hold hj
      refine absurd ?_ hne
      cases sl <;> simp [slotVal, hbare]

/-- Runs that vary in writes to paths in `N` return the same values and stay in
agreement but for the files that only those paths lead to. -/
theorem run_agree {ops ops' : List (Env × Op)} (hv : List.Forall₂ (Varies N) ops ops')
    (h : Agree (Hidden N s.toDisk) s s') (hb : Base s.toDisk) (hb' : Base s'.toDisk) :
    values s' ops' = values s ops ∧
      Agree (Hidden N (run s ops).toDisk) (run s ops) (run s' ops') := by
  induction hv generalizing s s' with
  | nil => exact ⟨rfl, h⟩
  | @cons e e' ops ops' he _ ih =>
      have hstep := exec_agree he h hb hb'
      have hnext := hstep.fs.mono fun j sl hj hne hidden => exec_hidden hb hj hne hidden
      obtain ⟨hvals, hrun⟩ := ih hnext ((exec_effect hb e.2).base hb) ((exec_effect hb' e'.2).base hb')
      exact ⟨by rw [values, values, hstep.val, hvals], hrun⟩

/-- A file that a path leads to is not hidden, unless the path is in `N`. -/
theorem not_hidden_of_path {path : List UInt8} (hb : Base s.toDisk) (hpath : ∀ c ∈ path, c ≠ 0)
    (hp : getInodeFromPath s path = .ok i) (hN : ¬ N (strtok path)) : ¬ Hidden N s.toDisk i :=
  fun hidden => hN (hidden.2 _ (getInodeFromPath_walk hb hpath hp))

/-! ### Noninterference -/

/-- The names along the path `F`. -/
def Along (F : CString) (names : List (List UInt8)) : Prop := names = strtok (cleanPath F.bytes)

/-- What two runs that vary in the bytes written to `F` have in common at any moment. -/
structure Indistinct (F : CString) (s s' : Fs) : Prop where
  ibm : s'.ibm = s.ibm
  dbm : s'.dbm = s.dbm
  inodes : s'.inodes = s.inodes
  entries : ∀ p idx, (space s.toDisk).dir p → idx < 96 →
    liveEntry s'.toDisk p idx = liveEntry s.toDisk p idx
  reads : ∀ (path : CString) (len : Nat) (off : Int) (env : Env),
    (¬ ∃ i, getInodeFromPath s (cleanPath path.bytes) = .ok i ∧
      getInodeFromPath s (cleanPath F.bytes) = .ok i) →
    (wfsRead s' path.bytes len off env).2.1 = (wfsRead s path.bytes len off env).2.1

theorem Agree.indistinct {F : CString} (h : Agree (Hidden (Along F) s.toDisk) s s')
    (hb : Base s.toDisk) : Indistinct F s s' where
  ibm := h.ibm
  dbm := h.dbm
  inodes := h.inodes
  entries p idx hp hidx := liveEntry_agree h filesOnly_hidden hp hidx
  reads path len off env hnot := by
    refine (wfsRead_agree h hb filesOnly_hidden path.bytes len off env).2.2 fun i hp => ?_
    refine not_hidden_of_path hb (cleanPath_nul_free path.nul_free) hp fun hF => hnot ⟨i, hp, ?_⟩
    rw [getInodeFromPath_eq hb] at hp ⊢
    rw [← hp, show strtok (cleanPath path.bytes) = strtok (cleanPath F.bytes) from hF]

/-- When `F` is unlinked, the file that only its path led to is gone. -/
theorem unlink_agree {F path : CString} {env : Env} (h : Agree (Hidden (Along F) s.toDisk) s s')
    (hb : Base s.toDisk) (hb' : Base s'.toDisk) (hpath : Along F (strtok (cleanPath path.bytes)))
    (hok : (wfsUnlink s path.bytes env).1 = 0) :
    Agree (Hidden (fun _ => False) (wfsUnlink s path.bytes env).2.toDisk)
      (wfsUnlink s path.bytes env).2 (wfsUnlink s' path.bytes env).2 := by
  have hstep := exec_agree (.same (env, .unlink path)) h hb hb'
  refine hstep.fs.mono fun j sl hj hne hidden => ?_
  obtain ⟨hfile, hnames⟩ := exec_hidden hb hj hne hidden
  refine ⟨hfile, fun names hw => ?_⟩
  rw [hnames names hw, ← show strtok (cleanPath path.bytes) = strtok (cleanPath F.bytes) from hpath] at hw
  have hdir : isDir ((wfsUnlink s path.bytes env).2.inodes j).mode = true :=
    wfsUnlink_walk hb path.nul_free hok hw
  exact Bool.false_ne_true (hfile.symm.trans hdir)

/-- Two runs of the same operations, in which the bytes written to `F` may differ but
not their numbers or offsets: the operations return the same values; at every moment
bitmaps, inodes and live entries are equal, and so is what is read from any path that
does not lead to the file of `F`.  Once `F` has been unlinked, everything read in the
same continuation of both is equal. -/
theorem run_noninterference {ops ops' : List (Env × Op)} (hd : MkfsImage d) (F : CString)
    (hv : List.Forall₂ (Varies (Along F)) ops ops') :
    values (mount d) ops' = values (mount d) ops ∧
      (∀ n, Indistinct F (run (mount d) (ops.take n)) (run (mount d) (ops'.take n))) ∧
      ∀ (path : CString) (env : Env), Along F (strtok (cleanPath path.bytes)) →
        (wfsUnlink (run (mount d) ops) path.bytes env).1 = 0 →
        ∀ (rest : List (Env × Op)) (path' : CString) (len : Nat) (off : Int) (env' : Env),
          (wfsRead (run (mount d) (ops' ++ (env, .unlink path) :: rest)) path'.bytes len off env').2.1 =
            (wfsRead (run (mount d) (ops ++ (env, .unlink path) :: rest)) path'.bytes len off env').2.1 := by
  have hstart : Agree (Hidden (Along F) (mount d).toDisk) (mount d) (mount d) := Agree.refl _
  obtain ⟨hvals, hagree⟩ := run_agree hv hstart hd.base hd.base
  refine ⟨hvals, fun n => ?_, fun path env hpath hok rest path' len off env' => ?_⟩
  · exact (run_agree (List.forall₂_take n hv) hstart hd.base hd.base).2.indistinct (base_run hd _)
  · -- from here on no file is hidden that a path leads to
    have hb := base_run hd ops
    have hb' := base_run hd ops'
    have hnext := unlink_agree hagree hb hb' hpath hok
    have hrest : List.Forall₂ (Varies fun _ => False) rest rest :=
      List.forall₂_same.mpr fun e _ => .same e
    have hlast := (run_agree hrest hnext ((exec_effect hb (.unlink path)).base hb)
      ((exec_effect hb' (.unlink path)).base hb')).2
    have hend := base_run hd (ops ++ (env, .unlink path) :: rest)
    rw [run_append, run_append]
    rw [run_append] at hend
    refine (wfsRead_agree hlast hend filesOnly_hidden path'.bytes len off env').2.2 fun i hp => ?_
    exact not_hidden_of_path hend (cleanPath_nul_free path'.nul_free) hp id

/-- Make "/f" and write two other bytes into it. -/
def otherOps : List (Env × Op) :=
  [(plainEnv, .mknod smallPath 0o100644#32), (plainEnv, .write smallPath [8, 9] 0)]

/-- The two runs differ in what "/f" holds, but not in what they return. -/
theorem run_noninterference_small :
    List.Forall₂ (Varies (Along smallPath)) smallOps otherOps ∧
      byteAt (run (mount smallDisk) otherOps).toDisk 1 0 ≠ byteAt (run (mount smallDisk) smallOps).toDisk 1 0 ∧
      values (mount smallDisk) otherOps = values (mount smallDisk) smallOps := by
  have hv : List.Forall₂ (Varies (Along smallPath)) smallOps otherOps :=
    .cons (.same _) (.cons (.write plainEnv smallPath [1, 2] [8, 9] 0 rfl rfl) .nil)
  exact ⟨hv, by decide +kernel, (run_noninterference smallDisk_mkfs.mkfsImage smallPath hv).1⟩

end runs

end SystemsPortfolio.Wfs
