/-
SystemsPortfolio/Wfs/Files.lean

What the operations other than `wfs_write` do to regular files: a file that is
there before and after keeps its size and its blocks (`exec_keepsFiles`), and a
new inode is empty (`exec_new_empty`).
-/
import SystemsPortfolio.Wfs.FileData

namespace SystemsPortfolio.Wfs

open ByteStore NameTree

variable {d d' : Disk} {s t : Fs} {i j p idx : Nat} {path name : List UInt8} {env : Env} {now num : Int}

/-! ### Files that stay -/

/-- Files that are there before and after are the same, and what is new has no
blocks. -/
structure KeepsFiles (d d' : Disk) : Prop where
  dir : ∀ j, Allocated d j → Allocated d' j →
    isDir (d'.inodes j).mode = isDir (d.inodes j).mode
  size : ∀ j, Allocated d j → Allocated d' j → isDir (d.inodes j).mode = false →
    (d'.inodes j).size = (d.inodes j).size
  same : ∀ j, Allocated d j → Allocated d' j → isDir (d.inodes j).mode = false → SameBlocks d d' j
  bare : ∀ j, ¬ Allocated d j → Allocated d' j → (d'.inodes j).blocks = fun _ => 0

theorem KeepsFiles.refl (d : Disk) : KeepsFiles d d :=
  ⟨fun _ _ _ => rfl, fun _ _ _ _ => rfl, fun j _ _ _ => SameBlocks.refl d j, fun _ h h' => absurd h' h⟩

theorem keepsFiles_setInode {ino : Inode} (hmode : ino.mode = (s.inodes i).mode)
    (hsize : ino.size = (s.inodes i).size) (hblocks : ino.blocks = (s.inodes i).blocks) :
    KeepsFiles s.toDisk (s.setInode i ino).toDisk := by
  refine ⟨fun j _ _ => ?_, fun j _ _ _ => ?_, fun j _ _ _ => sameBlocks_setInode hblocks j,
    fun j h h' => absurd h' h⟩
  · rcases eq_or_ne j i with rfl | hji
    · rw [Fs.setInode_self, hmode]
    · rw [Fs.setInode_ne hji]
  · rcases eq_or_ne j i with rfl | hji
    · rw [Fs.setInode_self, hsize]
    · rw [Fs.setInode_ne hji]

theorem Undone.keepsFiles (h : Undone d d') : KeepsFiles d d' := by
  obtain ⟨i, hi, -, rfl⟩ := h
  have hino {j : Nat} (hj : Allocated d j) :
      Function.update d.inodes i Inode.zero j = d.inodes j :=
    Function.update_of_ne (ne_of_free hi hj) ..
  refine ⟨fun j hj _ => congrArg (fun ino => isDir ino.mode) (hino hj),
    fun j hj _ _ => congrArg Inode.size (hino hj),
    fun j hj _ _ => ⟨congrArg Inode.blocks (hino hj), fun _ _ _ _ _ => rfl⟩, fun j h h' => absurd h' h⟩

theorem isDir_eq_of_dir_iff (hj : Allocated d j) (hj' : Allocated d' j)
    (h : (space d').dir j ↔ (space d).dir j) :
    isDir (d'.inodes j).mode = isDir (d.inodes j).mode := by
  rw [Bool.eq_iff_iff]
  exact ⟨fun hd => (h.mp ⟨hj', hd⟩).2, fun hd => (h.mpr ⟨hj, hd⟩).2⟩

theorem Created.keepsFiles {dir : Bool} (hc : Created d d' p idx name i dir)
    (hbare : ∀ j, ¬ Allocated d j → Allocated d' j → (d'.inodes j).blocks = fun _ => 0) :
    KeepsFiles d d' := by
  -- the parent is a directory and the new inode was free
  have hne {j : Nat} (hj : Allocated d j) (hfile : isDir (d.inodes j).mode = false) : j ≠ p ∧ j ≠ i := by
    refine ⟨?_, ne_of_free hc.fresh hj⟩
    rintro rfl
    rw [hc.parent.2] at hfile
    cases hfile
  refine ⟨fun j hj hj' => ?_, fun j hj _ hfile => ?_, fun j hj _ hfile => ?_, hbare⟩
  · have hdir : (Wfs.space d').dir j ↔ (Wfs.space d).dir j := by
      rw [hc.space]
      exact or_iff_right fun h => ne_of_free hc.fresh hj h.1
    exact isDir_eq_of_dir_iff hj hj' hdir
  · rw [hc.others j (hne hj hfile).1 (hne hj hfile).2]
  · exact hc.same j (hne hj hfile).1 hj

theorem Removed.keepsFiles (hr : Removed d d' p idx name i) : KeepsFiles d d' := by
  have hne {j : Nat} (hfile : isDir (d.inodes j).mode = false) : j ≠ p := by
    rintro rfl
    rw [hr.entry.1.2] at hfile
    cases hfile
  refine ⟨fun j hj hj' => ?_, fun j _ hj' hfile => ?_, fun j hj hj' hfile => ?_,
    fun j hj hj' => absurd (hr.allocated.mp hj').1 hj⟩
  · have hdir : (Wfs.space d').dir j ↔ (Wfs.space d).dir j := by
      rw [hr.space]
      exact and_iff_left (hr.allocated.mp hj').2
    exact isDir_eq_of_dir_iff hj hj' hdir
  · rw [hr.others j (hne hfile) (hr.allocated.mp hj').2]
  · exact hr.same j (hne hfile) (hr.allocated.mp hj').2 hj

/-! ### New inodes are empty -/

/-- No blocks and no bytes. -/
def Inode.Empty (ino : Inode) : Prop := (ino.blocks = fun _ => 0) ∧ ino.size = 0

theorem growDir_frame (k : Nat) : (growDir s p k).2.sb = s.sb ∧ (growDir s p k).2.ibm = s.ibm ∧
    ∀ j, j ≠ p → (growDir s p k).2.inodes j = s.inodes j := by
  have halloc : (allocateDataBlock s).2.sb = s.sb ∧ (allocateDataBlock s).2.ibm = s.ibm ∧
      (allocateDataBlock s).2.inodes = s.inodes := by
    rw [allocateDataBlock]
    split
    · exact ⟨rfl, rfl, rfl⟩
    · dsimp only
      split_ifs <;> exact ⟨rfl, rfl, rfl⟩
  obtain ⟨hsb, hibm, hino⟩ := halloc
  rw [growDir]
  split_ifs
  · dsimp only
    split_ifs
    · exact ⟨hsb, hibm, fun j _ => congrFun hino j⟩
    · exact ⟨hsb, hibm, fun j hj => (Fs.setInode_ne hj).trans (congrFun hino j)⟩
  · exact ⟨rfl, rfl, fun _ _ => rfl⟩

theorem addDentryLoop_frame (l : List Nat) : (addDentryLoop s p num name now l).2.sb = s.sb ∧
    (addDentryLoop s p num name now l).2.ibm = s.ibm ∧
    ∀ j, j ≠ p → (addDentryLoop s p num name now l).2.inodes j = s.inodes j := by
  induction l generalizing s with
  | nil => exact ⟨rfl, rfl, fun _ _ => rfl⟩
  | cons idx l ih =>
      obtain ⟨hsb, hibm, hino⟩ := growDir_frame (s := s) (p := p) (idx / 16)
      rcases e : growDir s p (idx / 16) with ⟨- | -, s₁⟩
      · rw [e] at hsb hibm hino
        rw [addDentryLoop_fail e]
        exact ⟨hsb, hibm, hino⟩
      · rw [e] at hsb hibm hino
        rw [addDentryLoop_step e]
        split_ifs
        · exact ⟨hsb, hibm, fun j hj => (writeEntry_inodes_ne hj).trans (hino j hj)⟩
        · obtain ⟨hsb', hibm', hino'⟩ := ih (s := s₁)
          exact ⟨hsb'.trans hsb, hibm'.trans hibm, fun j hj => (hino' j hj).trans (hino j hj)⟩

/-- `add_dentry` changes no inode but the directory's. -/
theorem addDentry_frame : (addDentry s p num name now).2.sb = s.sb ∧
    (addDentry s p num name now).2.ibm = s.ibm ∧
    ∀ j, j ≠ p → (addDentry s p num name now).2.inodes j = s.inodes j := by
  have hloop := @addDentryLoop_frame s p name now num (List.range 96)
  rw [addDentry]
  generalize addDentryLoop s p num name now (List.range 96) = r at hloop
  dsimp only
  split_ifs
  · exact ⟨rfl, rfl, fun _ _ => rfl⟩
  · exact ⟨rfl, rfl, fun _ _ => rfl⟩
  · exact ⟨rfl, rfl, fun _ _ => rfl⟩
  · exact hloop

section create

variable {mode : BitVec 32}

/-- An empty inode is still empty after it has been named. -/
theorem settle_empty {undo : Fs → Fs} (hj : ¬ Allocated s.toDisk j) (hpi : p ≠ i)
    (hs : ∀ j, Allocated t.toDisk j → j = i ∨ Allocated s.toDisk j) (hempty : (t.inodes i).Empty)
    (hok : (settle (addDentry t p num name now) undo).1 = 0)
    (hj' : Allocated (settle (addDentry t p num name now) undo).2.toDisk j) :
    ((settle (addDentry t p num name now) undo).2.inodes j).Empty := by
  rw [settle] at hok hj' ⊢
  by_cases hrc : (addDentry t p num name now).1 < 0
  · rw [if_pos hrc] at hok
    exact absurd hok (ne_of_lt hrc)
  rw [if_neg hrc] at hj' ⊢
  obtain ⟨hsb, hibm, hino⟩ := @addDentry_frame t p name now num
  have halloc : Allocated t.toDisk j := by
    rwa [Allocated, hsb, hibm] at hj'
  obtain rfl := (hs j halloc).resolve_right hj
  rwa [hino j hpi.symm]

/-- `wfs_mknod` leaves a new inode empty. -/
theorem wfsMknod_empty (h : Base s.toDisk) (hok : (wfsMknod s path mode env).1 = 0)
    (hj : ¬ Allocated s.toDisk j) (hj' : Allocated (wfsMknod s path mode env).2.toDisk j) :
    ((wfsMknod s path mode env).2.inodes j).Empty := by
  rcases wfsMknod_eq h.owned.sbOk path mode env with
    ⟨hneg, -⟩ | ⟨mode', dir, name, p, i, -, hpd, hi, hfree, e⟩
  · exact absurd hok (ne_of_lt hneg)
  have hpi := ne_of_free (not_allocated hfree) (parentDir_ok hpd).1
  rw [e] at hok hj' ⊢
  refine settle_empty hj hpi (fun j hj => (allocated_newInode hi).mp hj) ?_ hok hj'
  rw [newInode_inode]
  exact ⟨rfl, rfl⟩

/-- So does `wfs_mkdir`. -/
theorem wfsMkdir_empty (h : Base s.toDisk) (hok : (wfsMkdir s path mode env).1 = 0)
    (hj : ¬ Allocated s.toDisk j) (hj' : Allocated (wfsMkdir s path mode env).2.toDisk j) :
    ((wfsMkdir s path mode env).2.inodes j).Empty := by
  rcases wfsMkdir_eq h.owned.sbOk path mode env with
    ⟨hneg, -⟩ | ⟨dir, name, p, i, -, hpd, hi, hfree, e⟩
  · exact absurd hok (ne_of_lt hneg)
  have hpi := ne_of_free (not_allocated hfree) (parentDir_ok hpd).1
  rw [e] at hok hj' ⊢
  refine settle_empty hj hpi (fun j hj => ?_) ?_ hok hj'
  · have hnew : Allocated (newInode s i (freshDir i mode env (env.now 1))).toDisk j := hj
    exact (allocated_newInode hi).mp hnew
  rw [addLinks_inodes_ne 1 hpi.symm, newInode_inode]
  exact ⟨rfl, rfl⟩

end create

/-! ### One operation -/

theorem wfsRead_keepsFiles {len : Nat} {off : Int} :
    KeepsFiles s.toDisk (wfsRead s path len off env).2.2.toDisk := by
  rcases hp : getInodeFromPath s (cleanPath path) with e | i
  · rw [wfsRead, hp]
    exact KeepsFiles.refl _
  · by_cases hdir : isDir (s.inodes i).mode = true
    · simp only [wfsRead, hp, hdir, if_true]
      exact KeepsFiles.refl _
    · have hfile : isDir (s.inodes i).mode = false := by simpa using hdir
      obtain ⟨a, ha⟩ : ∃ a, (wfsRead s path len off env).2.2.toDisk =
          { s.toDisk with inodes := Function.update s.inodes i { s.inodes i with atim := a } } :=
        wfsRead_toDisk hp hfile off
      rw [ha]
      exact keepsFiles_setInode (s := s) rfl rfl rfl

theorem wfsReaddir_keepsFiles : KeepsFiles s.toDisk (wfsReaddir s path env).2.2.toDisk := by
  rw [wfsReaddir]
  rcases getInodeFromPath s (cleanPath path) with e | i
  · exact KeepsFiles.refl _
  · dsimp only
    split_ifs
    · exact KeepsFiles.refl _
    · exact keepsFiles_setInode rfl rfl rfl

theorem wfsSetxattr_keepsFiles {value : Option (List UInt8)} :
    KeepsFiles s.toDisk (wfsSetxattr s path name value env).2.toDisk := by
  unfold wfsSetxattr
  repeat' split
  all_goals first | exact KeepsFiles.refl _ | exact keepsFiles_setInode rfl rfl rfl

theorem wfsRemovexattr_keepsFiles :
    KeepsFiles s.toDisk (wfsRemovexattr s path name env).2.toDisk := by
  unfold wfsRemovexattr
  repeat' split
  all_goals first | exact KeepsFiles.refl _ | exact keepsFiles_setInode rfl rfl rfl

/-- Whatever operation allocates an inode leaves it empty. -/
theorem exec_new_empty (h : Base s.toDisk) {op : Op} (hj : ¬ Allocated s.toDisk j)
    (hj' : Allocated (exec env op s).2.toDisk j) : ((exec env op s).2.inodes j).Empty := by
  have hsame (hu : Undone s.toDisk (exec env op s).2.toDisk) : False := by
    obtain ⟨i, -, -, e⟩ := hu
    rw [e] at hj'
    exact hj hj'
  cases exec_effect h op with
  | calm hc => exact absurd ((hc.quiet.alloc j).mp hj') hj
  | undone hu => exact (hsame hu).elim
  | removed p idx name i hleaf hr => exact absurd (hr.allocated.mp hj').1 hj
  | created p idx name i dir hop hc =>
      cases op with
      | mknod path mode =>
          rcases wfsMknod_cases h path.nul_free with ⟨-, e | hu⟩ | ⟨hok, -⟩
          · rw [show (exec env (.mknod path mode) s).2.toDisk = s.toDisk from e] at hj'
            exact absurd hj' hj
          · exact (hsame hu).elim
          · exact wfsMknod_empty h hok hj hj'
      | mkdir path mode =>
          rcases wfsMkdir_cases h path.nul_free with ⟨-, e | hu⟩ | ⟨hok, -⟩
          · rw [show (exec env (.mkdir path mode) s).2.toDisk = s.toDisk from e] at hj'
            exact absurd hj' hj
          · exact (hsame hu).elim
          · exact wfsMkdir_empty h hok hj hj'
      | _ => cases hop

/-- Only `wfs_write` changes files. -/
theorem exec_keepsFiles (h : Base s.toDisk) {op : Op} (hop : ∀ path buf off, op ≠ .write path buf off) :
    KeepsFiles s.toDisk (exec env op s).2.toDisk := by
  cases op with
  | getattr path =>
      rw [exec]
      rcases wfsGetattr s path.bytes with e | st
      · exact KeepsFiles.refl _
      · exact KeepsFiles.refl _
  | mknod path mode =>
      show KeepsFiles s.toDisk (wfsMknod s path.bytes mode env).2.toDisk
      rcases wfsMknod_cases h path.nul_free with ⟨-, e | hu⟩ | ⟨hok, dir, name, p, idx, i, -, -, hc⟩
      · rw [e]
        exact KeepsFiles.refl _
      · exact hu.keepsFiles
      · exact hc.keepsFiles fun j hj hj' => (wfsMknod_empty h hok hj hj').1
  | mkdir path mode =>
      show KeepsFiles s.toDisk (wfsMkdir s path.bytes mode env).2.toDisk
      rcases wfsMkdir_cases h path.nul_free with ⟨-, e | hu⟩ | ⟨hok, dir, name, p, idx, i, -, -, hc⟩
      · rw [e]
        exact KeepsFiles.refl _
      · exact hu.keepsFiles
      · exact hc.keepsFiles fun j hj hj' => (wfsMkdir_empty h hok hj hj').1
  | read path len off => exact wfsRead_keepsFiles
  | write path buf off => exact absurd rfl (hop path buf off)
  | readdir path => exact wfsReaddir_keepsFiles
  | unlink path =>
      show KeepsFiles s.toDisk (wfsUnlink s path.bytes env).2.toDisk
      rcases wfsUnlink_cases h path.nul_free with ⟨-, e⟩ | ⟨-, -, name, p, idx, i, -, -, -, hr⟩
      · rw [e]
        exact KeepsFiles.refl _
      · exact hr.keepsFiles
  | rmdir path =>
      show KeepsFiles s.toDisk (wfsRmdir s path.bytes env).2.toDisk
      rcases wfsRmdir_cases h path.nul_free with ⟨-, e⟩ | ⟨-, name, p, idx, i, -, -, -, hr⟩
      · rw [e]
        exact KeepsFiles.refl _
      · exact hr.keepsFiles
  | statfs => exact KeepsFiles.refl _
  | setxattr path name value => exact wfsSetxattr_keepsFiles
  | getxattr path name size => exact KeepsFiles.refl _
  | removexattr path name => exact wfsRemovexattr_keepsFiles

end SystemsPortfolio.Wfs
