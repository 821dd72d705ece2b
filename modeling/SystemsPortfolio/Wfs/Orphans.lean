/-
SystemsPortfolio/Wfs/Orphans.lean

What `wfs_rmdir` leaves behind.

The emptiness check of `wfs_rmdir` passes over entries called "." and "..".
WFS does not create such entries by itself, but `wfs_mknod` and `wfs_mkdir` accept
the names, so that an entry passed over may be a file or a directory of its own.
Removing its parent leaves it allocated and without a name.  `run_rmdir_orphans`
says that this is the only way to lose a name: as long as no directory with dot
names only is removed, every allocated inode keeps its entry.
-/
import SystemsPortfolio.Wfs.Runs

namespace SystemsPortfolio.Wfs

open ByteStore NameTree

variable {d d' : Disk} {s : Fs} {i j p idx : Nat} {name : List UInt8} {env : Env} {op : Op}

/-! ### Names of inodes -/

/-- Every allocated inode but the root has a live entry in an allocated directory. -/
def Named (d : Disk) : Prop :=
  ∀ c, Allocated d c → c ≠ 0 → ∃ p idx a, (space d).entry p idx a c

/-- Directory `i` has live entries, and all of them are called "." or "..". -/
def DotsOnly (d : Disk) (i : Nat) : Prop :=
  (∃ idx a c, (space d).entry i idx a c) ∧
    ∀ idx a c, (space d).entry i idx a c → a = [46] ∨ a = [46, 46]

/-- If the operation is `wfs_rmdir`, then its path does not designate a directory with
dot names only. -/
def Careful (s : Fs) : Op → Prop
  | .rmdir path => ∀ i, Designates s path.bytes i → ¬ DotsOnly s.toDisk i
  | _ => True

theorem named_of_rooted (h : (space d).Rooted 0) : Named d := by
  intro c hc hne
  obtain ⟨p, idx, a, he⟩ := h.named hc hne
  exact ⟨p, idx, a, he⟩

/-- What a removed directory still contained has lost its name. -/
theorem Removed.not_named (h : Base d) (hr : Removed d d' p idx name i) {l c : Nat} {a : List UInt8}
    (he : (Wfs.space d).entry i l a c) : ¬ Named d' := by
  intro hn
  have hc := h.sound.target he
  obtain ⟨q, k, b, hq⟩ := hn c (hr.allocated.mpr ⟨hc.1, h.sound.irrefl he⟩) hc.2
  rw [hr.space] at hq
  -- its only entry was in the directory that is gone
  exact hq.2 (h.sound.single hq.1.1 he).1

/-! ### One operation -/

/-- `wfs_rmdir` succeeds on a directory whose entries it passes over. -/
theorem wfsRmdir_of_dots (h : Base s.toDisk) {path : List UInt8} (hpath : ∀ c ∈ path, c ≠ 0)
    (hdes : Designates s path i) (hi : (space s.toDisk).dir i)
    (hdots : ∀ l a c, (space s.toDisk).entry i l a c → a = [46] ∨ a = [46, 46]) :
    (wfsRmdir s path env).1 = 0 := by
  obtain ⟨dir, name, p, hs, hp, hnum⟩ := hdes
  have hroot : cleanPath path ≠ [slash] := by
    intro e
    rw [e] at hs
    cases hs
  have hret := retrieveInode_of_allocated hi.1
  have hpos : ¬ (i : Int) < 0 := by omega
  obtain ⟨idx, he, -⟩ := entry_of_dentryToNum h (parentDir_ok hp) (leafName_spec hpath hs).2
    (by rw [hnum]; exact hpos) (by rw [hnum]; exact hret)
  simp only [wfsRmdir, if_neg hroot, hs, hp, hnum, if_neg hpos, hret, hi.2, Bool.true_eq_false,
    if_false, (hasOtherEntry_iff h hi).mpr hdots, Bool.false_eq_true, removeDentry_eq h he, lt_irrefl]

/-- Only `wfs_unlink` and `wfs_rmdir` give inodes back: the one a regular file, the other
the directory that its path designates. -/
theorem exec_gone (h : Base s.toDisk) (hi : Allocated s.toDisk i)
    (hgone : ¬ Allocated (exec env op s).2.toDisk i) : isDir (s.inodes i).mode = false ∨
      ∃ path, op = .rmdir path ∧ Designates s path.bytes i := by
  have hkeep {d' : Disk} (e : d' = s.toDisk) : Allocated d' i := by rwa [e]
  have hcalm {d' : Disk} (hc : Calm s.toDisk d') : Allocated d' i := (hc.quiet.alloc i).mpr hi
  have hundone {d' : Disk} (hu : Undone s.toDisk d') : Allocated d' i :=
    ((hu.calm_space h).1.alloc i).mpr hi
  have hcreated {d' : Disk} {p idx c : Nat} {a : List UInt8} {dir : Bool}
      (hc : Created s.toDisk d' p idx a c dir) : Allocated d' i := by
    show (space d').node i
    rw [hc.space]
    exact Or.inr hi
  cases op with
  | getattr path =>
      rw [exec] at hgone
      split at hgone
      · exact absurd hi hgone
      · exact absurd hi hgone
  | mknod path mode =>
      rcases wfsMknod_cases h path.nul_free with ⟨-, e | hu⟩ | ⟨-, dir, name, p, idx, c, -, -, hc⟩
      · exact absurd (hkeep e) hgone
      · exact absurd (hundone hu) hgone
      · exact absurd (hcreated hc) hgone
  | mkdir path mode =>
      rcases wfsMkdir_cases h path.nul_free with ⟨-, e | hu⟩ | ⟨-, dir, name, p, idx, c, -, -, hc⟩
      · exact absurd (hkeep e) hgone
      · exact absurd (hundone hu) hgone
      · exact absurd (hcreated hc) hgone
  | read path len off => exact absurd (hcalm (wfsRead_calm h)) hgone
  | write path buf off => exact absurd (hcalm (wfsWrite_calm h)) hgone
  | readdir path => exact absurd (hcalm (wfsReaddir_calm h)) hgone
  | unlink path =>
      rcases wfsUnlink_cases h path.nul_free with ⟨-, e⟩ | ⟨-, -, name, p, idx, c, -, -, hfile, hr⟩
      · exact absurd (hkeep e) hgone
      · have hic : i = c := by
          by_contra hne
          exact hgone (hr.allocated.mpr ⟨hi, hne⟩)
        subst hic
        exact Or.inl hfile
  | rmdir path =>
      rcases wfsRmdir_cases h path.nul_free with ⟨-, e⟩ | ⟨-, name, p, idx, c, hdes, -, -, hr⟩
      · exact absurd (hkeep e) hgone
      · have hic : i = c := by
          by_contra hne
          exact hgone (hr.allocated.mpr ⟨hi, hne⟩)
        subst hic
        exact Or.inr ⟨path, rfl, hdes⟩
  | statfs => exact absurd hi hgone
  | setxattr path name value =>
      rcases wfsSetxattr_cases h with ⟨-, e⟩ | ⟨-, hc⟩
      · exact absurd (hkeep e) hgone
      · exact absurd (hcalm hc) hgone
  | getxattr path name size => exact absurd hi hgone
  | removexattr path name =>
      rcases wfsRemovexattr_cases h with ⟨-, e⟩ | ⟨-, hc⟩
      · exact absurd (hkeep e) hgone
      · exact absurd (hcalm hc) hgone

/-- The step lemma: a careful operation keeps the name space a tree. -/
theorem rooted_exec (h : Base s.toDisk) (hr : (space s.toDisk).Rooted 0) (hop : Careful s op) :
    (space (exec env op s).2.toDisk).Rooted 0 := by
  have heffect : Effect op s.toDisk (exec env op s).2.toDisk := exec_effect h op
  have hgone : ∀ i, Allocated s.toDisk i → ¬ Allocated (exec env op s).2.toDisk i →
      isDir (s.inodes i).mode = false ∨ ∃ path, op = .rmdir path ∧ Designates s path.bytes i :=
    fun i => exec_gone h
  generalize (exec env op s).2.toDisk = d' at heffect hgone
  cases heffect with
  | calm hc =>
      rw [hc.quiet.space]
      exact hr
  | undone hu =>
      rw [(hu.calm_space h).1.space]
      exact hr
  | created p idx name i dir hname hc =>
      rw [hc.space]
      exact hr.create hc.parent hc.fresh hc.nameFree hc.placeFree
  | removed p idx name i hleaf hrem =>
      rw [hrem.space]
      refine hr.delete hrem.entry fun l a c he => ?_
      have hi := h.sound.dir_node (h.sound.entry_dir he)
      rcases hgone i hi fun hi' => (hrem.allocated.mp hi').2 rfl with hfile | ⟨path, rfl, hdes⟩
      · -- a regular file contains nothing
        have hdir := (h.sound.entry_dir he).2
        rw [hfile] at hdir
        cases hdir
      · exact hop i hdes ⟨⟨l, a, c, he⟩, hleaf⟩

theorem Meets.rooted {ops : List (Env × Op)} (h : Base s.toDisk) (hr : (space s.toDisk).Rooted 0)
    (hops : Meets Careful s ops) : (space (run s ops).toDisk).Rooted 0 := by
  induction ops generalizing s with
  | nil => exact hr
  | cons e ops ih =>
      exact ih ((exec_effect h e.2).base h) (rooted_exec h hr hops.1) hops.2

/-! ### Runs -/

/-- In every run without removals of directories with dot names only: a call of
`wfs_rmdir` that returns 0 has removed a directory without live entries, and has left
every allocated inode but the root with a name, if and only if its path does not
designate a directory with dot names only. -/
theorem run_rmdir_orphans {ops : List (Env × Op)} (hd : MkfsImage d)
    (hops : Meets Careful (mount d) ops) (hs : run (mount d) ops = s) (path : CString) (env : Env) :
    ((wfsRmdir s path.bytes env).1 = 0 →
      (∃ i, Designates s path.bytes i ∧ (space s.toDisk).dir i ∧
        ¬ Allocated (wfsRmdir s path.bytes env).2.toDisk i ∧
        ∀ idx a c, ¬ (space s.toDisk).entry i idx a c) ∧
      Named (wfsRmdir s path.bytes env).2.toDisk) ↔
    ∀ i, Designates s path.bytes i → ¬ DotsOnly s.toDisk i := by
  subst hs
  have hb := base_run hd ops
  have hr := hops.rooted hd.base hd.tree.rooted
  generalize run (mount d) ops = s at hb hr ⊢
  constructor
  · intro hprop i hdes hdots
    obtain ⟨l, a, c, he⟩ := hdots.1
    have hok : (wfsRmdir s path.bytes env).1 = 0 :=
      wfsRmdir_of_dots hb path.nul_free hdes (hb.sound.entry_dir he) hdots.2
    obtain ⟨⟨j, hj, -, -, hempty⟩, -⟩ := hprop hok
    obtain rfl := hdes.unique hj
    exact hempty l a c he
  · intro hcareful hok
    rcases wfsRmdir_cases hb path.nul_free with
      ⟨hneg, -⟩ | ⟨-, name, p, idx, i, hdes, hdir, hleaf, hrem⟩
    · exact absurd hok (ne_of_lt hneg)
    · have hempty : ∀ l a c, ¬ (space s.toDisk).entry i l a c :=
        fun l a c he => hcareful i hdes ⟨⟨l, a, c, he⟩, hleaf⟩
      have hi : (space s.toDisk).dir i := ⟨(hb.sound.target hrem.entry).1, hdir⟩
      have hop : Careful s (.rmdir path) := hcareful
      refine ⟨⟨i, hdes, hi, fun hi' => (hrem.allocated.mp hi').2 rfl, hempty⟩, ?_⟩
      exact named_of_rooted (rooted_exec hb hr hop)

/-- Make the directory "/d". -/
def dirOps : List (Env × Op) := [(plainEnv, .mkdir dirPath 0o755#32)]

theorem dirPath_designates : Designates (run (mount smallDisk) dirOps) dirPath.bytes 1 :=
  ⟨[47], [100], 0, by decide, by decide +kernel, by decide +kernel⟩

/-- Removing an empty directory. -/
theorem run_rmdir_orphans_empty :
    (wfsRmdir (run (mount smallDisk) dirOps) dirPath.bytes plainEnv).1 = 0 ∧
      Named (wfsRmdir (run (mount smallDisk) dirOps) dirPath.bytes plainEnv).2.toDisk := by
  have hok : (wfsRmdir (run (mount smallDisk) dirOps) dirPath.bytes plainEnv).1 = 0 := by
    decide +kernel
  have hmeets : Meets Careful (mount smallDisk) dirOps := ⟨trivial, trivial⟩
  refine ⟨hok, ((run_rmdir_orphans smallDisk_mkfs.mkfsImage hmeets rfl dirPath plainEnv).mpr
    (fun i hi hdots => ?_) hok).2⟩
  obtain rfl := dirPath_designates.unique hi
  obtain ⟨idx, a, c, he⟩ := hdots.1
  have hnone : liveEntry (run (mount smallDisk) dirOps).toDisk 1 idx = none :=
    liveEntry_of_block_eq_zero rfl
  cases hnone.symm.trans he.2.2

/-- The path "/d/.", with an escape sequence that `clean_path` strips. -/
def dotPath : CString := ⟨[47, 100, 47, 46, 27, 91, 109], by simp⟩

/-- Make the directory "/d" and in it a file called ".". -/
def dotOps : List (Env × Op) :=
  [(plainEnv, .mkdir dirPath 0o755#32), (plainEnv, .mknod dotPath 0o100644#32)]

/-- Removing "/d" then leaves the file allocated without a name. -/
theorem rmdir_orphans_dot_file :
    (wfsRmdir (run (mount smallDisk) dotOps) dirPath.bytes plainEnv).1 = 0 ∧
      Allocated (wfsRmdir (run (mount smallDisk) dotOps) dirPath.bytes plainEnv).2.toDisk 2 ∧
      ¬ Named (wfsRmdir (run (mount smallDisk) dotOps) dirPath.bytes plainEnv).2.toDisk := by
  have hb := base_run smallDisk_mkfs.mkfsImage dotOps
  have hdes : Designates (run (mount smallDisk) dotOps) dirPath.bytes 1 :=
    ⟨[47], [100], 0, by decide, by decide +kernel, by decide +kernel⟩
  have hdir : (space (run (mount smallDisk) dotOps).toDisk).dir 1 :=
    ⟨by decide +kernel, by decide +kernel⟩
  have hentry : (space (run (mount smallDisk) dotOps).toDisk).entry 1 0 [46] 2 :=
    ⟨hdir, by decide, by decide +kernel⟩
  have hdots := (hasOtherEntry_iff hb hdir).mp (by decide +kernel)
  have hok : (wfsRmdir (run (mount smallDisk) dotOps) dirPath.bytes plainEnv).1 = 0 :=
    wfsRmdir_of_dots hb dirPath.nul_free hdes hdir hdots
  rcases wfsRmdir_cases hb dirPath.nul_free with ⟨hneg, -⟩ | ⟨-, name, p, idx, i, hi, -, -, hrem⟩
  · exact absurd hok (ne_of_lt hneg)
  · obtain rfl := hdes.unique hi
    exact ⟨hok, hrem.allocated.mpr ⟨by decide +kernel, by decide⟩, hrem.not_named hb hentry⟩

end SystemsPortfolio.Wfs
