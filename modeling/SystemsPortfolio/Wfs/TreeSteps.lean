/-
SystemsPortfolio/Wfs/TreeSteps.lean

The operations that change the shape of the tree: `wfs_mknod`, `wfs_mkdir`, `wfs_unlink`
and `wfs_rmdir` are steps of `FileTree.Step`.  The other operations and whole runs
follow in `TreeRuns`.
-/
import SystemsPortfolio.Wfs.FileRuns
import SystemsPortfolio.Wfs.FileTree

namespace SystemsPortfolio.Wfs

open ByteStore NameTree

variable {d d' : Disk} {s t : Fs} {i j p idx : Nat} {path name : List UInt8} {env : Env} {now num : Int}

/-! ### Attributes -/

/-- What the operations other than `wfs_setxattr` and `wfs_removexattr` leave alone. -/
def Inode.attrs (ino : Inode) : BitVec 32 × BitVec 32 × BitVec 32 × Color :=
  (ino.mode, ino.uid, ino.gid, ino.color)

theorem attrs_setInode {ino : Inode} (h : ino.attrs = (s.inodes i).attrs) (j : Nat) :
    ((s.setInode i ino).inodes j).attrs = (s.inodes j).attrs := by
  rcases eq_or_ne j i with rfl | hji
  · rw [Fs.setInode_self, h]
  · rw [Fs.setInode_ne hji]

theorem attrs_growDir (k j : Nat) : ((growDir s p k).2.inodes j).attrs = (s.inodes j).attrs := by
  have hino : (allocateDataBlock s).2.inodes = s.inodes := by
    rw [allocateDataBlock]
    split
    · rfl
    · dsimp only
      split_ifs <;> rfl
  rw [growDir]
  split_ifs
  · dsimp only
    split_ifs
    · rw [hino]
    · refine Eq.trans (attrs_setInode ?_ j) (by rw [hino])
      rfl
  · rfl

/-- `add_dentry` keeps all attributes, also those of the directory. -/
theorem attrs_addDentryLoop (l : List Nat) (j : Nat) :
    ((addDentryLoop s p num name now l).2.inodes j).attrs = (s.inodes j).attrs := by
  induction l generalizing s with
  | nil => rfl
  | cons idx l ih =>
      have hgrow := @attrs_growDir s p (idx / 16) j
      rcases e : growDir s p (idx / 16) with ⟨- | -, s₁⟩
      · rw [e] at hgrow
        rw [addDentryLoop_fail e]
        exact hgrow
      · rw [e] at hgrow
        rw [addDentryLoop_step e]
        split_ifs
        · refine Eq.trans (attrs_setInode ?_ j) hgrow
          rfl
        · exact ih.trans hgrow

theorem attrs_addDentry (j : Nat) :
    ((addDentry s p num name now).2.inodes j).attrs = (s.inodes j).attrs := by
  have hloop := @attrs_addDentryLoop s p name now num (List.range 96) j
  rw [addDentry]
  generalize addDentryLoop s p num name now (List.range 96) = r at hloop
  dsimp only
  split_ifs
  · rfl
  · rfl
  · rfl
  · exact hloop

theorem attrs_addLinks (n : Int) (j : Nat) :
    ((addLinks s p n).inodes j).attrs = (s.inodes j).attrs := by
  refine attrs_setInode ?_ j
  rfl

/-! ### Trees of related images -/

/-- Nodes with the same attributes, that are directories or have the same bytes, are equal. -/
theorem nodeAt_eq_of_attrs (hattrs : (d'.inodes j).attrs = (d.inodes j).attrs)
    (hfile : isDir (d.inodes j).mode = false →
      (d'.inodes j).size = (d.inodes j).size ∧ ∀ x, byteAt d' j x = byteAt d j x) :
    nodeAt d' j = nodeAt d j := by
  simp only [Inode.attrs, Prod.mk.injEq] at hattrs
  exact nodeAt_congr hattrs.1 hattrs.2.1 hattrs.2.2.1 hattrs.2.2.2 hfile

/-- Where names, attributes and files stay, so does the tree. -/
theorem Base.fileTree_eq (h : Base d) (hspace : space d' = space d) (hk : KeepsFiles d d')
    (hattrs : ∀ j, Allocated d j → (d'.inodes j).attrs = (d.inodes j).attrs) :
    fileTree d' = fileTree d := by
  rw [fileTree, hspace]
  refine h.sound.view_congr fun j hj => nodeAt_eq_of_attrs (hattrs j hj) fun hfile => ?_
  have hj' : Allocated d' j := by
    show (space d').node j
    rw [hspace]
    exact hj
  exact ⟨hk.size j hj hj' hfile, (hk.same j hj hj' hfile).byteAt⟩

theorem fileTree_undone (hu : Undone d d') (h : Base d) : fileTree d' = fileTree d := by
  obtain ⟨hq, hino⟩ := hu.calm_space h
  exact h.fileTree_eq hq.space hu.keepsFiles fun j hj => by rw [hino j hj]

/-- Creating puts the new node at the end of the way to the directory. -/
theorem fileTree_created {dir : Bool} {names : List (List UInt8)}
    (hc : Created d d' p idx name i dir) (h : Base d) (hw : (space d).Walk 0 names p)
    (hattrs : (d'.inodes p).attrs = (d.inodes p).attrs) :
    fileTree d' = Function.update (fileTree d) (names ++ [name]) (some (nodeAt d' i)) := by
  refine h.sound.view_create h.namesAtPlaces hc.fresh hw hc.space hc.base.sound fun j hj => ?_
  have hji : j ≠ i := ne_of_free hc.fresh hj
  rcases eq_or_ne j p with rfl | hjp
  · refine nodeAt_eq_of_attrs hattrs fun hfile => ?_
    rw [hc.parent.2] at hfile
    cases hfile
  · refine nodeAt_eq_of_attrs (by rw [hc.others j hjp hji]) fun _ => ?_
    exact ⟨by rw [hc.others j hjp hji], (hc.same j hjp hj).byteAt⟩

/-- Removing takes away what is at the end of the way. -/
theorem fileTree_removed {names : List (List UInt8)} (hr : Removed d d' p idx name i) (h : Base d)
    (hw : (space d).Walk 0 names p) (hleaf : ∀ l a c, ¬ (space d).entry i l a c)
    (hattrs : (d'.inodes p).attrs = (d.inodes p).attrs) :
    fileTree d' = Function.update (fileTree d) (names ++ [name]) none := by
  refine h.sound.view_delete h.namesAtPlaces hr.entry hleaf hw hr.space hr.base.sound
    fun j hj hji => ?_
  rcases eq_or_ne j p with rfl | hjp
  · refine nodeAt_eq_of_attrs hattrs fun hfile => ?_
    rw [hr.entry.1.2] at hfile
    cases hfile
  · refine nodeAt_eq_of_attrs (by rw [hr.others j hjp hji]) fun _ => ?_
    exact ⟨by rw [hr.others j hjp hji], (hr.same j hjp hji hj).byteAt⟩

/-- Changing one inode, within the same names, changes one node. -/
theorem Base.fileTree_update (h : Base d) (hspace : space d' = space d)
    {names : List (List UInt8)} (hw : (space d).Walk 0 names i)
    (hothers : ∀ j, Allocated d j → j ≠ i → d'.inodes j = d.inodes j ∧ SameBlocks d d' j) :
    fileTree d' = Function.update (fileTree d) names (some (nodeAt d' i)) := by
  rw [fileTree, hspace]
  refine h.sound.view_relabel h.namesAtPlaces hw fun j hj hji => ?_
  obtain ⟨hino, hsame⟩ := hothers j hj hji
  exact nodeAt_eq_of_attrs (by rw [hino]) fun _ => ⟨by rw [hino], hsame.byteAt⟩

/-! ### Creating -/

/-- What a failed `add_dentry` returns for a name that is not there. -/
theorem addDentry_code (h : Base s.toDisk) (hp : (space s.toDisk).dir p) (hne : name ≠ [])
    (hnul : ∀ c ∈ name, c ≠ 0) (hfree : ∀ l c, ¬ (space s.toDisk).entry p l name c)
    (hrc : (addDentry s p num name now).1 < 0) :
    (addDentry s p num name now).1 = -ENOSPC ∨
      (addDentry s p num name now).1 = -ENAMETOOLONG ∧ 28 ≤ name.length := by
  have hlen : 0 < name.length := List.length_pos_iff.mpr hne
  rcases dentryToNum_cases h hp hnul with ⟨l, c, he, -⟩ | ⟨-, e⟩
  · exact absurd he (hfree l c)
  rw [addDentry, if_neg (by rw [hp.2]; decide), e, if_neg (by decide)] at hrc ⊢
  by_cases hlong : min name.length 28 = 0 ∨ 28 ≤ min name.length 28
  · simp only [if_pos hlong] at hrc ⊢
    exact Or.inr ⟨trivial, by omega⟩
  · simp only [if_neg hlong] at hrc ⊢
    rcases addDentryLoop_cases h.owned hp.1 num name now with
      ⟨-, e⟩ | ⟨idx, hlow, ⟨-, -, e⟩ | ⟨g, hg, e⟩⟩
    · rw [e]
      exact Or.inl rfl
    · rw [e]
      exact Or.inl rfl
    · rw [e] at hrc
      exact absurd hrc (lt_irrefl 0)

/-- Naming a prepared inode in a vacant place, or giving it back. -/
theorem settle_create {m : Fs} {undo : Fs → Fs} {dir : Bool} {names : List (List UInt8)} {n : Node}
    (h : Base s.toDisk) (hv : Vacant s.toDisk names p name) (hm : Prepared s.toDisk m.toDisk p i dir)
    (hattrs : (m.inodes p).attrs = (s.inodes p).attrs)
    (hundo : ∀ t : Fs, t.toDisk = m.toDisk → Undone s.toDisk (undo t).toDisk)
    (hnode : ∀ t : Fs, t.inodes i = m.inodes i → nodeAt t.toDisk i = n)
    (hplace : (fileTree s.toDisk).newPlace (cleanPath path) = .ok (names, name)) :
    (fileTree s.toDisk).Create path n (settle (addDentry m p i name now) undo).1
      (fileTree (settle (addDentry m p i name now) undo).2.toDisk) := by
  rw [FileTree.Create, hplace]
  have hfree : ∀ l c, ¬ (space m.toDisk).entry p l name c := by
    rw [hm.space]
    exact hv.free
  have hdir := (hm.nameable h).parent
  rw [settle]
  rcases addDentry_cases hm.base (hm.nameable h) hv.nonempty hv.nul now with
    ⟨hrc, hsame⟩ | ⟨hrc, idx, ha⟩
  · -- the inode is freed again
    rw [if_pos hrc]
    refine Or.inr ⟨addDentry_code hm.base hdir hv.nonempty hv.nul hfree hrc, ?_⟩
    exact fileTree_undone (hundo _ hsame) h
  · rw [if_neg (by rw [hrc]; decide)]
    have hc := ha.created hm
    refine Or.inl ⟨rfl, hc.good.lt, ?_⟩
    have hpi : i ≠ p := (ne_of_free hm.fresh hv.parent.1).symm
    rw [fileTree_created hc h hv.walk ((attrs_addDentry p).trans hattrs),
      hnode _ (addDentry_frame.2.2 i hpi)]

theorem byteAt_of_no_blocks (hb : (d.inodes i).blocks = fun _ => 0) (x : Nat) : byteAt d i x = 0 := by
  have hslot : ∀ sl, slotVal d i sl = 0 := by
    intro sl
    cases sl <;> simp [slotVal, hb]
  rw [byteAt]
  split_ifs with hx h0
  · rfl
  · exact absurd (hslot _) h0
  · rfl

theorem and_mask_normalized (mode : BitVec 32) :
    (if (!isReg mode && !isFifo mode) = true then 0o100000#32 ||| (mode &&& 0o777#32) else mode) &&&
      0o777#32 = mode &&& 0o777#32 := by
  split_ifs
  · rw [BitVec.and_or_distrib_right, BitVec.and_assoc, BitVec.and_self]
    simp
  · rfl

/-- `wfs_mknod` fails to find a place, finds no inode, or names a new file. -/
theorem wfsMknod_place (h : Base s.toDisk) (mode : BitVec 32) :
    match createPlace s (cleanPath path) with
    | .error e => wfsMknod s path mode env = (e, s)
    | .ok (p, name) =>
        (∃ t, t.toDisk = s.toDisk ∧ wfsMknod s path mode env = (-ENOSPC, t)) ∨
        ∃ i < s.sb.numInodes, bitmapTest i s.ibm = false ∧
          wfsMknod s path mode env = settle (addDentry (newInode s i
            (freshInode i (0o100000#32 ||| (mode &&& 0o777#32)) env (env.now 1))) p i name (env.now 2))
            fun t => freeInode t i := by
  rw [wfsMknod, createPlace, and_mask_normalized]
  rcases splitPath (cleanPath path) with e | ⟨dir, name⟩
  · rfl
  dsimp only
  rcases parentDir s dir with e | p
  · rfl
  dsimp only
  by_cases hex : 0 ≤ dentryToNum s name p
  · rw [if_pos hex, if_pos hex]
  rw [if_neg hex, if_neg hex]
  dsimp only
  rcases allocateInode_cases h.owned.sbOk (env.now 0) with ⟨e, -⟩ | ⟨i, hi, hfree, s₁, e, hfill⟩
  · rw [e]
    exact Or.inl ⟨{ s with wfsError := -ENOSPC }, rfl, rfl⟩
  · rw [e]
    refine Or.inr ⟨i, hi, hfree, ?_⟩
    dsimp only
    rw [hfill, newInode_inode]
    rfl

/-- `wfs_mkdir` likewise; the new directory is counted in its parent. -/
theorem wfsMkdir_place (h : Base s.toDisk) (mode : BitVec 32) :
    match createPlace s (cleanPath path) with
    | .error e => wfsMkdir s path mode env = (e, s)
    | .ok (p, name) =>
        (∃ t, t.toDisk = s.toDisk ∧ wfsMkdir s path mode env = (-ENOSPC, t)) ∨
        ∃ i < s.sb.numInodes, bitmapTest i s.ibm = false ∧
          wfsMkdir s path mode env = settle (addDentry (addLinks (newInode s i
            (freshDir i mode env (env.now 1))) p 1) p i name (env.now 2))
            fun t => addLinks (freeInode t i) p (-1) := by
  rw [wfsMkdir, createPlace]
  rcases splitPath (cleanPath path) with e | ⟨dir, name⟩
  · rfl
  dsimp only
  rcases hpd : parentDir s dir with e | p
  · rfl
  dsimp only
  by_cases hex : 0 ≤ dentryToNum s name p
  · rw [if_pos hex, if_pos hex]
  rw [if_neg hex, if_neg hex]
  dsimp only
  rcases allocateInode_cases h.owned.sbOk (env.now 0) with ⟨e, -⟩ | ⟨i, hi, hfree, s₁, e, hfill⟩
  · rw [e]
    exact Or.inl ⟨{ s with wfsError := -ENOSPC }, rfl, rfl⟩
  · rw [e]
    refine Or.inr ⟨i, hi, hfree, ?_⟩
    have hpi := ne_of_free (not_allocated hfree) (parentDir_ok hpd).1
    have hfresh : { freshInode i (0o040000#32 ||| (mode &&& 0o777#32)) env (env.now 1) with
        nlinks := 2 } = freshDir i mode env (env.now 1) := rfl
    dsimp only
    rw [hfill, newInode_inode, setInode_newInode, hfresh, addLinks_inodes_ne 1 hpi.symm,
      newInode_inode]
    rfl

theorem wfsMknod_step (h : Base s.toDisk) (hpath : ∀ c ∈ path, c ≠ 0) (mode : BitVec 32) :
    (fileTree s.toDisk).Create path
      (newNode env (0o100000#32 ||| (mode &&& 0o777#32)) (.file 0 fun _ => 0))
      (wfsMknod s path mode env).1 (fileTree (wfsMknod s path mode env).2.toDisk) := by
  have htree := createPlace_tree h (cleanPath_nul_free hpath)
  have hcode := @wfsMknod_place s path env h mode
  rcases hp : createPlace s (cleanPath path) with e | ⟨p, name⟩
  · rw [hp] at htree hcode
    rw [FileTree.Create, htree, hcode]
    exact ⟨rfl, rfl⟩
  rw [hp] at htree hcode
  obtain ⟨dir, hv, hplace⟩ := htree
  rcases hcode with ⟨t, ht, e⟩ | ⟨i, hi, hfree, e⟩
  · rw [FileTree.Create, hplace, e]
    exact Or.inr ⟨Or.inl rfl, by rw [ht]⟩
  have hpi := ne_of_free (not_allocated hfree) hv.parent.1
  have hlt : i < 2 ^ 31 := hi.trans h.owned.sbOk.inodes_lt
  rw [e]
  refine settle_create h hv (prepared_file h hv.parent hi hfree mode env (env.now 1)) ?_
    (fun t ht => ⟨i, not_allocated hfree, hi, undo_file ht hlt rfl hfree⟩) (fun t ht => ?_) hplace
  · rw [newInode_inodes_ne hpi]
  · rw [newInode_inode] at ht
    have hfile : isDir (t.inodes i).mode = false := by
      rw [ht]
      exact isDir_eq_false_of_isReg (isReg_regMode mode)
    rw [nodeAt, if_neg (by rw [hfile]; decide),
      funext (@byteAt_of_no_blocks t.toDisk i (by rw [ht]; rfl)), ht]
    rfl

theorem wfsMkdir_step (h : Base s.toDisk) (hpath : ∀ c ∈ path, c ≠ 0) (mode : BitVec 32) :
    (fileTree s.toDisk).Create path (newNode env (0o040000#32 ||| (mode &&& 0o777#32)) .dir)
      (wfsMkdir s path mode env).1 (fileTree (wfsMkdir s path mode env).2.toDisk) := by
  have htree := createPlace_tree h (cleanPath_nul_free hpath)
  have hcode := @wfsMkdir_place s path env h mode
  rcases hp : createPlace s (cleanPath path) with e | ⟨p, name⟩
  · rw [hp] at htree hcode
    rw [FileTree.Create, htree, hcode]
    exact ⟨rfl, rfl⟩
  rw [hp] at htree hcode
  obtain ⟨dir, hv, hplace⟩ := htree
  rcases hcode with ⟨t, ht, e⟩ | ⟨i, hi, hfree, e⟩
  · rw [FileTree.Create, hplace, e]
    exact Or.inr ⟨Or.inl rfl, by rw [ht]⟩
  have hpi := ne_of_free (not_allocated hfree) hv.parent.1
  have hlt : i < 2 ^ 31 := hi.trans h.owned.sbOk.inodes_lt
  rw [e]
  refine settle_create h hv (prepared_dir h hv.parent hi hfree mode env (env.now 1)) ?_
    (fun t ht => ⟨i, not_allocated hfree, hi, undo_dir ht hlt rfl hfree hpi⟩) (fun t ht => ?_) hplace
  · rw [attrs_addLinks, newInode_inodes_ne hpi]
  · rw [addLinks_inodes_ne 1 hpi.symm, newInode_inode] at ht
    have hdir : isDir (t.inodes i).mode = true := by
      rw [ht]
      exact isDir_dirMode mode
    rw [nodeAt, if_pos hdir, ht]
    rfl

/-! ### Removing -/

theorem attrs_removal {l : Nat} {now' : Int} (h : Base s.toDisk)
    (he : (space s.toDisk).entry p idx name i) :
    ((removal s p idx i l now now').inodes p).attrs = (s.inodes p).attrs := by
  have hpi : p ≠ i := (h.sound.irrefl he).symm
  rw [removal, touch]
  refine (attrs_setInode ?_ p).trans ?_
  · rfl
  rw [(dropped_removal h he).others p hpi, attrs_addLinks]
  refine Eq.trans (attrs_setInode ?_ p) ?_
  · rfl
  · rfl

/-- `wfs_unlink` removes the file at the end of its path, or fails as the tree says. -/
theorem wfsUnlink_step (h : Base s.toDisk) (hpath : ∀ c ∈ path, c ≠ 0) :
    ((wfsUnlink s path env).1, fileTree (wfsUnlink s path env).2.toDisk) =
      (fileTree s.toDisk).unlink path := by
  have hleaf := resolveLeaf_tree h (cleanPath_nul_free hpath)
  rw [wfsUnlink_eq_resolveLeaf, FileTree.unlink]
  rcases splitPath (cleanPath path) with e | ⟨dir, name⟩
  · rfl
  dsimp only
  by_cases hdot : name = [46] ∨ name = [46, 46]
  · rw [if_pos hdot, if_pos hdot]
  rw [if_neg hdot, if_neg hdot]
  rcases hr : resolveLeaf s (cleanPath path) with e | ⟨p, i⟩
  · rw [hr] at hleaf
    rw [hleaf]
    rfl
  rw [hr] at hleaf
  obtain ⟨names, name', idx, hw, he, -, hl⟩ := hleaf
  rw [hl, afterLookup]
  dsimp only
  rw [nodeAt_isDir]
  rcases hfile : isDir (s.inodes i).mode with - | -
  · have hno : ∀ l a c, ¬ (space s.toDisk).entry i l a c := by
      intro l a c he'
      rw [he'.1.2] at hfile
      cases hfile
    rw [unlinkAt_eq h he hfile, if_neg (by decide)]
    rw [fileTree_removed (removed_file h he hfile) h hw hno (attrs_removal h he)]
  · rw [unlinkAt, hfile, if_pos rfl, if_pos rfl]

/-- `wfs_rmdir` removes the empty directory at the end of its path, or fails as the tree
says. -/
theorem wfsRmdir_step (h : Tree s.toDisk) (hpath : ∀ c ∈ path, c ≠ 0) :
    ((wfsRmdir s path env).1, fileTree (wfsRmdir s path env).2.toDisk) =
      (fileTree s.toDisk).rmdir path := by
  have hb := h.base
  have hleaf := resolveLeaf_tree hb (cleanPath_nul_free hpath)
  rw [wfsRmdir_eq_resolveLeaf, FileTree.rmdir]
  by_cases hroot : cleanPath path = [slash]
  · rw [if_pos hroot, if_pos hroot]
  rw [if_neg hroot, if_neg hroot]
  rcases hr : resolveLeaf s (cleanPath path) with e | ⟨p, i⟩
  · rw [hr] at hleaf
    rw [hleaf]
    rfl
  rw [hr] at hleaf
  obtain ⟨names, name, idx, hw, he, -, hl⟩ := hleaf
  rw [hl, afterLookup]
  dsimp only
  rw [nodeAt_isDir, rmdirAt]
  rcases hdir : isDir (s.inodes i).mode with - | -
  · rw [if_pos rfl, if_pos rfl]
  rw [if_neg Bool.noConfusion, if_neg (show ¬ true = false by decide)]
  have hi : (space s.toDisk).dir i := ⟨(hb.sound.target he).1, hdir⟩
  -- the emptiness test passes over dot names, and there are none
  have hempty : hasOtherEntry s i = false ↔ ∀ l a c, ¬ (space s.toDisk).entry i l a c := by
    rw [hasOtherEntry_iff hb hi]
    refine ⟨fun hall l a c he' => ?_, fun hno l a c he' => absurd he' (hno l a c)⟩
    rcases hall l a c he' with rfl | rfl
    · exact (h.dots _ _ _ _ he').1 rfl
    · exact (h.dots _ _ _ _ he').2 rfl
  have hchild : (∃ a, fileTree s.toDisk ((names ++ [name]) ++ [a]) ≠ none) ↔
      ¬ ∀ l a c, ¬ (space s.toDisk).entry i l a c := by
    constructor
    · rintro ⟨a, ha⟩ hno
      exact ha (hb.fileTree_snoc_none (hw.step he) fun l c => hno l a c)
    · intro hsome
      push Not at hsome
      obtain ⟨l, a, c, he'⟩ := hsome
      refine ⟨a, ?_⟩
      rw [hb.fileTree_snoc (hw.step he) he']
      exact Option.some_ne_none _
  rcases hother : hasOtherEntry s i with - | -
  · have hno := hempty.mp hother
    rw [if_neg (by decide), if_neg (fun hex => hchild.mp hex hno)]
    simp only [removeDentry_eq hb he, lt_irrefl, if_false]
    exact congrArg (Prod.mk 0)
      (fileTree_removed (removed_dir hb he hdir) hb hw hno (attrs_removal hb he))
  · rw [if_pos rfl, if_pos]
    refine hchild.mpr fun hno => ?_
    rw [hempty.mpr hno] at hother
    cases hother

end SystemsPortfolio.Wfs
