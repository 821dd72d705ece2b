/-
SystemsPortfolio/Wfs/Effects.lean

What the operations that change the name space do to an image, said once for
each of them:

* `wfs_mknod` and `wfs_mkdir` either fail, and then at most the slot of the
  inode they took for a while has been zeroed, or they have `Created` a named
  inode (`wfsMknod_cases`, `wfsMkdir_cases`);
* `wfs_unlink` and `wfs_rmdir` either fail and change nothing, or they have
  `Removed` a named inode (`wfsUnlink_cases`, `wfsRmdir_cases`).
-/
import SystemsPortfolio.Wfs.Resolve

namespace SystemsPortfolio.Wfs

open ByteStore NameTree

variable {d d' d'' : Disk} {s t : Fs} {i j p idx : Nat} {name : List UInt8} {now : Int}

/-! ### `add_dentry` -/

/-- An entry `name ↦ i` has been added at position `idx` of directory `p`. -/
structure Added (d d' : Disk) (p idx : Nat) (name : List UInt8) (i : Nat) : Prop where
  base : Base d'
  good : GoodName name
  space : space d' = (space d).addEntry p idx name i
  nameFree : ∀ l c, ¬ (Wfs.space d).entry p l name c
  placeFree : ∀ a c, ¬ (Wfs.space d).entry p idx a c
  links : ∀ j, (d'.inodes j).nlinks = (d.inodes j).nlinks
  others : ∀ j, j ≠ p → d'.inodes j = d.inodes j
  same : ∀ j, j ≠ p → Allocated d j → SameBlocks d d' j

/-- What `add_dentry` needs to know about the inode it is to name. -/
structure Nameable (d : Disk) (p i : Nat) : Prop where
  parent : (space d).dir p
  alloc : Allocated d i
  ne_root : i ≠ 0
  ne_parent : i ≠ p
  unnamed : ∀ q l a, ¬ (space d).entry q l a i

theorem Roomy.added {g : Fs} (h : Base s.toDisk) (hn : Nameable s.toDisk p i)
    (hname : GoodName name) (hnew : ∀ l c, ¬ (space s.toDisk).entry p l name c)
    (hlow : LowestFree s.toDisk p idx) (hg : Roomy s p idx g) :
    Added s.toDisk (writeEntry g p idx i name now).toDisk p idx name i := by
  have hidx := hlow.lt
  -- both kinds of room are quiet, and the entry then has a place
  have hq : Quiet s.toDisk g.toDisk ∧ (∀ j, (g.inodes j).nlinks = (s.inodes j).nlinks) ∧
      (g.inodes p).blocks (idx / 16) ≠ 0 ∧ Confined s.toDisk g.toDisk p := by
    cases hg with
    | old hb =>
        refine ⟨⟨h.owned, fun _ => Iff.rfl, fun _ _ => rfl, fun _ _ => rfl, fun _ _ => rfl,
          fun _ _ _ _ => rfl, h.raw⟩, fun _ => rfl, hb, Confined.refl h.owned⟩
    | new b k hb ha =>
        have hc := Confined.assign h.owned ha
        refine ⟨h.quiet_assign ha, hc.field Inode.nlinks fun _ _ => rfl, ?_, hc⟩
        rw [hb]
        exact assign_block_ne_zero h.owned ha
  obtain ⟨hq, hlinks, hblock, hc⟩ := hq
  have hlive : liveEntry g.toDisk p idx = none := (hq.live p idx hn.parent hidx).trans hlow.free
  have hgb : Base g.toDisk := h.quiet hq fun j _ _ => hlinks j
  have hsp := hq.space
  have hpl : Place g.toDisk p idx := ⟨hq.dir.mpr hn.parent, hidx, hblock⟩
  have hk : Pokes g.toDisk (writeEntry g p idx i name now).toDisk p idx := pokes_writeEntry
  have halloc : Allocated g.toDisk i := (hq.alloc i).mpr hn.alloc
  refine ⟨hgb.writeEntry hpl halloc hn.ne_root hn.ne_parent hname hlive ?_ ?_, hname, ?_, hnew, ?_,
    fun j => ?_, fun j hj => ?_, fun j hj ha => ?_⟩
  · rw [hsp]
    exact hn.unnamed
  · rw [hsp]
    exact hnew
  · rw [space_writeEntry hgb hpl halloc hn.ne_root hname hlive, hsp]
  · -- nothing stood in the place of the new entry
    intro a c he
    rw [← hsp] at he
    have hl := he.2.2
    rw [hlive] at hl
    cases hl
  · rw [hk.field Inode.nlinks hk.nlinks, hlinks]
  · rw [hk.others j hj, hc.others j hj]
  · have hb : idx / 16 < 6 := by omega
    refine (hc.same j hj ha).trans ?_
    exact @Owned.sameBlocks_of_within g.toDisk _ p j (.direct ⟨idx / 16, hb⟩) hgb.owned hpl.dir.1
      ((hq.alloc j).mpr ha) hj hblock hk.within (by rw [hk.others j hj])

/-- `add_dentry` fails and changes nothing, or adds the entry. -/
theorem addDentry_cases (h : Base s.toDisk) (hn : Nameable s.toDisk p i) (hne : name ≠ [])
    (hnul : ∀ c ∈ name, c ≠ 0) (now : Int) :
    ((addDentry s p i name now).1 < 0 ∧ (addDentry s p i name now).2.toDisk = s.toDisk) ∨
      ((addDentry s p i name now).1 = 0 ∧
        ∃ idx, Added s.toDisk (addDentry s p i name now).2.toDisk p idx name i) := by
  rw [addDentry, if_neg (by rw [hn.parent.2]; simp)]
  by_cases hex : 0 ≤ dentryToNum s name p
  · rw [if_pos hex]
    exact Or.inl ⟨show -EEXIST < 0 by decide, rfl⟩
  rw [if_neg hex]
  by_cases hlen : min name.length 28 = 0 ∨ 28 ≤ min name.length 28
  · simp only [if_pos hlen]
    exact Or.inl ⟨show -ENAMETOOLONG < 0 by decide, trivial⟩
  · -- the lookup compares whole names, so the name is new in `p`
    have hnew : ∀ l c, ¬ (space s.toDisk).entry p l name c := by
      rcases dentryToNum_cases h hn.parent hnul with ⟨l, c, -, hc⟩ | ⟨hnone, -⟩
      · exact absurd (by rw [hc]; omega) hex
      · exact hnone
    have hname : GoodName name := ⟨hne, by omega, hnul⟩
    simp only [if_neg hlen]
    rcases addDentryLoop_cases h.owned hn.parent.1 i name now with
      ⟨-, e⟩ | ⟨idx, hlow, ⟨-, -, e⟩ | ⟨g, hg, e⟩⟩
    · rw [e]
      exact Or.inl ⟨show -ENOSPC < 0 by decide, rfl⟩
    · rw [e]
      exact Or.inl ⟨show -ENOSPC < 0 by decide, rfl⟩
    · rw [e]
      exact Or.inr ⟨rfl, idx, hg.added h hn hname hnew hlow⟩

/-! ### Creating -/

/-- The inode `i` is ready to be named in `p`: it is new, and a directory has
already been counted in the links of `p`. -/
structure Prepared (d m : Disk) (p i : Nat) (dir : Bool) : Prop where
  base : Base m
  fresh : ¬ Allocated d i
  parent : (space d).dir p
  space : space m = (space d).addNode i (dir = true)
  links : ∀ j, Allocated d j →
    (m.inodes j).nlinks = (d.inodes j).nlinks + if j = p ∧ dir = true then 1 else 0
  newLinks : (m.inodes i).nlinks = if dir = true then 2 else 1
  others : ∀ j, j ≠ p → j ≠ i → m.inodes j = d.inodes j
  same : ∀ j, j ≠ i → SameBlocks d m j

/-- The inode `i` has been created under `name` in directory `p`. -/
structure Created (d d' : Disk) (p idx : Nat) (name : List UInt8) (i : Nat) (dir : Bool) : Prop where
  base : Base d'
  fresh : ¬ Allocated d i
  parent : (space d).dir p
  good : GoodName name
  space : space d' = ((space d).addNode i (dir = true)).addEntry p idx name i
  nameFree : ∀ l c, ¬ (Wfs.space d).entry p l name c
  placeFree : ∀ a c, ¬ (Wfs.space d).entry p idx a c
  links : ∀ j, Allocated d j →
    (d'.inodes j).nlinks = (d.inodes j).nlinks + if j = p ∧ dir = true then 1 else 0
  newLinks : (d'.inodes i).nlinks = if dir = true then 2 else 1
  others : ∀ j, j ≠ p → j ≠ i → d'.inodes j = d.inodes j
  same : ∀ j, j ≠ p → Allocated d j → SameBlocks d d' j

section Prepared

variable {m : Disk} {dir : Bool}

theorem Prepared.nameable (h : Base d) (hm : Prepared d m p i dir) : Nameable m p i where
  parent := by
    rw [hm.space]
    exact Or.inr hm.parent
  alloc := by
    have hnode : (Wfs.space m).node i := by
      rw [hm.space]
      exact Or.inl rfl
    exact hnode
  ne_root := ne_of_free hm.fresh h.root.1 |>.symm
  ne_parent := ne_of_free hm.fresh hm.parent.1 |>.symm
  unnamed q l a he := by
    rw [hm.space] at he
    exact hm.fresh (h.sound.target he).1

theorem Added.created (ha : Added m d' p idx name i) (hm : Prepared d m p i dir) :
    Created d d' p idx name i dir where
  base := ha.base
  fresh := hm.fresh
  parent := hm.parent
  good := ha.good
  space := by rw [ha.space, hm.space]
  nameFree l c he := ha.nameFree l c (by rw [hm.space]; exact he)
  placeFree a c he := ha.placeFree a c (by rw [hm.space]; exact he)
  links j hj := by rw [ha.links, hm.links j hj]
  newLinks := by rw [ha.links, hm.newLinks]
  others j hp hi := by rw [ha.others j hp, hm.others j hp hi]
  same j hp hj := by
    have hji := ne_of_free hm.fresh hj
    have hnode : (Wfs.space m).node j := by
      rw [hm.space]
      exact Or.inr hj
    exact (hm.same j hji).trans (ha.same j hp hnode)

end Prepared

theorem not_allocated (h : bitmapTest i s.ibm = false) : ¬ Allocated s.toDisk i := by
  rintro ⟨-, hm⟩
  rw [h] at hm
  cases hm

/-- A new regular file, ready to be named. -/
theorem prepared_file (h : Base s.toDisk) (hp : (space s.toDisk).dir p)
    (hi : i < s.sb.numInodes) (hfree : bitmapTest i s.ibm = false) (mode : BitVec 32) (env : Env)
    (now : Int) :
    Prepared s.toDisk
      (newInode s i (freshInode i (0o100000#32 ||| (mode &&& 0o777#32)) env now)).toDisk p i false := by
  have hna := not_allocated hfree
  have hreg := isReg_regMode mode
  have hdir := isDir_eq_false_of_isReg hreg
  refine ⟨h.newInode hi hna rfl rfl rfl (Or.inr hreg) (fun _ => rfl), hna, hp, ?_, fun j hj => ?_, ?_,
    fun j _ hj => newInode_inodes_ne hj, fun j hj => sameBlocks_newInode hj⟩
  · rw [space_newInode hi hna rfl]
    show (space s.toDisk).addNode i (isDir (0o100000#32 ||| (mode &&& 0o777#32)) = true) = _
    rw [hdir]
  · rw [newInode_inodes_ne (ne_of_free hna hj)]
    simp
  · rw [newInode_inode]
    rfl

theorem Base.quiet_addLinks (h : Base s.toDisk) (n : Int) :
    Quiet s.toDisk (addLinks s p n).toDisk :=
  h.quiet_setInode rfl rfl rfl fun _ => rfl

theorem addLinks_nlinks (n : Int) : ((addLinks s p n).inodes j).nlinks =
    (s.inodes j).nlinks + if j = p then n else 0 := by
  rcases eq_or_ne j p with rfl | hj
  · rw [addLinks, Fs.setInode_self, if_pos rfl]
  · rw [addLinks, Fs.setInode_ne hj, if_neg hj, Int.add_zero]

theorem addLinks_inodes_ne (n : Int) (hj : j ≠ p) : (addLinks s p n).inodes j = s.inodes j :=
  Fs.setInode_ne hj

theorem sameBlocks_addLinks (n : Int) : SameBlocks s.toDisk (addLinks s p n).toDisk j := by
  refine sameBlocks_setInode ?_ j
  rfl

/-- The inode of a new directory. -/
def freshDir (i : Nat) (mode : BitVec 32) (env : Env) (now : Int) : Inode :=
  { freshInode i (0o040000#32 ||| (mode &&& 0o777#32)) env now with nlinks := 2 }

/-- A new directory, ready to be named and counted in its parent. -/
theorem prepared_dir (h : Base s.toDisk) (hp : (space s.toDisk).dir p)
    (hi : i < s.sb.numInodes) (hfree : bitmapTest i s.ibm = false) (mode : BitVec 32) (env : Env)
    (now : Int) :
    Prepared s.toDisk (addLinks (newInode s i (freshDir i mode env now)) p 1).toDisk p i true := by
  have hna := not_allocated hfree
  have hdir : isDir (freshDir i mode env now).mode = true := isDir_dirMode mode
  have hb : Base (newInode s i (freshDir i mode env now)).toDisk :=
    h.newInode hi hna rfl rfl rfl (Or.inl hdir) fun hd => by rw [hdir] at hd; cases hd
  have hq := hb.quiet_addLinks (p := p) 1
  have hpi := (ne_of_free hna hp.1).symm
  refine ⟨hb.quiet hq fun j hj hd => ?_, hna, hp, ?_, fun j hj => ?_, ?_, fun j hjp hji => ?_,
    fun j hj => (sameBlocks_newInode hj).trans (sameBlocks_addLinks 1)⟩
  · have hjp : j ≠ p := by
      rintro rfl
      rw [newInode_inodes_ne hpi.symm, hp.2] at hd
      cases hd
    rw [addLinks_inodes_ne 1 hjp]
  · rw [hq.space, space_newInode hi hna rfl, hdir]
  · rw [addLinks_nlinks, newInode_inodes_ne (ne_of_free hna hj)]
    simp
  · rw [addLinks_nlinks, newInode_inode, if_neg hpi]
    rfl
  · rw [addLinks_inodes_ne 1 hjp, newInode_inodes_ne hji]

/-- At most the slot of an inode that was not allocated has been zeroed. -/
def Undone (d d' : Disk) : Prop :=
  ∃ i, ¬ Allocated d i ∧ i < d.sb.numInodes ∧
    d' = { d with inodes := Function.update d.inodes i Inode.zero }

theorem freeInode_toDisk (hi : i < 2 ^ 31) (hnum : (t.inodes i).num = i) :
    (freeInode t i).toDisk = { t.toDisk with
      ibm := WordSet.erase t.ibm i
      inodes := Function.update t.inodes i Inode.zero } := by
  rw [freeInode_eq hi hnum]
  rfl

/-- The undo of `wfs_mknod`. -/
theorem undo_file {ino : Inode} (ht : t.toDisk = (newInode s i ino).toDisk) (hi : i < 2 ^ 31)
    (hnum : ino.num = i) (hfree : bitmapTest i s.ibm = false) :
    (freeInode t i).toDisk = { s.toDisk with inodes := Function.update s.inodes i Inode.zero } := by
  rw [bitmapTest_eq] at hfree
  have hn : (t.inodes i).num = i := by rw [ht, newInode_inode, hnum]
  rw [freeInode_toDisk hi hn, ht]
  simp only [newInode, Fs.setInode, WordSet.erase_insert hfree, Function.update_idem]

/-- The undo of `wfs_mkdir`: the parent's link count goes back as well. -/
theorem undo_dir {ino : Inode} (ht : t.toDisk = (addLinks (newInode s i ino) p 1).toDisk)
    (hi : i < 2 ^ 31) (hnum : ino.num = i) (hfree : bitmapTest i s.ibm = false) (hpi : p ≠ i) :
    (addLinks (freeInode t i) p (-1)).toDisk =
      { s.toDisk with inodes := Function.update s.inodes i Inode.zero } := by
  rw [bitmapTest_eq] at hfree
  have hn : (t.inodes i).num = i := by
    rw [ht, addLinks_inodes_ne 1 hpi.symm, newInode_inode, hnum]
  have hinodes : (addLinks (freeInode t i) p (-1)).inodes =
      Function.update s.inodes i Inode.zero := by
    -- the parent loses the link it gained, the slot of `i` is zero, the rest never changed
    funext j
    have hfi : ∀ j, (freeInode t i).inodes j = Function.update t.inodes i Inode.zero j := by
      intro j
      rw [freeInode_toDisk hi hn]
    rcases eq_or_ne j p with rfl | hjp
    · rw [addLinks, Fs.setInode_self, hfi, Function.update_of_ne hpi, Function.update_of_ne hpi, ht,
        addLinks, Fs.setInode_self, newInode_inodes_ne hpi, Int.add_neg_cancel_right]
    · rw [addLinks_inodes_ne _ hjp, hfi]
      rcases eq_or_ne j i with rfl | hji
      · rw [Function.update_self, Function.update_self]
      · rw [Function.update_of_ne hji, Function.update_of_ne hji, ht, addLinks_inodes_ne 1 hjp,
          newInode_inodes_ne hji]
  have hrest : (addLinks (freeInode t i) p (-1)).toDisk =
      { (freeInode t i).toDisk with inodes := (addLinks (freeInode t i) p (-1)).inodes } := rfl
  rw [hrest, hinodes, freeInode_toDisk hi hn, ht]
  simp only [addLinks, newInode, Fs.setInode, WordSet.erase_insert hfree]

section create

variable {path : List UInt8} {mode : BitVec 32} {env : Env}

theorem errorCode_neg (h : s.wfsError = -ENOSPC) : errorCode s < 0 := by
  rw [errorCode, h]
  decide

theorem leafName_spec {dir : List UInt8} (hpath : ∀ c ∈ path, c ≠ 0)
    (h : splitPath (cleanPath path) = .ok (dir, name)) : name ≠ [] ∧ ∀ c ∈ name, c ≠ 0 := by
  obtain ⟨-, rfl⟩ := splitPath_ok h
  exact ⟨basename_ne_nil _, basename_nul_free (cleanPath_nul_free hpath)⟩

/-- The end of `wfs_mknod` and `wfs_mkdir`: an inode that could not be named is given back. -/
def settle (named : Int × Fs) (undo : Fs → Fs) : Int × Fs :=
  if named.1 < 0 then (named.1, undo named.2) else (0, named.2)

/-- `wfs_mknod` fails at once, or fills a free inode in and names it. -/
theorem wfsMknod_eq (hok : s.sb.Ok) (path : List UInt8) (mode : BitVec 32) (env : Env) :
    ((wfsMknod s path mode env).1 < 0 ∧ (wfsMknod s path mode env).2.toDisk = s.toDisk) ∨
      ∃ mode' dir name p i, splitPath (cleanPath path) = .ok (dir, name) ∧
        parentDir s dir = .ok p ∧ i < s.sb.numInodes ∧ bitmapTest i s.ibm = false ∧
        wfsMknod s path mode env = settle (addDentry (newInode s i
          (freshInode i (0o100000#32 ||| (mode' &&& 0o777#32)) env (env.now 1))) p i name (env.now 2))
          fun t => freeInode t i := by
  rw [wfsMknod]
  generalize (if (!isReg mode && !isFifo mode) = true then 0o100000#32 ||| (mode &&& 0o777#32)
    else mode) = mode'
  rcases hs : splitPath (cleanPath path) with e | ⟨dir, name⟩
  · exact Or.inl ⟨splitPath_error hs, rfl⟩
  dsimp only
  rcases hpd : parentDir s dir with e | p
  · exact Or.inl ⟨parentDir_error hpd, rfl⟩
  dsimp only
  by_cases hex : 0 ≤ dentryToNum s name p
  · rw [if_pos hex]
    exact Or.inl ⟨show -EEXIST < 0 by decide, rfl⟩
  rw [if_neg hex]
  -- no free inode leaves the image alone; otherwise the slot is filled before it is named
  rcases allocateInode_cases hok (env.now 0) with ⟨e, -⟩ | ⟨i, hi, hfree, s₁, e, hfill⟩
  · simp only [e]
    exact Or.inl ⟨errorCode_neg rfl, trivial⟩
  · simp only [e, hfill, newInode_inode, freshInode_num]
    exact Or.inr ⟨mode', dir, name, p, i, rfl, hpd, hi, hfree, rfl⟩

/-- `wfs_mknod` fails, and then the image is as before but for a free slot, or
creates a regular file. -/
theorem wfsMknod_cases (h : Base s.toDisk) (hpath : ∀ c ∈ path, c ≠ 0) :
    ((wfsMknod s path mode env).1 < 0 ∧ ((wfsMknod s path mode env).2.toDisk = s.toDisk ∨
        Undone s.toDisk (wfsMknod s path mode env).2.toDisk)) ∨
      ((wfsMknod s path mode env).1 = 0 ∧ ∃ dir name p idx i,
        splitPath (cleanPath path) = .ok (dir, name) ∧ parentDir s dir = .ok p ∧
        Created s.toDisk (wfsMknod s path mode env).2.toDisk p idx name i false) := by
  rcases wfsMknod_eq h.owned.sbOk path mode env with
    ⟨hneg, e⟩ | ⟨mode', dir, name, p, i, hs, hpd, hi, hfree, e⟩
  · exact Or.inl ⟨hneg, Or.inl e⟩
  obtain ⟨hne, hnul⟩ := leafName_spec hpath hs
  have hm := prepared_file h (parentDir_ok hpd) hi hfree mode' env (env.now 1)
  have hlt : i < 2 ^ 31 := hi.trans h.owned.sbOk.inodes_lt
  rw [e, settle]
  rcases addDentry_cases hm.base (hm.nameable h) hne hnul (env.now 2) with
    ⟨hrc, hsame⟩ | ⟨hrc, idx, ha⟩
  · rw [if_pos hrc]
    -- the inode is freed again
    exact Or.inl ⟨hrc, Or.inr ⟨i, not_allocated hfree, hi, undo_file hsame hlt rfl hfree⟩⟩
  · rw [if_neg (by rw [hrc]; decide)]
    exact Or.inr ⟨rfl, dir, name, p, idx, i, hs, hpd, ha.created hm⟩

theorem setInode_newInode {ino ino' : Inode} :
    (newInode s i ino).setInode i ino' = newInode s i ino' := by
  simp only [newInode, Fs.setInode, Function.update_idem]

/-- `wfs_mkdir` fails at once, or fills a free inode in, counts it in its parent, and names it. -/
theorem wfsMkdir_eq (hok : s.sb.Ok) (path : List UInt8) (mode : BitVec 32) (env : Env) :
    ((wfsMkdir s path mode env).1 < 0 ∧ (wfsMkdir s path mode env).2.toDisk = s.toDisk) ∨
      ∃ dir name p i, splitPath (cleanPath path) = .ok (dir, name) ∧
        parentDir s dir = .ok p ∧ i < s.sb.numInodes ∧ bitmapTest i s.ibm = false ∧
        wfsMkdir s path mode env = settle (addDentry (addLinks (newInode s i
          (freshDir i mode env (env.now 1))) p 1) p i name (env.now 2))
          fun t => addLinks (freeInode t i) p (-1) := by
  rw [wfsMkdir]
  rcases hs : splitPath (cleanPath path) with e | ⟨dir, name⟩
  · exact Or.inl ⟨splitPath_error hs, rfl⟩
  dsimp only
  rcases hpd : parentDir s dir with e | p
  · exact Or.inl ⟨parentDir_error hpd, rfl⟩
  dsimp only
  by_cases hex : 0 ≤ dentryToNum s name p
  · rw [if_pos hex]
    exact Or.inl ⟨show -EEXIST < 0 by decide, rfl⟩
  rw [if_neg hex]
  rcases allocateInode_cases hok (env.now 0) with ⟨e, -⟩ | ⟨i, hi, hfree, s₁, e, hfill⟩
  · simp only [e]
    exact Or.inl ⟨errorCode_neg rfl, trivial⟩
  · have hpi := ne_of_free (not_allocated hfree) (parentDir_ok hpd).1
    have hfresh : { freshInode i (0o040000#32 ||| (mode &&& 0o777#32)) env (env.now 1) with nlinks := 2 } =
        freshDir i mode env (env.now 1) := rfl
    have hnum : (freshDir i mode env (env.now 1)).num = i := rfl
    simp only [e, hfill, newInode_inode, setInode_newInode, hfresh, addLinks_inodes_ne 1 hpi.symm, hnum]
    exact Or.inr ⟨dir, name, p, i, rfl, hpd, hi, hfree, rfl⟩

/-- `wfs_mkdir` fails, and then the image is as before but for a free slot, or
creates a directory. -/
theorem wfsMkdir_cases (h : Base s.toDisk) (hpath : ∀ c ∈ path, c ≠ 0) :
    ((wfsMkdir s path mode env).1 < 0 ∧ ((wfsMkdir s path mode env).2.toDisk = s.toDisk ∨
        Undone s.toDisk (wfsMkdir s path mode env).2.toDisk)) ∨
      ((wfsMkdir s path mode env).1 = 0 ∧ ∃ dir name p idx i,
        splitPath (cleanPath path) = .ok (dir, name) ∧ parentDir s dir = .ok p ∧
        Created s.toDisk (wfsMkdir s path mode env).2.toDisk p idx name i true) := by
  rcases wfsMkdir_eq h.owned.sbOk path mode env with
    ⟨hneg, e⟩ | ⟨dir, name, p, i, hs, hpd, hi, hfree, e⟩
  · exact Or.inl ⟨hneg, Or.inl e⟩
  obtain ⟨hne, hnul⟩ := leafName_spec hpath hs
  have hp := parentDir_ok hpd
  have hm := prepared_dir h hp hi hfree mode env (env.now 1)
  have hlt : i < 2 ^ 31 := hi.trans h.owned.sbOk.inodes_lt
  have hpi := ne_of_free (not_allocated hfree) hp.1
  rw [e, settle]
  rcases addDentry_cases hm.base (hm.nameable h) hne hnul (env.now 2) with
    ⟨hrc, hsame⟩ | ⟨hrc, idx, ha⟩
  · rw [if_pos hrc]
    -- the inode is freed and the link of the parent taken back
    exact Or.inl ⟨hrc, Or.inr ⟨i, not_allocated hfree, hi, undo_dir hsame hlt rfl hfree hpi⟩⟩
  · rw [if_neg (by rw [hrc]; decide)]
    exact Or.inr ⟨rfl, dir, name, p, idx, i, hs, hpd, ha.created hm⟩

end create

/-! ### Removing -/

/-- The inode `i`, which `name` in directory `p` led to, has been removed. -/
structure Removed (d d' : Disk) (p idx : Nat) (name : List UInt8) (i : Nat) : Prop where
  base : Base d'
  entry : (space d).entry p idx name i
  space : space d' = ((space d).removeEntry p idx).removeNode i
  links : ∀ j, j ≠ i → (d'.inodes j).nlinks =
    (d.inodes j).nlinks - if j = p ∧ isDir (d.inodes i).mode = true then 1 else 0
  gone : d'.inodes i = Inode.zero
  others : ∀ j, j ≠ p → j ≠ i → d'.inodes j = d.inodes j
  same : ∀ j, j ≠ p → j ≠ i → Allocated d j → SameBlocks d d' j

theorem Removed.allocated (hr : Removed d d' p idx name i) :
    Allocated d' j ↔ Allocated d j ∧ j ≠ i := by
  show (Wfs.space d').node j ↔ _
  rw [hr.space]
  rfl

/-- The entry of `i` has been cleared, and a directory has been taken off the
links of its parent. -/
structure Cut (d m : Disk) (p idx i : Nat) : Prop where
  base : Base m
  space : space m = (space d).removeEntry p idx
  links : ∀ j, j ≠ i → (m.inodes j).nlinks =
    (d.inodes j).nlinks - if j = p ∧ isDir (d.inodes i).mode = true then 1 else 0
  others : ∀ j, j ≠ p → m.inodes j = d.inodes j
  same : ∀ j, j ≠ p → Allocated d j → SameBlocks d m j

theorem Base.quiet_touch (h : Base s.toDisk) : Quiet s.toDisk (touch s p now).toDisk :=
  h.quiet_setInode rfl rfl rfl fun _ => rfl

theorem touch_nlinks : ((touch s p now).inodes j).nlinks = (s.inodes j).nlinks := by
  rcases eq_or_ne j p with rfl | hj
  · rw [touch, Fs.setInode_self]
    rfl
  · rw [touch, Fs.setInode_ne hj]

theorem Cut.allocated {m : Disk} (hm : Cut d m p idx i) (hi : Allocated d i) :
    Allocated m i := by
  show (Wfs.space m).node i
  rw [hm.space]
  exact hi

/-- Once its entry is cut, dropping the inode and stamping the parent completes
the removal. -/
theorem Cut.removed {m : Disk} (h : Base d) (he : (Wfs.space d).entry p idx name i)
    (hm : Cut d m p idx i) (hd : Dropped m t.toDisk i) :
    Removed d (touch t p now).toDisk p idx name i := by
  have hip : i ≠ p := h.sound.irrefl he
  have hun : ∀ q l a, ¬ (Wfs.space m).entry q l a i := by
    intro q l a he'
    rw [hm.space] at he'
    exact he'.2 (h.sound.single he'.1 he)
  have hb := hm.base.dropped hd (h.sound.target he).2 hun
  have hq : Quiet t.toDisk (touch t p now).toDisk := hb.quiet_touch
  refine ⟨hb.quiet hq fun j _ _ => touch_nlinks, he, ?_, fun j hj => ?_, ?_, fun j hp hi => ?_,
    fun j hp hi ha => ?_⟩
  · rw [hq.space, hd.space, hm.space]
  · rw [touch_nlinks, hd.others j hj, hm.links j hj]
  · rw [touch, Fs.setInode_ne hip, hd.gone]
  · rw [touch, Fs.setInode_ne hp, hd.others j hi, hm.others j hp]
  · have hma : Allocated m j := by
      have hnode : (Wfs.space m).node j := by
        rw [hm.space]
        exact ha
      exact hnode
    refine ((hm.same j hp ha).trans (hd.same j hi hma)).trans ⟨?_, fun _ _ _ _ _ => rfl⟩
    rw [touch, Fs.setInode_ne hp]

theorem sameBlocks_clearEntry (h : Base s.toDisk) (hpl : Place s.toDisk p idx) (hj : j ≠ p)
    (ha : Allocated s.toDisk j) : SameBlocks s.toDisk (clearEntry s p idx now).toDisk j := by
  have hlt := hpl.lt
  have hb : idx / 16 < 6 := by omega
  have hk : Pokes s.toDisk (clearEntry s p idx now).toDisk p idx := pokes_clearEntry
  exact @Owned.sameBlocks_of_within s.toDisk _ p j (.direct ⟨idx / 16, hb⟩) h.owned hpl.dir.1 ha hj
    hpl.block hk.within (by rw [hk.others j hj])

theorem place_of_entry {c : Nat} (he : (space d).entry p idx name c) : Place d p idx :=
  ⟨he.1, he.2.1, (liveEntry_eq_some he.2.2).1⟩

/-- The first half of `wfs_unlink`. -/
theorem cut_file (h : Base s.toDisk) (he : (space s.toDisk).entry p idx name i)
    (hi : isDir (s.inodes i).mode = false) :
    Cut s.toDisk (clearEntry s p idx now).toDisk p idx i := by
  have hpl := place_of_entry he
  have hk : Pokes s.toDisk (clearEntry s p idx now).toDisk p idx := pokes_clearEntry
  refine ⟨h.clearEntry hpl, space_clearEntry h hpl, fun j _ => ?_, hk.others,
    fun j hj ha => sameBlocks_clearEntry h hpl hj ha⟩
  rw [hk.field Inode.nlinks hk.nlinks, hi]
  simp

/-- The first half of `wfs_rmdir`. -/
theorem cut_dir (h : Base s.toDisk) (he : (space s.toDisk).entry p idx name i)
    (hi : isDir (s.inodes i).mode = true) :
    Cut s.toDisk (addLinks (clearEntry s p idx now) p (-1)).toDisk p idx i := by
  have hpl := place_of_entry he
  have hk : Pokes s.toDisk (clearEntry s p idx now).toDisk p idx := pokes_clearEntry
  have hb : Base (clearEntry s p idx now).toDisk := h.clearEntry hpl
  have hq := hb.quiet_addLinks (p := p) (-1)
  refine ⟨hb.quiet hq fun j hj hd => ?_, ?_, fun j _ => ?_, fun j hj => ?_, fun j hj ha => ?_⟩
  · have hjp : j ≠ p := by
      rintro rfl
      rw [hk.field Inode.mode hk.mode, hpl.dir.2] at hd
      cases hd
    rw [addLinks_inodes_ne _ hjp]
  · rw [hq.space, space_clearEntry h hpl]
  · rw [addLinks_nlinks, hk.field Inode.nlinks hk.nlinks, hi]
    by_cases hjp : j = p
    · simp only [hjp, and_self, if_true]
      omega
    · simp [hjp]
  · rw [addLinks_inodes_ne _ hj, hk.others j hj]
  · exact (sameBlocks_clearEntry h hpl hj ha).trans (sameBlocks_addLinks _)

section remove

variable {path : List UInt8} {env : Env}

/-- The leaf name of the path leads to `i` in its parent directory. -/
def Designates (s : Fs) (path : List UInt8) (i : Nat) : Prop :=
  ∃ dir name p, splitPath (cleanPath path) = .ok (dir, name) ∧ parentDir s dir = .ok p ∧
    dentryToNum s name p = i

theorem Designates.unique (h : Designates s path i) (h' : Designates s path j) : i = j := by
  obtain ⟨dir, name, p, hs, hp, hi⟩ := h
  obtain ⟨dir', name', p', hs', hp', hj⟩ := h'
  obtain ⟨rfl, rfl⟩ := Prod.mk.inj (Except.ok.inj (hs.symm.trans hs'))
  obtain rfl := Except.ok.inj (hp.symm.trans hp')
  omega

/-- A name that `dentry_to_num` finds in a directory. -/
theorem entry_of_dentryToNum (h : Base s.toDisk) (hp : (space s.toDisk).dir p)
    (hnul : ∀ c ∈ name, c ≠ 0) (hn : ¬ dentryToNum s name p < 0)
    (hr : retrieveInode s (dentryToNum s name p) = some i) :
    ∃ idx, (space s.toDisk).entry p idx name i ∧ dentryToNum s name p = i := by
  obtain ⟨hnum, -⟩ := retrieveInode_eq_some hr
  rcases dentryToNum_cases h hp hnul with ⟨idx, c, he, hc⟩ | ⟨-, hc⟩
  · obtain rfl : c = i := by omega
    exact ⟨idx, he, hc⟩
  · rw [hc] at hn
    exact absurd (by decide) hn

/-- The entry that the lookup of `wfs_unlink` and `wfs_rmdir` ends at. -/
theorem entry_of_resolveLeaf (h : Base s.toDisk) (hpath : ∀ c ∈ path, c ≠ 0)
    (hr : resolveLeaf s (cleanPath path) = .ok (p, i)) :
    ∃ dir name idx, splitPath (cleanPath path) = .ok (dir, name) ∧ parentDir s dir = .ok p ∧
      dentryToNum s name p = i ∧ (space s.toDisk).entry p idx name i := by
  obtain ⟨dir, name, hs, hpd, hneg, hret⟩ := resolveLeaf_ok hr
  obtain ⟨idx, he, hnum⟩ :=
    entry_of_dentryToNum h (parentDir_ok hpd) (leafName_spec hpath hs).2 hneg hret
  exact ⟨dir, name, idx, hs, hpd, hnum, he⟩

/-- Dropping an inode does not depend on its own link count. -/
theorem Dropped.of_addLinks {n : Int} (hd : Dropped (addLinks s i n).toDisk d' i) :
    Dropped s.toDisk d' i where
  owned := hd.owned
  alloc := hd.alloc
  others j hj := by rw [hd.others j hj, addLinks_inodes_ne n hj]
  gone := hd.gone
  same j hj ha := (sameBlocks_addLinks n).trans (hd.same j hj ha)

/-- What `wfs_unlink` and `wfs_rmdir` compute when they go through: entry `idx` of directory
`p` is cleared, inode `j` loses a link, inode `i` is given back, and `p` is stamped. -/
def removal (s : Fs) (p idx i j : Nat) (now now' : Int) : Fs :=
  touch (freeInode (freeBlocksOf (addLinks (clearEntry s p idx now) j (-1)) i) i) p now'

/-- The inode is given back after its entry has been cleared and a link taken. -/
theorem dropped_removal {l : Nat} (h : Base s.toDisk)
    (he : (space s.toDisk).entry p idx name i) :
    Dropped (addLinks (clearEntry s p idx now) l (-1)).toDisk
      (freeInode (freeBlocksOf (addLinks (clearEntry s p idx now) l (-1)) i) i).toDisk i := by
  have hi := (h.sound.target he).1
  have hb : Base (clearEntry s p idx now).toDisk := h.clearEntry (place_of_entry he)
  have hq := hb.quiet_addLinks (p := l) (-1)
  exact dropped_freeInode hq.owned hi ((hq.num i hi).trans (hb.num i hi))

theorem removed_file {now' : Int} (h : Base s.toDisk) (he : (space s.toDisk).entry p idx name i)
    (hfile : isDir (s.inodes i).mode = false) :
    Removed s.toDisk (removal s p idx i i now now').toDisk p idx name i :=
  (cut_file h he hfile).removed h he (dropped_removal h he).of_addLinks

theorem removed_dir {now' : Int} (h : Base s.toDisk) (he : (space s.toDisk).entry p idx name i)
    (hdir : isDir (s.inodes i).mode = true) :
    Removed s.toDisk (removal s p idx i p now now').toDisk p idx name i :=
  (cut_dir h he hdir).removed h he (dropped_removal h he)

/-- From a regular file on, `wfs_unlink` succeeds. -/
theorem unlinkAt_eq (h : Base s.toDisk) (he : (space s.toDisk).entry p idx name i)
    (hfile : isDir (s.inodes i).mode = false) :
    unlinkAt s p i env = (0, removal s p idx i i (env.now 0) (env.now 1)) := by
  -- a regular file has one link, so it goes
  have hlast : ((addLinks (clearEntry s p idx (env.now 0)) i (-1)).inodes i).nlinks ≤ 0 := by
    rw [addLinks_nlinks, if_pos rfl, clearEntry_inodes_ne (h.sound.irrefl he),
      h.links i (h.sound.target he).1 hfile]
    decide
  rw [unlinkAt, if_neg (by rw [hfile]; decide)]
  simp only [removeDentry_eq h he, lt_irrefl, if_false, if_pos hlast]
  rfl

/-- `wfs_unlink` fails and changes nothing, or its path leads to a regular file and the file
is removed. -/
theorem wfsUnlink_eq (h : Base s.toDisk) (hpath : ∀ c ∈ path, c ≠ 0) :
    ((wfsUnlink s path env).1 < 0 ∧ (wfsUnlink s path env).2.toDisk = s.toDisk) ∨
      ∃ dir name p idx, ∃ i : Nat, splitPath (cleanPath path) = .ok (dir, name) ∧
        parentDir s dir = .ok p ∧ dentryToNum s name p = i ∧
        (space s.toDisk).entry p idx name i ∧ isDir (s.inodes i).mode = false ∧
        wfsUnlink s path env = (0, removal s p idx i i (env.now 0) (env.now 1)) := by
  rw [wfsUnlink_eq_resolveLeaf]
  rcases hs : splitPath (cleanPath path) with e | split
  · exact Or.inl ⟨splitPath_error hs, rfl⟩
  dsimp only
  by_cases hdot : split.2 = [46] ∨ split.2 = [46, 46]
  · rw [if_pos hdot]
    exact Or.inl ⟨show -EPERM < 0 by decide, rfl⟩
  rw [if_neg hdot]
  rcases hr : resolveLeaf s (cleanPath path) with e | ⟨p, i⟩
  · exact Or.inl ⟨resolveLeaf_error hr, rfl⟩
  obtain ⟨dir, name, idx, hs', hpd, hnum, he⟩ := entry_of_resolveLeaf h hpath hr
  rw [afterLookup]
  by_cases hd : isDir (s.inodes i).mode = true
  · rw [unlinkAt, if_pos hd]
    exact Or.inl ⟨show -EISDIR < 0 by decide, rfl⟩
  · have hfile : isDir (s.inodes i).mode = false := by simpa using hd
    exact Or.inr ⟨dir, name, p, idx, i, hs.symm.trans hs', hpd, hnum, he, hfile,
      unlinkAt_eq h he hfile⟩

/-- `wfs_unlink` fails and changes nothing, or removes the regular file that its path
leads to. -/
theorem wfsUnlink_cases (h : Base s.toDisk) (hpath : ∀ c ∈ path, c ≠ 0) :
    ((wfsUnlink s path env).1 < 0 ∧ (wfsUnlink s path env).2.toDisk = s.toDisk) ∨
      ((wfsUnlink s path env).1 = 0 ∧ ∃ dir name p idx i,
        splitPath (cleanPath path) = .ok (dir, name) ∧ parentDir s dir = .ok p ∧
        isDir (s.inodes i).mode = false ∧
        Removed s.toDisk (wfsUnlink s path env).2.toDisk p idx name i) := by
  rcases @wfsUnlink_eq s path env h hpath with
    hfail | ⟨dir, name, p, idx, i, hs, hpd, -, he, hfile, e⟩
  · exact Or.inl hfail
  rw [e]
  exact Or.inr ⟨rfl, dir, name, p, idx, i, hs, hpd, hfile, removed_file h he hfile⟩

/-- Comparing a live entry with a name. -/
theorem strncmpEq_entryName (h : Base s.toDisk) {l c : Nat} {a b : List UInt8}
    (he : (space s.toDisk).entry i l a c) (hb : ∀ x ∈ b, x ≠ 0) :
    strncmpEq 28 (entryName s.toDisk i l) b = true ↔ a = b := by
  obtain ⟨hblock, hnum, h0, hfirst, hname⟩ := liveEntry_eq_some he.2.2
  have hok := h.raw i l he.1 he.2.1 hblock (by rw [hnum]; exact h0)
  rw [strncmpEq_iff (by simp [entryName]) hok.2.2 hb, hname]

/-- The emptiness test of `wfs_rmdir`. -/
theorem hasOtherEntry_iff (h : Base s.toDisk) (hi : (space s.toDisk).dir i) :
    hasOtherEntry s i = false ↔
      ∀ l a c, (space s.toDisk).entry i l a c → a = [46] ∨ a = [46, 46] := by
  rw [hasOtherEntry, List.any_eq_false]
  constructor
  · intro hnone l a c he
    have hthis := hnone l (h.mem_dirEntries he)
    have hlive : (hasEntry s.toDisk i l && !entryFree s.toDisk i l) = true := by
      rw [← liveEntry_isSome_iff, he.2.2]
      rfl
    rw [hlive, Bool.true_and, Bool.not_eq_true', ← Bool.not_eq_true, not_not, Bool.or_eq_true,
      strncmpEq_entryName h he (by simp), strncmpEq_entryName h he (by simp)] at hthis
    exact hthis
  · intro hdots l hl htest
    rw [Bool.and_eq_true, ← liveEntry_isSome_iff] at htest
    obtain ⟨⟨a, num⟩, hlive⟩ := Option.isSome_iff_exists.mp htest.1
    obtain ⟨c, -, he⟩ := h.entry_of_live hi (lt_of_mem_dirEntries hl) hlive
    have hother := htest.2
    rw [Bool.not_eq_true', Bool.or_eq_false_iff, ← Bool.not_eq_true, ← Bool.not_eq_true,
      strncmpEq_entryName h he (by simp), strncmpEq_entryName h he (by simp)] at hother
    rcases hdots l a c he with ha | ha
    · exact hother.1 ha
    · exact hother.2 ha

/-- `wfs_rmdir` fails and changes nothing, or its path leads to a directory without entries
other than "." and "..", and the directory is removed. -/
theorem wfsRmdir_eq (h : Base s.toDisk) (hpath : ∀ c ∈ path, c ≠ 0) :
    ((wfsRmdir s path env).1 < 0 ∧ (wfsRmdir s path env).2.toDisk = s.toDisk) ∨
      ∃ dir name p idx, ∃ i : Nat, splitPath (cleanPath path) = .ok (dir, name) ∧
        parentDir s dir = .ok p ∧ dentryToNum s name p = i ∧
        (space s.toDisk).entry p idx name i ∧ isDir (s.inodes i).mode = true ∧
        hasOtherEntry s i = false ∧
        wfsRmdir s path env = (0, removal s p idx i p (env.now 0) (env.now 1)) := by
  rw [wfsRmdir_eq_resolveLeaf]
  by_cases hroot : cleanPath path = [slash]
  · rw [if_pos hroot]
    exact Or.inl ⟨show -EBUSY < 0 by decide, rfl⟩
  rw [if_neg hroot]
  rcases hr : resolveLeaf s (cleanPath path) with e | ⟨p, i⟩
  · exact Or.inl ⟨resolveLeaf_error hr, rfl⟩
  obtain ⟨dir, name, idx, hs, hpd, hnum, he⟩ := entry_of_resolveLeaf h hpath hr
  rw [afterLookup, rmdirAt]
  by_cases hd : isDir (s.inodes i).mode = false
  · rw [if_pos hd]
    exact Or.inl ⟨show -ENOTDIR < 0 by decide, rfl⟩
  rw [if_neg hd]
  by_cases hempty : hasOtherEntry s i = true
  · rw [if_pos hempty]
    exact Or.inl ⟨show -ENOTEMPTY < 0 by decide, rfl⟩
  rw [if_neg hempty]
  simp only [removeDentry_eq h he, lt_irrefl, if_false]
  exact Or.inr ⟨dir, name, p, idx, i, hs, hpd, hnum, he, by simpa using hd, by simpa using hempty,
    rfl⟩

/-- `wfs_rmdir` fails and changes nothing, or removes the directory that its path
designates, which has no entries other than "." and "..". -/
theorem wfsRmdir_cases (h : Base s.toDisk) (hpath : ∀ c ∈ path, c ≠ 0) :
    ((wfsRmdir s path env).1 < 0 ∧ (wfsRmdir s path env).2.toDisk = s.toDisk) ∨
      ((wfsRmdir s path env).1 = 0 ∧ ∃ name p idx i, Designates s path i ∧
        isDir (s.inodes i).mode = true ∧
        (∀ l a c, (space s.toDisk).entry i l a c → a = [46] ∨ a = [46, 46]) ∧
        Removed s.toDisk (wfsRmdir s path env).2.toDisk p idx name i) := by
  rcases @wfsRmdir_eq s path env h hpath with
    hfail | ⟨dir, name, p, idx, i, hs, hpd, hnum, he, hdir, hempty, e⟩
  · exact Or.inl hfail
  rw [e]
  exact Or.inr ⟨rfl, name, p, idx, i, ⟨dir, name, p, hs, hpd, hnum⟩, hdir,
    (hasOtherEntry_iff h ⟨(h.sound.target he).1, hdir⟩).mp hempty, removed_dir h he hdir⟩

end remove

end SystemsPortfolio.Wfs
