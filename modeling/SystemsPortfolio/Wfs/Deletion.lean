/-
SystemsPortfolio/Wfs/Deletion.lean

What a deletion gives back.

`wfs_unlink` and `wfs_rmdir` find an entry by its name, clear it by its number, and free the
blocks of the inode by reading its pointers one after the other, some of them from a block
that is freed in its turn.  Where ownership is exact, which bits of the data bitmap are clear
afterwards follows from which pointers are left: those of all other inodes (`Spared`).
-/
import Mathlib.Data.Set.Card
import SystemsPortfolio.Wfs.Growth
import SystemsPortfolio.Wfs.Runs

namespace SystemsPortfolio.Wfs

open ByteStore NameTree

variable {d d' : Disk} {s t : Fs} {i j k p idx : Nat} {name : List UInt8} {now now' : Int}

/-! ### The pointers that are left -/

/-- Inode `i` is gone, and every other one has the pointers it had. -/
structure Spared (d d' : Disk) (i : Nat) : Prop where
  owned : Owned d'
  sb : d'.sb = d.sb
  alloc : ∀ j, Allocated d' j ↔ Allocated d j ∧ j ≠ i
  slots : ∀ j, Allocated d j → j ≠ i → ∀ sl, slotVal d' j sl = slotVal d j sl

theorem Spared.owner_eq (h : Spared d d' i) :
    owner d' = fun q => if q.1 = i then none else owner d q := by
  funext q
  obtain ⟨j, sl⟩ := q
  dsimp only
  rcases eq_or_ne j i with rfl | hj
  · rw [if_pos rfl, owner, if_neg fun hc => ((h.alloc j).mp hc.1).2 rfl]
  · rw [if_neg hj]
    by_cases ha : Allocated d j
    · simp only [owner, h.alloc, h.slots j ha hj, h.sb, ne_eq, hj, not_false_eq_true, and_true]
    · simp only [owner, h.alloc, ha, false_and, if_false]

/-- The blocks of inode `i`: the direct ones, the indirect one, and those listed there. -/
def ownedBlocks (d : Disk) (i : Nat) : Set Nat :=
  {k | k < d.sb.numDataBlocks ∧ ∃ sl, slotVal d i sl = blockAddr d k}

theorem Owned.marked_of_owned (ho : Owned d) (hi : Allocated d i) (hk : k ∈ ownedBlocks d i) :
    Marked d k := by
  obtain ⟨-, sl, hsl⟩ := hk
  exact (ho.exact.range k).mpr ⟨(i, sl), ho.owner_eq_some.mpr ⟨hi, hsl⟩⟩

/-- The marks that go are those of the blocks of `i`. -/
theorem Spared.marked_iff (h : Spared d d' i) (ho : Owned d) (hi : Allocated d i) :
    Marked d' k ↔ Marked d k ∧ k ∉ ownedBlocks d i := by
  have hrel := ((ho.exact.release (·.1 = i)).congr h.owner_eq fun _ => Iff.rfl).range k
  rw [h.owned.exact.range k, ← hrel]
  refine and_congr_right fun hk => ?_
  constructor
  · rintro hnone ⟨-, sl, hsl⟩
    exact hnone (i, sl) rfl (ho.owner_eq_some.mpr ⟨hi, hsl⟩)
  · rintro hnot ⟨_, sl⟩ rfl hown
    exact hnot ⟨hk.1, sl, (ho.owner_eq_some.mp hown).2⟩

theorem sameBlocks_touch : SameBlocks s.toDisk (touch s p now).toDisk j := by
  refine sameBlocks_setInode ?_ j
  rfl

theorem spared_removal {l : Nat} (h : Base s.toDisk) (he : (space s.toDisk).entry p idx name i) :
    Spared s.toDisk (removal s p idx i l now now').toDisk i := by
  have hpl := place_of_entry he
  have hi := (h.sound.target he).1
  have hd := @dropped_removal s i p idx name now l h he
  -- until the blocks are freed, no pointer changes
  have hb : Base (clearEntry s p idx now).toDisk := h.clearEntry hpl
  have hq := hb.quiet_addLinks (p := l) (-1)
  have hslot : ∀ j, Allocated s.toDisk j → ∀ sl,
      slotVal (addLinks (clearEntry s p idx now) l (-1)).toDisk j sl = slotVal s.toDisk j sl :=
    fun j hj sl =>
      ((sameBlocks_addLinks (-1)).slotVal sl).trans (pokes_clearEntry.slotVal h.owned hpl hj sl)
  exact {
    owned := hd.owned.setInode rfl
    sb := (freeBlocksOf_spec hq.owned hi).1.sb
    alloc := hd.alloc
    slots := fun j hj hji sl =>
      (sameBlocks_touch.slotVal sl).trans (((hd.same j hji hj).slotVal sl).trans (hslot j hj sl)) }

/-- The directory that held the entry. -/
theorem removal_parent {l : Nat} (h : Base s.toDisk) (he : (space s.toDisk).entry p idx name i) :
    (removal s p idx i l now now').inodes p =
      { s.inodes p with
        nlinks := (s.inodes p).nlinks + if p = l then -1 else 0
        mtim := now'
        ctim := now' } := by
  have hd := @dropped_removal s i p idx name now l h he
  have hip : i ≠ p := h.sound.irrefl he
  rw [removal, touch, Fs.setInode_self, hd.others p hip.symm]
  rcases eq_or_ne p l with rfl | hpl
  · rw [if_pos rfl, addLinks, Fs.setInode_self, clearEntry_inode]
    rfl
  · rw [if_neg hpl, addLinks_inodes_ne _ hpl, clearEntry_inode, Int.add_zero]
    rfl

/-! ### Counting -/

theorem countFree_eq (bitmap : WordSet.Words) (n : Nat) :
    countFree bitmap n = {k | k < n ∧ ¬ bitmapTest k bitmap = true}.ncard := by
  have hset : {k | k < n ∧ ¬ bitmapTest k bitmap = true} =
      (((List.range n).filter fun k => !bitmapTest k bitmap).toFinset : Set Nat) := by
    ext k
    simp
  rw [hset, Set.ncard_coe_finset, List.toFinset_card_of_nodup (List.nodup_range.filter _),
    countFree, List.countP_eq_length_filter]

/-- Clearing the bits in `S`, all of them set before, makes as many free. -/
theorem countFree_clear {bitmap bitmap' : WordSet.Words} {n : Nat} {S : Set Nat}
    (hset : ∀ k ∈ S, k < n ∧ bitmapTest k bitmap = true)
    (hclear : ∀ k < n, bitmapTest k bitmap' = true ↔ bitmapTest k bitmap = true ∧ k ∉ S) :
    countFree bitmap' n = countFree bitmap n + S.ncard := by
  have hunion : {k | k < n ∧ ¬ bitmapTest k bitmap' = true} =
      {k | k < n ∧ ¬ bitmapTest k bitmap = true} ∪ S := by
    ext k
    simp only [Set.mem_ofPred_eq, Set.mem_union]
    constructor
    · rintro ⟨hk, hnot⟩
      rw [hclear k hk, not_and_or, not_not] at hnot
      rcases hnot with hnot | hS
      · exact Or.inl ⟨hk, hnot⟩
      · exact Or.inr hS
    · rintro (⟨hk, hnot⟩ | hS)
      · exact ⟨hk, fun hc => hnot ((hclear k hk).mp hc).1⟩
      · have hk := (hset k hS).1
        exact ⟨hk, fun hc => ((hclear k hk).mp hc).2 hS⟩
  have hdisj : Disjoint {k | k < n ∧ ¬ bitmapTest k bitmap = true} S := by
    rw [Set.disjoint_left]
    exact fun k hk hS => hk.2 (hset k hS).2
  have hfin : {k | k < n ∧ ¬ bitmapTest k bitmap = true}.Finite :=
    (Set.finite_lt_nat n).subset fun k hk => hk.1
  have hS : S.Finite := (Set.finite_lt_nat n).subset fun k hk => (hset k hk).1
  rw [countFree_eq, countFree_eq, hunion, Set.ncard_union_eq hdisj hfin hS]

/-! ### The theorem -/

/-- Inode `i`, which `name` in directory `p` led to, has been deleted: the bits of its blocks
and its own bit are clear, its entry is gone, and nothing else has changed but the links and
times of `p`. -/
structure Deleted (s t : Fs) (p : Nat) (name : List UInt8) (i : Nat) : Prop where
  dataBits : ∀ k < s.sb.numDataBlocks, bitmapTest k t.dbm = true ↔
    bitmapTest k s.dbm = true ∧ k ∉ ownedBlocks s.toDisk i
  inodeBits : ∀ j < s.sb.numInodes, bitmapTest j t.ibm = true ↔
    bitmapTest j s.ibm = true ∧ j ≠ i
  entries : ∀ q l a c, (space t.toDisk).entry q l a c ↔
    (space s.toDisk).entry q l a c ∧ q ≠ i ∧ ¬ (q = p ∧ a = name)
  inodes : ∀ j, j ≠ i → j ≠ p → t.inodes j = s.inodes j
  bytes : ∀ j, j ≠ i → j ≠ p → Allocated s.toDisk j → ∀ x, byteAt t.toDisk j x = byteAt s.toDisk j x
  parent : ∃ mtim ctim, t.inodes p =
    { s.inodes p with
      nlinks := (s.inodes p).nlinks - if isDir (s.inodes i).mode = true then 1 else 0
      mtim := mtim
      ctim := ctim }
  bfree : (wfsStatfs t).bfree = (wfsStatfs s).bfree + (ownedBlocks s.toDisk i).ncard
  bavail : (wfsStatfs t).bavail = (wfsStatfs s).bavail + (ownedBlocks s.toDisk i).ncard
  ffree : (wfsStatfs t).ffree = (wfsStatfs s).ffree + 1
  favail : (wfsStatfs t).favail = (wfsStatfs s).favail + 1

theorem Removed.entry_iff (hr : Removed d d' p idx name i) (h : Base d) {q l c : Nat}
    {a : List UInt8} : (Wfs.space d').entry q l a c ↔
      (Wfs.space d).entry q l a c ∧ q ≠ i ∧ ¬ (q = p ∧ a = name) := by
  rw [hr.space]
  show ((Wfs.space d).entry q l a c ∧ ¬ (q = p ∧ l = idx)) ∧ q ≠ i ↔ _
  rw [and_assoc, and_comm (a := ¬ _)]
  -- in `p`, the entry of the name is the one at `idx`
  refine and_congr_right fun he => and_congr_right fun _ => not_congr (and_congr_right fun hq => ?_)
  subst hq
  constructor
  · rintro rfl
    exact (Prod.mk.inj (Option.some.inj (he.2.2.symm.trans hr.entry.2.2))).1
  · rintro rfl
    exact h.sound.names he hr.entry

theorem deleted_removal {l : Nat} (h : Base s.toDisk)
    (hr : Removed s.toDisk (removal s p idx i l now now').toDisk p idx name i)
    (hl : p = l ↔ isDir (s.inodes i).mode = true) :
    Deleted s (removal s p idx i l now now') p name i := by
  have hsp : Spared s.toDisk (removal s p idx i l now now').toDisk i := spared_removal h hr.entry
  have hpar := @removal_parent s i p idx name now now' l h hr.entry
  have hi := (h.sound.target hr.entry).1
  generalize removal s p idx i l now now' = t at hr hsp hpar
  have hsb : t.sb = s.sb := hsp.sb
  have hdata : ∀ k < s.sb.numDataBlocks, bitmapTest k t.dbm = true ↔
      bitmapTest k s.dbm = true ∧ k ∉ ownedBlocks s.toDisk i := by
    intro k hk
    have hmark : Marked t.toDisk k ↔ _ := hsp.marked_iff h.owned hi
    simpa only [Marked, hsb, hk, true_and] using hmark
  have hinode : ∀ j < s.sb.numInodes, bitmapTest j t.ibm = true ↔
      bitmapTest j s.ibm = true ∧ j ≠ i := by
    intro j hj
    have halloc := hsp.alloc j
    simpa only [Allocated, hsb, hj, true_and] using halloc
  have hb : countFree t.dbm t.sb.numDataBlocks =
      countFree s.dbm s.sb.numDataBlocks + (ownedBlocks s.toDisk i).ncard := by
    rw [hsb]
    exact countFree_clear (fun k hk => h.owned.marked_of_owned hi hk) hdata
  have hf : countFree t.ibm t.sb.numInodes = countFree s.ibm s.sb.numInodes + 1 := by
    rw [hsb, ← Set.ncard_singleton i]
    refine countFree_clear (fun j hj => ?_) hinode
    rw [Set.mem_singleton_iff.mp hj]
    exact hi
  refine ⟨hdata, hinode, fun q l a c => hr.entry_iff h, fun j hji hjp => hr.others j hjp hji,
    fun j hji hjp hj x => (hr.same j hjp hji hj).byteAt x, ⟨now', now', ?_⟩, hb, hb, hf, hf⟩
  rw [hpar]
  by_cases hd : isDir (s.inodes i).mode = true
  · rw [if_pos (hl.mpr hd), if_pos hd]
    rfl
  · rw [if_neg fun e => hd (hl.mp e), if_neg hd, Int.add_zero, Int.sub_zero]

/-- The leaf name of the path is `name`, and leads to `i` in its parent directory `p`. -/
def LeadsTo (s : Fs) (path name : List UInt8) (p i : Nat) : Prop :=
  ∃ dir, splitPath (cleanPath path) = .ok (dir, name) ∧ parentDir s dir = .ok p ∧
    dentryToNum s name p = i

/-- A deletion frees exactly what its object owns.  Where ownership and name space are in
order, a call of `wfs_unlink` or `wfs_rmdir` that returns 0 has deleted the regular file, or
the directory, that its path leads to. -/
theorem deletion_frees_owned (h : Base s.toDisk) (path : CString) (env : Env) :
    ((wfsUnlink s path.bytes env).1 = 0 → ∃ name p i, LeadsTo s path.bytes name p i ∧
      isReg (s.inodes i).mode = true ∧ Deleted s (wfsUnlink s path.bytes env).2 p name i) ∧
    ((wfsRmdir s path.bytes env).1 = 0 → ∃ name p i, LeadsTo s path.bytes name p i ∧
      isDir (s.inodes i).mode = true ∧ Deleted s (wfsRmdir s path.bytes env).2 p name i) := by
  constructor
  · intro hrc
    rcases @wfsUnlink_eq s path.bytes env h path.nul_free with
      ⟨hneg, -⟩ | ⟨dir, name, p, idx, i, hs, hpd, hnum, he, hfile, e⟩
    · exact absurd hrc (ne_of_lt hneg)
    have hip : p ≠ i := (h.sound.irrefl he).symm
    refine ⟨name, p, i, ⟨dir, hs, hpd, hnum⟩, ?_, ?_⟩
    · have hkind := h.kind i (h.sound.target he).1
      rw [hfile] at hkind
      exact hkind.resolve_left (by simp)
    · rw [e]
      exact deleted_removal h (removed_file h he hfile) (by simp [hip, hfile])
  · intro hrc
    rcases @wfsRmdir_eq s path.bytes env h path.nul_free with
      ⟨hneg, -⟩ | ⟨dir, name, p, idx, i, hs, hpd, hnum, he, hdir, -, e⟩
    · exact absurd hrc (ne_of_lt hneg)
    refine ⟨name, p, i, ⟨dir, hs, hpd, hnum⟩, hdir, ?_⟩
    rw [e]
    exact deleted_removal h (removed_dir h he hdir) (by simp [hdir])

/-- Make the file "/f" with its two bytes, and the directory "/d". -/
def treeOps : List (Env × Op) := smallOps ++ [(plainEnv, .mkdir dirPath 0o755#32)]

theorem treeOps_resolveLeaf :
    resolveLeaf (run (mount smallDisk) treeOps) (cleanPath smallPath.bytes) = .ok (0, 1) := by
  decide +kernel

theorem wfsUnlink_treeOps :
    (wfsUnlink (run (mount smallDisk) treeOps) smallPath.bytes plainEnv).1 = 0 := by
  have hb := base_run smallDisk_mkfs.mkfsImage treeOps
  obtain ⟨dir, name, idx, -, -, -, he⟩ :=
    entry_of_resolveLeaf hb smallPath.nul_free treeOps_resolveLeaf
  have hs : splitPath (cleanPath smallPath.bytes) = .ok ([47], [102]) := by decide
  rw [wfsUnlink_eq_resolveLeaf, hs, treeOps_resolveLeaf]
  dsimp only
  rw [if_neg (by decide), afterLookup, unlinkAt_eq hb he (by decide)]

/-- Deleting the file gives back its inode and the block of its bytes, deleting the directory gives
back an inode. -/
theorem deletion_frees_owned_file :
    (wfsUnlink (run (mount smallDisk) treeOps) smallPath.bytes plainEnv).1 = 0 ∧
    1 ∈ ownedBlocks (run (mount smallDisk) treeOps).toDisk 1 ∧
    bitmapTest 1 (wfsUnlink (run (mount smallDisk) treeOps) smallPath.bytes plainEnv).2.dbm = false ∧
    (wfsRmdir (run (mount smallDisk) treeOps) dirPath.bytes plainEnv).1 = 0 ∧
    (wfsStatfs (wfsRmdir (run (mount smallDisk) treeOps) dirPath.bytes plainEnv).2).ffree =
      (wfsStatfs (run (mount smallDisk) treeOps)).ffree + 1 := by
  have hb := base_run smallDisk_mkfs.mkfsImage treeOps
  have hown : 1 ∈ ownedBlocks (run (mount smallDisk) treeOps).toDisk 1 :=
    ⟨by decide, .direct 0, by decide⟩
  have hrmdir : (wfsRmdir (run (mount smallDisk) treeOps) dirPath.bytes plainEnv).1 = 0 := by
    decide +kernel
  obtain ⟨name, p, i, ⟨dir, hs, hp, hnum⟩, -, hdel⟩ :=
    (deletion_frees_owned hb smallPath plainEnv).1 wfsUnlink_treeOps
  obtain ⟨_, _, _, -, -, hdel'⟩ := (deletion_frees_owned hb dirPath plainEnv).2 hrmdir
  -- the deleted file is inode 1
  obtain ⟨dir', name', -, hs', hp', hnum', -⟩ :=
    entry_of_resolveLeaf hb smallPath.nul_free treeOps_resolveLeaf
  obtain ⟨rfl, rfl⟩ : dir' = dir ∧ name' = name := Prod.mk.inj (Except.ok.inj (hs'.symm.trans hs))
  obtain rfl : 0 = p := Except.ok.inj (hp'.symm.trans hp)
  obtain rfl : 1 = i := Int.ofNat.inj (hnum'.symm.trans hnum)
  refine ⟨wfsUnlink_treeOps, hown, Bool.eq_false_iff.mpr fun hbit => ?_, hrmdir, hdel'.ffree⟩
  exact ((hdel.dataBits 1 (by decide)).mp hbit).2 hown

end SystemsPortfolio.Wfs
