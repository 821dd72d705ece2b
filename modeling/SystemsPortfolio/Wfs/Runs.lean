/-
SystemsPortfolio/Wfs/Runs.lean

Invariants over whole runs of WFS, from any image that `mkfs` can make.

* `base_run` — the invariant `Base` holds in every reachable state, whatever the
  operations are given;
* `tree_run` — the name space is a tree with the right link counts, as long as
  nobody creates a file called "." or "..";
* `blank_run` — free inode slots stay zero, if they were zero at the start.

The results about block ownership, about the name space and about failed
operations are read off these.
-/
import Mathlib.Data.Set.Card
import SystemsPortfolio.Wfs.Steps

namespace SystemsPortfolio.Wfs

open ByteStore NameTree

variable {d d' : Disk} {s : Fs} {op : Op} {i j p : Nat}

/-! ### The initial image -/

theorem MkfsImage.allocated (h : MkfsImage d) : Allocated d i ↔ i = 0 := by
  obtain ⟨img, inodes, blocks, sz, env, hi, -, hm⟩ := h
  obtain ⟨hok, -, hibm, -, -, -⟩ := wfsMkfs_eq_some hm
  have hpos := hok.inodes_pos
  rw [Allocated, bitmapTest_eq, WordSet.test, hibm]
  by_cases hw : i / 32 = 0
  · rw [hw, Function.update_self, BitVec.getLsbD_one]
    simp only [Bool.and_eq_true, decide_eq_true_eq]
    omega
  · rw [Function.update_of_ne hw, hi]
    simp only [BitVec.getLsbD_zero, Bool.false_eq_true, and_false, false_iff]
    omega

theorem MkfsImage.root (h : MkfsImage d) : ∃ env, d.inodes 0 = rootInode env := by
  obtain ⟨img, inodes, blocks, sz, env, -, -, hm⟩ := h
  obtain ⟨-, -, -, -, hino, -⟩ := wfsMkfs_eq_some hm
  exact ⟨env, by rw [hino, Function.update_self]⟩

theorem MkfsImage.liveEntry (h : MkfsImage d) (hp : Allocated d p) (idx : Nat) :
    liveEntry d p idx = none := by
  obtain rfl := h.allocated.mp hp
  obtain ⟨env, hroot⟩ := h.root
  exact liveEntry_of_block_eq_zero (by rw [hroot]; rfl)

theorem MkfsImage.owned (h : MkfsImage d) : Owned d := by
  have hslot : ∀ {i sl}, Allocated d i → slotVal d i sl = 0 := by
    intro i sl hi
    obtain rfl := h.allocated.mp hi
    obtain ⟨env, hroot⟩ := h.root
    have hb : (d.inodes 0).blocks = fun _ => 0 := by rw [hroot]; rfl
    cases sl <;> simp [slotVal, hb]
  -- no block is marked and no slot used, so the two agree
  have hmark : ∀ k, ¬ Marked d k := by
    rintro k ⟨-, hk⟩
    obtain ⟨img, inodes, blocks, sz, env, -, hd, hm⟩ := h
    obtain ⟨-, -, -, hdbm, -, -⟩ := wfsMkfs_eq_some hm
    rw [bitmapTest_eq, WordSet.test, hdbm, hd] at hk
    simp at hk
  have hown : ∀ q, owner d q = none := by
    rintro ⟨i, sl⟩
    rw [owner, if_neg fun hc => hc.2 (hslot hc.1)]
  refine ⟨?_, fun i sl hi hne => absurd (hslot hi) hne, fun {q q' k} hq _ => ?_, fun k => ?_⟩
  · obtain ⟨img, inodes, blocks, sz, env, -, -, hm⟩ := h
    exact (wfsMkfs_eq_some hm).1
  · rw [hown] at hq
    cases hq
  · constructor
    · exact fun hk => absurd hk (hmark k)
    · rintro ⟨q, hq⟩
      rw [hown] at hq
      cases hq

theorem MkfsImage.base (h : MkfsImage d) : Base d := by
  obtain ⟨env, hroot⟩ := h.root
  have hdir : isDir (d.inodes 0).mode = true := by
    rw [hroot]
    show isDir 0o040700#32 = true
    decide
  have hentry : ∀ {p idx a c}, ¬ (space d).entry p idx a c := by
    intro p idx a c he
    have hl := he.2.2
    rw [h.liveEntry he.1.1] at hl
    cases hl
  have hzero : ∀ {i}, Allocated d i → i = 0 := fun hi => h.allocated.mp hi
  refine ⟨h.owned, fun i hi => ?_, fun i hi => ?_, fun p hp => ?_, fun p idx hp _ hb => ?_,
    fun p idx a c he => absurd he hentry, fun i hi hd => ?_, ?_⟩
  · rw [hzero hi, hroot]
    rfl
  · rw [hzero hi]
    exact Or.inl hdir
  · rw [hzero hp.1, hroot]
    show (0 : Int) ≤ 0 ∧ (0 : Int) ≤ 3072
    decide
  · rw [hzero hp.1, hroot] at hb
    exact absurd rfl hb
  · rw [hzero hi, hdir] at hd
    cases hd
  · -- the root alone is a sound name space
    exact ⟨⟨h.allocated.mpr rfl, hdir⟩, fun hc => hc.1, fun he => absurd he hentry,
      fun he => absurd he hentry, fun he => absurd he hentry, fun he => absurd he hentry,
      fun he => absurd he hentry, fun he => absurd he hentry⟩

/-! ### A small image -/

/-- A disk of zeros. -/
def zeroDisk : Disk where
  sb := ⟨0, 0, 0, 0, 0, 0⟩
  ibm := fun _ => 0#32
  dbm := fun _ => 0#32
  inodes := fun _ => Inode.zero
  data := fun _ => 0

/-- Surroundings in which nothing remarkable happens. -/
def plainEnv : Env where
  now := fun _ => 0
  uid := 0#32
  gid := 0#32
  isLs := false

/-- What `mkfs -i 32 -b 32` makes of a disk of zeros. -/
def smallDisk : Disk :=
  { zeroDisk with
    sb := ⟨32, 32, 48, 52, 56, 16440⟩
    ibm := Function.update zeroDisk.ibm 0 1#32
    inodes := Function.update zeroDisk.inodes 0 (rootInode plainEnv) }

theorem smallDisk_mkfs : ZeroedMkfsImage smallDisk :=
  ⟨zeroDisk, 32, 32, 65536, plainEnv, fun _ => rfl, fun _ => rfl, fun _ => rfl, fun _ => rfl, rfl⟩

/-- The path "/f". -/
def smallPath : CString := ⟨[47, 102], by simp⟩

/-- The path "/d". -/
def dirPath : CString := ⟨[47, 100], by simp⟩

/-- Make a file "/f" and write two bytes into it. -/
def smallOps : List (Env × Op) :=
  [(plainEnv, .mknod smallPath 0o100644#32), (plainEnv, .write smallPath [1, 2] 0)]

/-! ### The invariant of every run -/

theorem Undone.calm_space (h : Base d) (hu : Undone d d') : Quiet d d' ∧
    ∀ j, Allocated d j → d'.inodes j = d.inodes j := by
  obtain ⟨i, hi, -, rfl⟩ := hu
  have hino : ∀ j, Allocated d j → Function.update d.inodes i Inode.zero j = d.inodes j :=
    fun j hj => Function.update_of_ne (ne_of_free hi hj) ..
  have hsame : ∀ j, Allocated d j →
      SameBlocks d { d with inodes := Function.update d.inodes i Inode.zero } j :=
    fun j hj => ⟨congrArg Inode.blocks (hino j hj), fun _ _ _ _ _ => rfl⟩
  refine ⟨⟨h.owned.of_slotVal rfl rfl rfl fun j sl hj => (hsame j hj).slotVal sl, fun j => Iff.rfl,
    fun j hj => congrArg Inode.num (hino j hj), fun j hj => congrArg Inode.mode (hino j hj),
    fun p hp => congrArg Inode.size (hino p hp.1),
    fun p idx hp hidx => liveEntry_frame (hsame p hp.1) hidx,
    fun p idx hp hidx => ((hsame p hp.1).sameEntry hidx).entryOk (h.raw p idx hp hidx)⟩, hino⟩

theorem Effect.base (e : Effect op d d') (h : Base d) : Base d' := by
  cases e with
  | calm hc => exact hc.base h
  | undone hu =>
      obtain ⟨hq, hino⟩ := hu.calm_space h
      exact h.quiet hq fun j hj _ => congrArg Inode.nlinks (hino j hj)
  | created p idx name i dir hop hc => exact hc.base
  | removed p idx name i hleaf hr => exact hr.base

theorem base_run (hd : MkfsImage d) (ops : List (Env × Op)) : Base (run (mount d) ops).toDisk := by
  refine run_invariant (P := fun s => Base s.toDisk) hd.base fun e _ s hs => ?_
  exact (exec_effect hs e.2).base hs

/-- In every state that a run from an `mkfs` image reaches, the pointer slots of
the allocated inodes and the data bitmap agree: every pointer leads to a data
block, no two slots share a block, and a block is marked if and only if exactly
one slot points to it. -/
theorem run_blocks_owned {ops : List (Env × Op)} (hd : MkfsImage d) (hs : run (mount d) ops = s) :
    (∀ i sl, Allocated s.toDisk i → slotVal s.toDisk i sl ≠ 0 →
      ∃ k < s.sb.numDataBlocks, slotVal s.toDisk i sl = s.sb.dBlocksPtr + 512 * k) ∧
    (∀ i sl j tl, Allocated s.toDisk i → Allocated s.toDisk j → slotVal s.toDisk i sl ≠ 0 →
      slotVal s.toDisk i sl = slotVal s.toDisk j tl → i = j ∧ sl = tl) ∧
    ∀ k < s.sb.numDataBlocks, (bitmapTest k s.dbm = true ↔
      ∃! q : Nat × Slot, Allocated s.toDisk q.1 ∧
        slotVal s.toDisk q.1 q.2 = s.sb.dBlocksPtr + 512 * k) := by
  subst hs
  have ho := (base_run hd ops).owned
  generalize run (mount d) ops = s at ho
  refine ⟨ho.valid, fun i sl j tl hi hj hne heq => ?_, fun k hk => ?_⟩
  · obtain ⟨k, -, hv, hown⟩ := ho.owner_isSome hi hne
    have hown' := ho.owner_eq_some.mpr ⟨hj, heq.symm.trans hv⟩
    exact Prod.mk.inj (ho.exact.inj hown hown')
  · have howner : ∀ q : Nat × Slot, owner s.toDisk q = some k ↔
        Allocated s.toDisk q.1 ∧ slotVal s.toDisk q.1 q.2 = s.sb.dBlocksPtr + 512 * k :=
      fun q => ho.owner_eq_some
    simp only [← howner]
    rw [← ho.exact.existsUnique]
    exact ⟨fun hm => ⟨hk, hm⟩, fun hm => hm.2⟩

/-- The same on a small image, after a file has been made and written. -/
theorem run_blocks_owned_small :
    bitmapTest 0 (run (mount smallDisk) smallOps).dbm = true ∧
      ∃! q : Nat × Slot, Allocated (run (mount smallDisk) smallOps).toDisk q.1 ∧
        slotVal (run (mount smallDisk) smallOps).toDisk q.1 q.2 =
          (run (mount smallDisk) smallOps).sb.dBlocksPtr + 512 * 0 :=
  have hset : bitmapTest 0 (run (mount smallDisk) smallOps).dbm = true := by
    decide
  ⟨hset, ((run_blocks_owned smallDisk_mkfs.mkfsImage rfl).2.2 0 (by decide)).mp hset⟩

/-! ### The tree -/

/-- The operation does not create a file called "." or "..". -/
def Op.NoDots (op : Op) : Prop := op.newName ≠ some [46] ∧ op.newName ≠ some [46, 46]

instance (op : Op) : Decidable op.NoDots := inferInstanceAs (Decidable (_ ∧ _))

/-- The number of directories that directory `p` contains. -/
noncomputable def numChildDirs (d : Disk) (p : Nat) : Nat := ((space d).childDirs p).ncard

/-- The name space is a tree, without dot names, and every directory's link
count fits it. -/
structure Tree (d : Disk) : Prop where
  base : Base d
  rooted : (space d).Rooted 0
  dots : ∀ p idx a c, (space d).entry p idx a c → a ≠ [46] ∧ a ≠ [46, 46]
  links : ∀ p, (space d).dir p →
    (d.inodes p).nlinks = (if p = 0 then 1 else 2) + (numChildDirs d p : Int)

theorem finite_childDirs (d : Disk) (p : Nat) : ((space d).childDirs p).Finite := by
  refine (Set.finite_lt_nat d.sb.numInodes).subset ?_
  rintro c ⟨hc, -⟩
  exact hc.1.1

theorem Quiet.tree (q : Quiet d d') (hl : ∀ j, Allocated d j → (d'.inodes j).nlinks = (d.inodes j).nlinks)
    (h : Tree d) : Tree d' where
  base := h.base.quiet q fun j hj _ => hl j hj
  rooted := by
    rw [q.space]
    exact h.rooted
  dots p idx a c he := by
    rw [q.space] at he
    exact h.dots p idx a c he
  links p hp := by
    rw [q.space] at hp
    rw [hl p hp.1, numChildDirs, q.space]
    exact h.links p hp

theorem tree_created {idx : Nat} {name : List UInt8} {dir : Bool}
    (hc : Created d d' p idx name i dir) (h : Tree d) (hdots : name ≠ [46] ∧ name ≠ [46, 46]) :
    Tree d' := by
  have hchild : ∀ q, (space d').childDirs q =
      {c | c = i ∧ dir = true ∧ q = p} ∪ (space d).childDirs q := by
    intro q
    rw [hc.space]
    exact h.rooted.toSound.childDirs_create hc.fresh
  have hnot : ∀ q, i ∉ (space d).childDirs q := fun q hi => hc.fresh hi.1.1
  refine ⟨hc.base, ?_, fun q l a c he => ?_, fun q hq => ?_⟩
  · rw [hc.space]
    exact h.rooted.create hc.parent hc.fresh hc.nameFree hc.placeFree
  · rw [hc.space] at he
    rcases he with ⟨-, -, rfl, -⟩ | he
    · exact hdots
    · exact h.dots q l a c he
  · rw [hc.space] at hq
    rw [numChildDirs, hchild]
    rcases hq with ⟨rfl, hdir⟩ | hq
    · -- the new directory itself: no children, two links
      have hroot : q ≠ 0 := (ne_of_free hc.fresh h.base.root.1).symm
      have hqp : q ≠ p := (ne_of_free hc.fresh hc.parent.1).symm
      have hempty : {c | c = q ∧ dir = true ∧ q = p} ∪ (space d).childDirs q = ∅ := by
        rw [Set.eq_empty_iff_forall_notMem]
        rintro c (⟨-, -, e⟩ | ⟨-, l, a, he⟩)
        · exact hqp e
        · exact hc.fresh (h.base.sound.entry_dir he).1
      rw [hc.newLinks, if_pos hdir, hempty, Set.ncard_empty, if_neg hroot]
      rfl
    · rw [hc.links q hq.1, h.links q hq, numChildDirs]
      -- the parent of a new directory gains a child and a link
      by_cases hqp : q = p ∧ dir = true
      · have hins : {c | c = i ∧ dir = true ∧ q = p} ∪ (space d).childDirs q =
            insert i ((space d).childDirs q) := by
          ext c
          simp [hqp.1, hqp.2]
        rw [if_pos hqp, hins, Set.ncard_insert_of_notMem (hnot q) (finite_childDirs d q)]
        push_cast
        omega
      · have hsame : {c | c = i ∧ dir = true ∧ q = p} ∪ (space d).childDirs q =
            (space d).childDirs q := by
          rw [Set.union_eq_right]
          rintro c ⟨-, hd, hp⟩
          exact absurd ⟨hp, hd⟩ hqp
        rw [if_neg hqp, hsame, Int.add_zero]

theorem tree_removed {idx : Nat} {name : List UInt8} (hr : Removed d d' p idx name i) (h : Tree d)
    (hleaf : ∀ l a c, ¬ (space d).entry i l a c) : Tree d' := by
  refine ⟨hr.base, ?_, fun q l a c he => ?_, fun q hq => ?_⟩
  · rw [hr.space]
    exact h.rooted.delete hr.entry hleaf
  · rw [hr.space] at he
    exact h.dots q l a c he.1.1
  · rw [hr.space] at hq
    have hchild : (space d').childDirs q = (space d).childDirs q \ {i} := by
      rw [hr.space]
      exact h.rooted.toSound.childDirs_delete hr.entry hq.2
    rw [hr.links q hq.2, h.links q hq.1, numChildDirs, numChildDirs, hchild]
    -- the parent of a removed directory loses a child and a link
    by_cases hqp : q = p ∧ isDir (d.inodes i).mode = true
    · have hmem : i ∈ (space d).childDirs q := by
        rw [hqp.1]
        exact ⟨⟨(h.base.sound.target hr.entry).1, hqp.2⟩, idx, name, hr.entry⟩
      have hcard := Set.ncard_sdiff_singleton_add_one hmem (finite_childDirs d q)
      rw [if_pos hqp, ← hcard]
      push_cast
      omega
    · have hnot : i ∉ (space d).childDirs q := by
        rintro ⟨hi, l, a, he⟩
        exact hqp ⟨(h.base.sound.single he hr.entry).1, hi.2⟩
      rw [if_neg hqp, Set.sdiff_singleton_eq_self hnot, Int.sub_zero]

theorem Effect.tree (e : Effect op d d') (h : Tree d) (hop : op.NoDots) : Tree d' := by
  cases e with
  | calm hc => exact hc.quiet.tree (fun j _ => hc.links j) h
  | undone hu =>
      obtain ⟨hq, hino⟩ := hu.calm_space h.base
      exact hq.tree (fun j hj => congrArg Inode.nlinks (hino j hj)) h
  | created p idx name i dir hname hc =>
      refine tree_created hc h ⟨?_, ?_⟩
      · rintro rfl
        exact hop.1 hname
      · rintro rfl
        exact hop.2 hname
  | removed p idx name i hleaf hr =>
      refine tree_removed hr h fun l a c he => ?_
      -- an empty directory has only dot names, and there are none
      rcases hleaf l a c he with rfl | rfl
      · exact (h.dots i l _ c he).1 rfl
      · exact (h.dots i l _ c he).2 rfl

theorem MkfsImage.tree (h : MkfsImage d) : Tree d := by
  have hb := h.base
  have hentry : ∀ {p idx a c}, ¬ (space d).entry p idx a c := by
    intro p idx a c he
    have hl := he.2.2
    rw [h.liveEntry he.1.1] at hl
    cases hl
  refine ⟨hb, ⟨hb.sound, fun hc hne => absurd (h.allocated.mp hc) hne, fun hc => ?_⟩,
    fun p idx a c he => absurd he hentry, fun p hp => ?_⟩
  · rw [h.allocated.mp hc]
  · obtain rfl := h.allocated.mp hp.1
    have hempty : (space d).childDirs 0 = ∅ := by
      rw [Set.eq_empty_iff_forall_notMem]
      rintro c ⟨-, l, a, he⟩
      exact hentry he
    obtain ⟨env, hroot⟩ := h.root
    rw [numChildDirs, hempty, Set.ncard_empty, hroot]
    rfl

theorem tree_run (hd : MkfsImage d) {ops : List (Env × Op)} (hops : ∀ e ∈ ops, e.2.NoDots) :
    Tree (run (mount d) ops).toDisk := by
  refine run_invariant (P := fun s => Tree s.toDisk) hd.tree fun e he s hs => ?_
  exact (exec_effect hs.base e.2).tree hs (hops e he)

/-- In every state that a run without dot names reaches: the root is an allocated
directory; a live entry of an allocated directory lies below its size and leads
to an allocated inode other than the root; every other allocated inode has
exactly one entry, and going up from it leads to the root; no directory holds a
name twice; the number of an allocated inode is its index; and its link count is
one for a regular file, one or two more than the number of its child
directories for the root or another directory. -/
theorem run_name_space {ops : List (Env × Op)} (hd : MkfsImage d) (hops : ∀ e ∈ ops, e.2.NoDots)
    (hs : run (mount d) ops = s) :
    (Allocated s.toDisk 0 ∧ isDir (s.inodes 0).mode = true) ∧
    (∀ p idx a num, (space s.toDisk).dir p → idx < 96 → liveEntry s.toDisk p idx = some (a, num) →
      32 * ((idx : Int) + 1) ≤ (s.inodes p).size ∧
        ∃ c : Nat, num = c ∧ Allocated s.toDisk c ∧ c ≠ 0) ∧
    (∀ c, Allocated s.toDisk c → c ≠ 0 →
      (∃! q : Nat × Nat, ∃ a, (space s.toDisk).entry q.1 q.2 a c) ∧
        Relation.ReflTransGen (space s.toDisk).Parent c 0) ∧
    (∀ p idx idx' a num num', (space s.toDisk).dir p → idx < 96 → idx' < 96 →
      liveEntry s.toDisk p idx = some (a, num) → liveEntry s.toDisk p idx' = some (a, num') →
      idx = idx') ∧
    (∀ i, Allocated s.toDisk i → (s.inodes i).num = i) ∧
    (∀ i, Allocated s.toDisk i →
      (isReg (s.inodes i).mode = true ∧ (s.inodes i).nlinks = 1) ∨
        (isDir (s.inodes i).mode = true ∧ (s.inodes i).nlinks =
          (if i = 0 then 1 else 2) + (numChildDirs s.toDisk i : Int))) := by
  subst hs
  have ht := tree_run hd hops
  generalize run (mount d) ops = s at ht
  have hb := ht.base
  have hsound := hb.sound
  refine ⟨hb.root, fun p idx a num hp hidx hl => ?_, fun c hc hne => ⟨?_, ht.rooted.reach hc⟩,
    fun p idx idx' a num num' hp hidx hidx' hl hl' => ?_, hb.num, fun i hi => ?_⟩
  · obtain ⟨c, rfl, he⟩ := hb.entry_of_live hp hidx hl
    exact ⟨hb.below p idx a c he, c, rfl, hsound.target he⟩
  · obtain ⟨p, idx, a, he⟩ := ht.rooted.named hc hne
    refine ⟨(p, idx), ⟨a, he⟩, ?_⟩
    -- an inode other than the root has one entry only
    rintro ⟨q, l⟩ ⟨b, he'⟩
    obtain ⟨rfl, rfl⟩ := hsound.single he' he
    rfl
  · obtain ⟨c, -, he⟩ := hb.entry_of_live hp hidx hl
    obtain ⟨c', -, he'⟩ := hb.entry_of_live hp hidx' hl'
    exact hsound.names he he'
  · rcases hb.kind i hi with hdir | hreg
    · exact Or.inr ⟨hdir, ht.links i ⟨hi, hdir⟩⟩
    · exact Or.inl ⟨hreg, hb.links i hi (isDir_eq_false_of_isReg hreg)⟩

/-- The same on a small image: the new file reaches the root. -/
theorem run_name_space_small :
    (∀ e ∈ smallOps, e.2.NoDots) ∧
      ∀ i, Allocated (run (mount smallDisk) smallOps).toDisk i →
        ((run (mount smallDisk) smallOps).inodes i).num = i :=
  ⟨by decide, (run_name_space smallDisk_mkfs.mkfsImage (by decide) rfl).2.2.2.2.1⟩

/-! ### Free inode slots -/

/-- Every inode slot that is not allocated is zero. -/
def Blank (d : Disk) : Prop := ∀ j, ¬ Allocated d j → d.inodes j = Inode.zero

theorem Effect.blank (e : Effect op d d') (h : Blank d) : Blank d' := by
  intro j hj
  cases e with
  | calm hc =>
      have hj' : ¬ Allocated d j := fun ha => hj ((hc.quiet.alloc j).mpr ha)
      rw [hc.free j hj']
      exact h j hj'
  | undone hu =>
      obtain ⟨i, -, -, rfl⟩ := hu
      rcases eq_or_ne j i with rfl | hji
      · exact Function.update_self ..
      · exact (Function.update_of_ne hji ..).trans (h j hj)
  | created p idx name i dir _ hc =>
      -- a slot that is still free is neither the new inode nor its parent
      have hnode : ∀ k, Allocated d' k ↔ k = i ∨ Allocated d k := fun k => by
        show (space d').node k ↔ _
        rw [hc.space]
        rfl
      rw [hnode, not_or] at hj
      rw [hc.others j (ne_of_free hj.2 hc.parent.1).symm hj.1]
      exact h j hj.2
  | removed p idx name i _ hr =>
      rcases eq_or_ne j i with rfl | hji
      · exact hr.gone
      · have hj' : ¬ Allocated d j := by
          intro ha
          apply hj
          show (space d').node j
          rw [hr.space]
          exact ⟨ha, hji⟩
        rw [hr.others j (ne_of_free hj' hr.entry.1.1).symm hji]
        exact h j hj'

theorem ZeroedMkfsImage.blank (h : ZeroedMkfsImage d) : Blank d := by
  intro j hj
  have hj0 : j ≠ 0 := fun e => hj (h.mkfsImage.allocated.mpr e)
  obtain ⟨img, inodes, blocks, sz, env, -, -, hz, -, hm⟩ := h
  obtain ⟨-, -, -, -, hino, -⟩ := wfsMkfs_eq_some hm
  rw [hino, Function.update_of_ne hj0, hz]

theorem blank_run (hd : ZeroedMkfsImage d) (ops : List (Env × Op)) :
    Base (run (mount d) ops).toDisk ∧ Blank (run (mount d) ops).toDisk := by
  refine run_invariant (P := fun s => Base s.toDisk ∧ Blank s.toDisk)
    ⟨hd.mkfsImage.base, hd.blank⟩ fun e _ s hs => ?_
  have he : Effect e.2 s.toDisk (exec e.1 e.2 s).2.toDisk := exec_effect hs.1 e.2
  exact ⟨he.base hs.1, he.blank hs.2⟩

/-- On an image with blank free slots, zeroing a free slot does nothing. -/
theorem Undone.eq (h : Blank d) (hu : Undone d d') : d' = d := by
  obtain ⟨i, hi, -, rfl⟩ := hu
  rw [← h i hi, Function.update_eq_self]

/-- The operations on names and attributes. -/
def Op.OnNames : Op → Prop
  | .mknod .. | .mkdir .. | .unlink .. | .rmdir .. | .setxattr .. | .removexattr .. => True
  | _ => False

/-- In every state that a run from a zeroed image reaches, an operation on names
or attributes that fails, for whatever reason, leaves the whole image as it was:
superblock, bitmaps, inodes and data. -/
theorem run_failed_atomic {ops : List (Env × Op)} (hd : ZeroedMkfsImage d)
    (hs : run (mount d) ops = s) (env : Env) (hop : op.OnNames) (hfail : (exec env op s).1 < 0) :
    (exec env op s).2.toDisk = s.toDisk := by
  subst hs
  obtain ⟨hb, hblank⟩ := blank_run hd ops
  generalize run (mount d) ops = s at hb hblank hfail
  -- in every case list, success returns 0
  have hpos : ∀ {r : Int}, r < 0 → r = 0 → False := by
    rintro r h rfl
    exact lt_irrefl 0 h
  cases op with
  | mknod path mode =>
      rcases wfsMknod_cases hb path.nul_free with ⟨-, e | hu⟩ | ⟨h0, -⟩
      · exact e
      · exact hu.eq hblank
      · exact (hpos hfail h0).elim
  | mkdir path mode =>
      rcases wfsMkdir_cases hb path.nul_free with ⟨-, e | hu⟩ | ⟨h0, -⟩
      · exact e
      · exact hu.eq hblank
      · exact (hpos hfail h0).elim
  | unlink path =>
      rcases wfsUnlink_cases hb path.nul_free with ⟨-, e⟩ | ⟨h0, -⟩
      · exact e
      · exact (hpos hfail h0).elim
  | rmdir path =>
      rcases wfsRmdir_cases hb path.nul_free with ⟨-, e⟩ | ⟨h0, -⟩
      · exact e
      · exact (hpos hfail h0).elim
  | setxattr path name value =>
      rcases wfsSetxattr_cases hb with ⟨-, e⟩ | ⟨h0, -⟩
      · exact e
      · exact (hpos hfail h0).elim
  | removexattr path name =>
      rcases wfsRemovexattr_cases hb with ⟨-, e⟩ | ⟨h0, -⟩
      · exact e
      · exact (hpos hfail h0).elim
  | getattr | read | write | readdir | statfs | getxattr => exact hop.elim

/-- Making "/f" a second time fails. -/
theorem run_failed_atomic_small :
    (exec plainEnv (.mknod smallPath 0o100644#32) (run (mount smallDisk) smallOps)).1 < 0 ∧
      (exec plainEnv (.mknod smallPath 0o100644#32) (run (mount smallDisk) smallOps)).2.toDisk =
        (run (mount smallDisk) smallOps).toDisk :=
  have hfail : (exec plainEnv (.mknod smallPath 0o100644#32) (run (mount smallDisk) smallOps)).1 < 0 := by
    decide
  ⟨hfail, run_failed_atomic smallDisk_mkfs rfl plainEnv trivial hfail⟩

end SystemsPortfolio.Wfs
