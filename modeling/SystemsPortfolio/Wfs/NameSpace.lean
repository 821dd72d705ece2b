/-
SystemsPortfolio/Wfs/NameSpace.lean

The name space of an image, and the invariant it rests on.

`space d` reads an image as a name space in the sense of `NameTree`: nodes are
the allocated inodes, entries the live entries of allocated directories.
`Base d` is the part of the file system's invariant that no operation breaks,
whatever names it is given.  Every elementary change of an image is shown to
keep `Base`, and to change `space` as the change of `NameTree` of the same name
does:

* `Quiet` changes (times, colours, link counts, file data, a new directory
  block) leave the space as it is;
* `newInode` adds a node, `writeEntry` an entry;
* `clearEntry` removes an entry, freeing an inode removes a node.
-/
import SystemsPortfolio.Lib.NameTree
import SystemsPortfolio.Wfs.Confined
import SystemsPortfolio.Wfs.Entries

namespace SystemsPortfolio.Wfs

open ByteStore NameTree

variable {d d' : Disk} {s t : Fs} {i j p idx : Nat}

/-! ### The invariant -/

/-- Allocated inodes and live entries as a name space. -/
def space (d : Disk) : Space Nat Nat (List UInt8) where
  node i := Allocated d i
  dir i := Allocated d i ∧ isDir (d.inodes i).mode = true
  entry p idx a c :=
    (Allocated d p ∧ isDir (d.inodes p).mode = true) ∧ idx < 96 ∧ liveEntry d p idx = some (a, (c : Int))

/-- What holds of every image that WFS works on. -/
structure Base (d : Disk) : Prop where
  owned : Owned d
  num : ∀ i, Allocated d i → (d.inodes i).num = i
  kind : ∀ i, Allocated d i → isDir (d.inodes i).mode = true ∨ isReg (d.inodes i).mode = true
  size : ∀ p, (space d).dir p → 0 ≤ (d.inodes p).size ∧ (d.inodes p).size ≤ 3072
  raw : ∀ p idx, (space d).dir p → idx < 96 → EntryOk d p idx
  below : ∀ p idx a c, (space d).entry p idx a c → 32 * ((idx : Int) + 1) ≤ (d.inodes p).size
  links : ∀ i, Allocated d i → isDir (d.inodes i).mode = false → (d.inodes i).nlinks = 1
  sound : (space d).Sound 0

theorem Base.root (h : Base d) : Allocated d 0 ∧ isDir (d.inodes 0).mode = true := h.sound.root_dir

/-- A live entry of a directory is an entry of the space. -/
theorem Base.entry_of_live (h : Base d) {a : List UInt8} {num : Int} (hp : (space d).dir p)
    (hidx : idx < 96) (hl : liveEntry d p idx = some (a, num)) :
    ∃ c : Nat, num = c ∧ (space d).entry p idx a c := by
  obtain ⟨hb, hnum, hne, -, -⟩ := liveEntry_eq_some hl
  have hok := h.raw p idx hp hidx hb (by rw [hnum]; exact hne)
  rw [hnum] at hok
  obtain ⟨c, rfl⟩ := Int.eq_ofNat_of_zero_le hok.1
  exact ⟨c, rfl, hp, hidx, hl⟩

/-! ### Quiet changes -/

/-- A change that leaves the allocated inodes, their kinds and the live entries
alone. -/
structure Quiet (d d' : Disk) : Prop where
  owned : Owned d'
  alloc : ∀ j, Allocated d' j ↔ Allocated d j
  num : ∀ j, Allocated d j → (d'.inodes j).num = (d.inodes j).num
  mode : ∀ j, Allocated d j → (d'.inodes j).mode = (d.inodes j).mode
  size : ∀ p, (space d).dir p → (d'.inodes p).size = (d.inodes p).size
  live : ∀ p idx, (space d).dir p → idx < 96 → liveEntry d' p idx = liveEntry d p idx
  raw : ∀ p idx, (space d).dir p → idx < 96 → EntryOk d' p idx

theorem Quiet.dir (q : Quiet d d') : (space d').dir p ↔ (space d).dir p := by
  show (Allocated d' p ∧ _) ↔ (Allocated d p ∧ _)
  rw [q.alloc]
  constructor
  · rintro ⟨ha, hm⟩
    exact ⟨ha, by rw [← q.mode p ha]; exact hm⟩
  · rintro ⟨ha, hm⟩
    exact ⟨ha, by rw [q.mode p ha]; exact hm⟩

theorem Quiet.space (q : Quiet d d') : space d' = space d := by
  refine Space.ext' q.alloc (fun _ => q.dir) fun p idx a c => ?_
  show ((Wfs.space d').dir p ∧ idx < 96 ∧ liveEntry d' p idx = _) ↔
    ((Wfs.space d).dir p ∧ idx < 96 ∧ liveEntry d p idx = _)
  rw [q.dir]
  constructor
  · rintro ⟨hp, hidx, hl⟩
    exact ⟨hp, hidx, by rw [← q.live p idx hp hidx]; exact hl⟩
  · rintro ⟨hp, hidx, hl⟩
    exact ⟨hp, hidx, by rw [q.live p idx hp hidx]; exact hl⟩

theorem Base.quiet (h : Base d) (q : Quiet d d')
    (hl : ∀ j, Allocated d j → isDir (d.inodes j).mode = false →
      (d'.inodes j).nlinks = (d.inodes j).nlinks) : Base d' where
  owned := q.owned
  num j hj := by
    have ha := (q.alloc j).mp hj
    rw [q.num j ha, h.num j ha]
  kind j hj := by
    have ha := (q.alloc j).mp hj
    rw [q.mode j ha]
    exact h.kind j ha
  size p hp := by
    rw [q.space] at hp
    rw [q.size p hp]
    exact h.size p hp
  raw p idx hp hidx := q.raw p idx (q.dir.mp hp) hidx
  below p idx a c he := by
    rw [q.space] at he
    rw [q.size p (h.sound.entry_dir he)]
    exact h.below p idx a c he
  links j hj hd := by
    have ha := (q.alloc j).mp hj
    rw [q.mode j ha] at hd
    rw [hl j ha hd]
    exact h.links j ha hd
  sound := by
    rw [q.space]
    exact h.sound

/-- Whatever happens inside a regular file is quiet. -/
theorem Confined.quiet (h : Base d) (hc : Confined d d' i) (hi : isDir (d.inodes i).mode = false) :
    Quiet d d' := by
  have hne : ∀ {p}, (Wfs.space d).dir p → p ≠ i := by
    rintro p ⟨-, hm⟩ rfl
    rw [hi] at hm
    cases hm
  refine ⟨hc.owned, fun j => hc.allocated, fun j _ => hc.field Inode.num (fun _ _ => rfl) j,
    fun j _ => hc.field Inode.mode (fun _ _ => rfl) j, fun j _ => hc.field Inode.size (fun _ _ => rfl) j,
    fun p idx hp hidx => ?_, fun p idx hp hidx => ?_⟩
  · exact liveEntry_frame (hc.same p (hne hp) hp.1) hidx
  · exact ((hc.same p (hne hp) hp.1).sameEntry hidx).entryOk (h.raw p idx hp hidx)

/-- Changing times, owner, colour or link count of an inode is quiet; so is
changing the size of a regular file. -/
theorem Base.quiet_setInode (h : Base s.toDisk) {ino : Inode} (hnum : ino.num = (s.inodes i).num)
    (hmode : ino.mode = (s.inodes i).mode) (hblocks : ino.blocks = (s.inodes i).blocks)
    (hsize : isDir (s.inodes i).mode = true → ino.size = (s.inodes i).size) :
    Quiet s.toDisk (s.setInode i ino).toDisk := by
  have hfield : ∀ {α} (f : Inode → α), f ino = f (s.inodes i) →
      ∀ j, f ((s.setInode i ino).inodes j) = f (s.inodes j) := by
    intro α f hf j
    rcases eq_or_ne j i with rfl | hj
    · rw [Fs.setInode_self, hf]
    · rw [Fs.setInode_ne hj]
  have hsame := sameBlocks_setInode hblocks
  refine ⟨h.owned.setInode hblocks, fun j => Iff.rfl, fun j _ => hfield Inode.num hnum j,
    fun j _ => hfield Inode.mode hmode j, fun p hp => ?_, fun p idx _ hidx => ?_,
    fun p idx hp hidx => ?_⟩
  · by_cases hpi : p = i
    · subst hpi
      rw [Fs.setInode_self]
      exact hsize hp.2
    · rw [Fs.setInode_ne hpi]
  · exact liveEntry_frame (hsame p) hidx
  · exact ((hsame p).sameEntry hidx).entryOk (h.raw p idx hp hidx)

/-- A new directory block is quiet. -/
theorem Base.quiet_assign (h : Base s.toDisk) {b : Fin 6} {k : Nat}
    (ha : Assignable s p (.direct b) k) :
    Quiet s.toDisk (assign s p (.direct b) k).toDisk := by
  have hc := Confined.assign h.owned ha
  refine ⟨hc.owned, fun j => hc.allocated, fun j _ => hc.field Inode.num (fun _ _ => rfl) j,
    fun j _ => hc.field Inode.mode (fun _ _ => rfl) j, fun j _ => hc.field Inode.size (fun _ _ => rfl) j,
    fun q idx hq hidx => ?_, fun q idx hq hidx => ?_⟩
  · by_cases hqp : q = p
    · subst hqp
      exact liveEntry_assign h.owned ha hidx
    · exact liveEntry_frame (hc.same q hqp hq.1) hidx
  · by_cases hqp : q = p
    · subst hqp
      exact entryOk_assign h.owned ha hidx (h.raw q idx hq hidx)
    · exact ((hc.same q hqp hq.1).sameEntry hidx).entryOk (h.raw q idx hq hidx)

/-! ### A new inode -/

theorem ne_of_free (hi : ¬ Allocated d i) (hj : Allocated d j) : j ≠ i := by
  rintro rfl
  exact hi hj

section newInode

variable {ino : Inode}

theorem space_newInode (hi : i < s.sb.numInodes)
    (hfree : ¬ Allocated s.toDisk i) (hblocks : ino.blocks = fun _ => 0) :
    space (newInode s i ino).toDisk = (space s.toDisk).addNode i (isDir ino.mode = true) := by
  have hinode : ∀ {j}, Allocated s.toDisk j → (newInode s i ino).inodes j = s.inodes j :=
    fun hj => newInode_inodes_ne (ne_of_free hfree hj)
  have hdir : ∀ p, (space (newInode s i ino).toDisk).dir p ↔
      p = i ∧ isDir ino.mode = true ∨ (space s.toDisk).dir p := by
    intro p
    show (Allocated _ p ∧ _) ↔ _ ∨ (Allocated _ p ∧ _)
    rw [allocated_newInode hi]
    constructor
    · rintro ⟨rfl | hp, hm⟩
      · rw [newInode_inode] at hm
        exact Or.inl ⟨rfl, hm⟩
      · rw [hinode hp] at hm
        exact Or.inr ⟨hp, hm⟩
    · rintro (⟨rfl, hm⟩ | ⟨hp, hm⟩)
      · exact ⟨Or.inl rfl, by rw [newInode_inode]; exact hm⟩
      · exact ⟨Or.inr hp, by rw [hinode hp]; exact hm⟩
  refine Space.ext' (fun j => allocated_newInode hi) hdir fun p idx a c => ?_
  show ((space (newInode s i ino).toDisk).dir p ∧ idx < 96 ∧ _) ↔
    ((space s.toDisk).dir p ∧ idx < 96 ∧ _)
  rw [hdir]
  constructor
  · rintro ⟨⟨rfl, -⟩ | hp, hidx, hl⟩
    · -- the new inode has no block and hence no entry
      rw [liveEntry_of_block_eq_zero (by rw [newInode_inode, hblocks])] at hl
      cases hl
    · rw [liveEntry_frame (sameBlocks_newInode (ne_of_free hfree hp.1)) hidx] at hl
      exact ⟨hp, hidx, hl⟩
  · rintro ⟨hp, hidx, hl⟩
    refine ⟨Or.inr hp, hidx, ?_⟩
    rw [liveEntry_frame (sameBlocks_newInode (ne_of_free hfree hp.1)) hidx]
    exact hl

theorem Base.newInode (h : Base s.toDisk) (hi : i < s.sb.numInodes)
    (hfree : ¬ Allocated s.toDisk i) (hnum : ino.num = i) (hblocks : ino.blocks = fun _ => 0)
    (hsize : ino.size = 0) (hkind : isDir ino.mode = true ∨ isReg ino.mode = true)
    (hlinks : isDir ino.mode = false → ino.nlinks = 1) : Base (newInode s i ino).toDisk := by
  have hspace := space_newInode hi hfree hblocks
  have hinode : ∀ {j}, Allocated s.toDisk j → (Wfs.newInode s i ino).inodes j = s.inodes j :=
    fun hj => newInode_inodes_ne (ne_of_free hfree hj)
  refine ⟨h.owned.newInode hi hfree hblocks, fun j hj => ?_, fun j hj => ?_, fun p hp => ?_,
    fun p idx hp hidx => ?_, fun p idx a c he => ?_, fun j hj hd => ?_, ?_⟩
  · -- in each clause: the new inode by what was stored in it, the others as before
    rcases (allocated_newInode hi).mp hj with rfl | hj
    · rw [newInode_inode, hnum]
    · rw [hinode hj]
      exact h.num j hj
  · rcases (allocated_newInode hi).mp hj with rfl | hj
    · rw [newInode_inode]
      exact hkind
    · rw [hinode hj]
      exact h.kind j hj
  · rw [hspace] at hp
    rcases hp with ⟨rfl, -⟩ | hp
    · rw [newInode_inode, hsize]
      exact ⟨by decide, by decide⟩
    · rw [hinode hp.1]
      exact h.size p hp
  · rw [hspace] at hp
    rcases hp with ⟨rfl, -⟩ | hp
    · intro hb
      rw [newInode_inode, hblocks] at hb
      exact absurd rfl hb
    · exact ((sameBlocks_newInode (ne_of_free hfree hp.1)).sameEntry hidx).entryOk
        (h.raw p idx hp hidx)
  · rw [hspace] at he
    have hp := h.sound.entry_dir he
    rw [hinode hp.1]
    exact h.below p idx a c he
  · rcases (allocated_newInode hi).mp hj with rfl | hj
    · rw [newInode_inode] at hd ⊢
      exact hlinks hd
    · rw [hinode hj] at hd ⊢
      exact h.links j hj hd
  · rw [hspace]
    exact h.sound.addNode

end newInode

/-! ### Changing one entry -/

/-- Only the 32 bytes of entry `idx` of directory `p`, and the size and times of
`p`, differ. -/
structure Pokes (d d' : Disk) (p idx : Nat) : Prop where
  sb : d'.sb = d.sb
  ibm : d'.ibm = d.ibm
  dbm : d'.dbm = d.dbm
  others : ∀ j, j ≠ p → d'.inodes j = d.inodes j
  num : (d'.inodes p).num = (d.inodes p).num
  mode : (d'.inodes p).mode = (d.inodes p).mode
  nlinks : (d'.inodes p).nlinks = (d.inodes p).nlinks
  blocks : (d'.inodes p).blocks = (d.inodes p).blocks
  data : ∀ x, x < entryAddr d p idx ∨ entryAddr d p idx + 32 ≤ x → d'.data x = d.data x

/-- The entry that is changed: in an allocated directory, within a block. -/
structure Place (d : Disk) (p idx : Nat) : Prop where
  dir : (space d).dir p
  lt : idx < 96
  block : (d.inodes p).blocks (idx / 16) ≠ 0

section Pokes

variable {q l : Nat}

theorem Pokes.field {α : Type*} (hk : Pokes d d' p idx) (f : Inode → α)
    (hf : f (d'.inodes p) = f (d.inodes p)) (j : Nat) : f (d'.inodes j) = f (d.inodes j) := by
  rcases eq_or_ne j p with rfl | hj
  · exact hf
  · rw [hk.others j hj]

theorem Pokes.allocated (hk : Pokes d d' p idx) : Allocated d' j ↔ Allocated d j := by
  simp only [Allocated, hk.sb, hk.ibm]

theorem Pokes.dir (hk : Pokes d d' p idx) : (space d').dir q ↔ (space d).dir q := by
  show (Allocated d' q ∧ _) ↔ (Allocated d q ∧ _)
  rw [hk.allocated, hk.field Inode.mode hk.mode]

theorem Pokes.within (hk : Pokes d d' p idx) : Within d d' ((d.inodes p).blocks (idx / 16)) := by
  intro x hx
  apply hk.data
  rw [entryAddr]
  omega

/-- No pointer is in an entry. -/
theorem Pokes.slotVal (hk : Pokes d d' p idx) (ho : Owned d) (hpl : Place d p idx)
    (hj : Allocated d j) (sl : Slot) : slotVal d' j sl = slotVal d j sl := by
  have hlt := hpl.lt
  have hb : idx / 16 < 6 := by omega
  rcases eq_or_ne j p with rfl | hjp
  · exact @Owned.slotVal_of_within d d' j (.direct ⟨idx / 16, hb⟩) ho hj (by simp) hpl.block
      hk.within hk.blocks sl
  · exact (@Owned.sameBlocks_of_within d d' p j (.direct ⟨idx / 16, hb⟩) ho hpl.dir.1 hj hjp
      hpl.block hk.within (by rw [hk.others j hjp])).slotVal sl

theorem Pokes.owned (hk : Pokes d d' p idx) (ho : Owned d) (hpl : Place d p idx) : Owned d' :=
  ho.of_slotVal hk.sb hk.ibm hk.dbm fun _ sl hj => hk.slotVal ho hpl hj sl

theorem Pokes.sameEntry (hk : Pokes d d' p idx) (ho : Owned d) (hpl : Place d p idx)
    (hq : (space d).dir q) (hl : l < 96) (hne : ¬ (q = p ∧ l = idx)) : SameEntry d d' q l := by
  have hlt := hpl.lt
  have hb : idx / 16 < 6 := by omega
  rcases eq_or_ne q p with rfl | hqp
  · exact ho.sameEntry_of_ne hq.1 hpl.lt hl (fun e => hne ⟨rfl, e⟩) hpl.block hk.data hk.blocks
  · exact (@Owned.sameBlocks_of_within d d' p q (.direct ⟨idx / 16, hb⟩) ho hpl.dir.1 hq.1 hqp
      hpl.block hk.within (by rw [hk.others q hqp])).sameEntry hl

/-- All entries but the changed one stay. -/
theorem Pokes.entry (hk : Pokes d d' p idx) (ho : Owned d) (hpl : Place d p idx) {a : List UInt8}
    {c : Nat} : (space d').entry q l a c ↔
      (q = p ∧ l = idx ∧ liveEntry d' p idx = some (a, (c : Int))) ∨
        ((space d).entry q l a c ∧ ¬ (q = p ∧ l = idx)) := by
  show ((space d').dir q ∧ l < 96 ∧ _) ↔ _ ∨ (((space d).dir q ∧ l < 96 ∧ _) ∧ _)
  rw [hk.dir]
  by_cases hql : q = p ∧ l = idx
  · obtain ⟨rfl, rfl⟩ := hql
    constructor
    · rintro ⟨-, -, hl⟩
      exact Or.inl ⟨rfl, rfl, hl⟩
    · rintro (⟨-, -, hl⟩ | ⟨-, hne⟩)
      · exact ⟨hpl.dir, hpl.lt, hl⟩
      · exact absurd ⟨rfl, rfl⟩ hne
  · constructor
    · rintro ⟨hq, hlt, hl⟩
      rw [(hk.sameEntry ho hpl hq hlt hql).liveEntry] at hl
      exact Or.inr ⟨⟨hq, hlt, hl⟩, hql⟩
    · rintro (⟨hq, hl, -⟩ | ⟨⟨hq, hlt, hl⟩, -⟩)
      · exact absurd ⟨hq, hl⟩ hql
      · rw [(hk.sameEntry ho hpl hq hlt hql).liveEntry]
        exact ⟨hq, hlt, hl⟩

theorem Base.pokes (h : Base d) (hk : Pokes d d' p idx) (hpl : Place d p idx)
    (hraw : EntryOk d' p idx)
    (hsize : (d.inodes p).size ≤ (d'.inodes p).size ∧ (d'.inodes p).size ≤ 3072)
    (hbelow : ∀ e, liveEntry d' p idx = some e → 32 * ((idx : Int) + 1) ≤ (d'.inodes p).size)
    (hsound : (space d').Sound 0) : Base d' where
  owned := hk.owned h.owned hpl
  num j hj := by
    rw [hk.field Inode.num hk.num]
    exact h.num j (hk.allocated.mp hj)
  kind j hj := by
    rw [hk.field Inode.mode hk.mode]
    exact h.kind j (hk.allocated.mp hj)
  size q hq := by
    have hq' := h.size q (hk.dir.mp hq)
    rcases eq_or_ne q p with rfl | hqp
    · exact ⟨hq'.1.trans hsize.1, hsize.2⟩
    · rw [hk.others q hqp]
      exact hq'
  -- only the one entry was written
  raw q l hq hl := by
    by_cases hql : q = p ∧ l = idx
    · rw [hql.1, hql.2]
      exact hraw
    · exact (hk.sameEntry h.owned hpl (hk.dir.mp hq) hl hql).entryOk (h.raw q l (hk.dir.mp hq) hl)
  -- the size never shrinks, and covers the new entry
  below q l a c he := by
    rcases (hk.entry h.owned hpl).mp he with ⟨rfl, rfl, hl⟩ | ⟨he', -⟩
    · exact hbelow _ hl
    · have hold := h.below q l a c he'
      rcases eq_or_ne q p with rfl | hqp
      · exact hold.trans hsize.1
      · rw [hk.others q hqp]
        exact hold
  links j hj hd := by
    rw [hk.field Inode.mode hk.mode] at hd
    rw [hk.field Inode.nlinks hk.nlinks]
    exact h.links j (hk.allocated.mp hj) hd
  sound := hsound

end Pokes

/-! ### Writing an entry -/

section writeEntry

variable {now : Int} {name : List UInt8}

theorem pokes_writeEntry {num : Int} :
    Pokes s.toDisk (writeEntry s p idx num name now).toDisk p idx where
  sb := rfl
  ibm := rfl
  dbm := rfl
  others _ hj := writeEntry_inodes_ne hj
  num := by rw [writeEntry_inode]; rfl
  mode := by rw [writeEntry_inode]; rfl
  nlinks := by rw [writeEntry_inode]; rfl
  blocks := writeEntry_blocks p
  data _ hx := writeEntry_data_of_disjoint hx

/-- What `add_dentry` may be asked to write. -/
structure GoodName (name : List UInt8) : Prop where
  ne_nil : name ≠ []
  lt : name.length < 28
  nul_free : ∀ c ∈ name, c ≠ 0

theorem bmod_inum (ho : Owned d) (hi : Allocated d i) : Int.bmod (i : Int) (256 ^ 4) = i := by
  have h₁ := ho.sbOk.inodes_lt
  have h₂ := hi.1
  rw [Int.bmod_eq_of_le] <;> omega

theorem space_writeEntry (h : Base s.toDisk) (hpl : Place s.toDisk p idx)
    (hi : Allocated s.toDisk i) (hi0 : i ≠ 0) (hname : GoodName name)
    (hfree : liveEntry s.toDisk p idx = none) :
    space (writeEntry s p idx i name now).toDisk = (space s.toDisk).addEntry p idx name i := by
  have hk : Pokes s.toDisk (writeEntry s p idx i name now).toDisk p idx := pokes_writeEntry
  refine Space.ext' (fun j => hk.allocated) (fun j => hk.dir) fun q l a c => ?_
  rw [hk.entry h.owned hpl, liveEntry_writeEntry hpl.block (by simpa using hi0)
    (bmod_inum h.owned hi) hname.ne_nil hname.lt hname.nul_free]
  constructor
  · rintro (⟨rfl, rfl, hl⟩ | ⟨he, -⟩)
    · obtain ⟨rfl, hc⟩ := Prod.mk.inj (Option.some.inj hl)
      exact Or.inl ⟨rfl, rfl, rfl, by exact_mod_cast hc.symm⟩
    · exact Or.inr he
  · rintro (⟨rfl, rfl, rfl, rfl⟩ | he)
    · exact Or.inl ⟨rfl, rfl, rfl⟩
    · refine Or.inr ⟨he, ?_⟩
      rintro ⟨rfl, rfl⟩
      have hl := he.2.2
      rw [hfree] at hl
      cases hl

theorem Base.writeEntry (h : Base s.toDisk) (hpl : Place s.toDisk p idx)
    (hi : Allocated s.toDisk i) (hi0 : i ≠ 0) (hip : i ≠ p) (hname : GoodName name)
    (hfree : liveEntry s.toDisk p idx = none) (hun : ∀ q l a, ¬ (space s.toDisk).entry q l a i)
    (hnew : ∀ l c, ¬ (space s.toDisk).entry p l name c) :
    Base (writeEntry s p idx i name now).toDisk := by
  have hlt := hpl.lt
  have hold := h.size p hpl.dir
  refine h.pokes pokes_writeEntry hpl ?_ ?_ (fun _ _ => ?_) ?_
  · exact entryOk_writeEntry (by omega) (bmod_inum h.owned hi) hname.ne_nil hname.lt hname.nul_free
  · rw [writeEntry_inode]
    simp only [wfsUpdateTimes]
    split_ifs <;> constructor <;> omega
  · rw [writeEntry_inode]
    simp only [wfsUpdateTimes]
    split_ifs <;> omega
  · rw [space_writeEntry h hpl hi hi0 hname hfree]
    refine h.sound.addEntry hpl.dir hi hi0 hip hun hnew fun a c he => ?_
    rw [he.2.2] at hfree
    cases hfree

end writeEntry

/-! ### Clearing an entry -/

section clearEntry

variable {now : Int}

theorem pokes_clearEntry : Pokes s.toDisk (clearEntry s p idx now).toDisk p idx where
  sb := rfl
  ibm := rfl
  dbm := rfl
  others _ hj := clearEntry_inodes_ne hj
  num := by rw [clearEntry_inode]; rfl
  mode := by rw [clearEntry_inode]; rfl
  nlinks := by rw [clearEntry_inode]; rfl
  blocks := clearEntry_blocks p
  data _ hx := clearEntry_data_of_disjoint hx

theorem space_clearEntry (h : Base s.toDisk) (hpl : Place s.toDisk p idx) :
    space (clearEntry s p idx now).toDisk = (space s.toDisk).removeEntry p idx := by
  have hk : Pokes s.toDisk (clearEntry s p idx now).toDisk p idx := pokes_clearEntry
  refine Space.ext' (fun j => hk.allocated) (fun j => hk.dir) fun q l a c => ?_
  rw [hk.entry h.owned hpl, liveEntry_clearEntry]
  constructor
  · rintro (⟨-, -, hl⟩ | he)
    · cases hl
    · exact he
  · exact Or.inr

theorem Base.clearEntry (h : Base s.toDisk) (hpl : Place s.toDisk p idx) :
    Base (clearEntry s p idx now).toDisk := by
  have hold := h.size p hpl.dir
  have hsize : ((Wfs.clearEntry s p idx now).inodes p).size = (s.inodes p).size := by
    rw [clearEntry_inode]
    rfl
  refine h.pokes pokes_clearEntry hpl (entryOk_of_num_eq_zero entryNum_clearEntry) ?_
    (fun e he => ?_) ?_
  · rw [hsize]
    exact ⟨le_refl _, hold.2⟩
  · rw [liveEntry_clearEntry] at he
    cases he
  · rw [space_clearEntry h hpl]
    exact h.sound.removeEntry

end clearEntry

/-! ### Dropping an inode -/

/-- The inode `i` has been given back between two images. -/
structure Dropped (d d' : Disk) (i : Nat) : Prop where
  owned : Owned d'
  alloc : ∀ j, Allocated d' j ↔ Allocated d j ∧ j ≠ i
  others : ∀ j, j ≠ i → d'.inodes j = d.inodes j
  gone : d'.inodes i = Inode.zero
  same : ∀ j, j ≠ i → Allocated d j → SameBlocks d d' j

/-- The end of `wfs_unlink` and `wfs_rmdir`: the blocks of an inode are freed,
then the inode. -/
theorem dropped_freeInode (ho : Owned s.toDisk) (hi : Allocated s.toDisk i)
    (hn : (s.inodes i).num = i) :
    Dropped s.toDisk (freeInode (freeBlocksOf s i) i).toDisk i := by
  obtain ⟨hc, hz⟩ := freeBlocksOf_spec ho hi
  have hlt : i < 2 ^ 31 := hi.1.trans ho.sbOk.inodes_lt
  have hnum : ((freeBlocksOf s i).inodes i).num = i := by
    rw [hc.inode]
    exact hn
  obtain ⟨ho', ha⟩ := hc.owned.freeInode hlt hnum hz
  have hinodes : ∀ j, j ≠ i →
      (freeInode (freeBlocksOf s i) i).inodes j = (freeBlocksOf s i).inodes j := by
    intro j hj
    rw [freeInode_eq hlt hnum]
    exact Fs.setInode_ne hj
  refine ⟨ho', fun j => (ha j).trans (by rw [hc.allocated]), fun j hj => ?_, ?_, fun j hj hja => ?_⟩
  · rw [hinodes j hj, hc.others j hj]
  · rw [freeInode_eq hlt hnum]
    exact Fs.setInode_self
  · refine (hc.same j hj hja).trans ⟨by rw [hinodes j hj], fun _ _ _ _ _ => ?_⟩
    rw [freeInode_eq hlt hnum]
    rfl

theorem Dropped.dir (hd : Dropped d d' i) : (space d').dir p ↔ (space d).dir p ∧ p ≠ i := by
  show (Allocated d' p ∧ _) ↔ (Allocated d p ∧ _) ∧ _
  rw [hd.alloc]
  constructor
  · rintro ⟨⟨ha, hp⟩, hm⟩
    rw [hd.others p hp] at hm
    exact ⟨⟨ha, hm⟩, hp⟩
  · rintro ⟨⟨ha, hm⟩, hp⟩
    exact ⟨⟨ha, hp⟩, by rw [hd.others p hp]; exact hm⟩

theorem Dropped.space (hd : Dropped d d' i) : space d' = (space d).removeNode i := by
  refine Space.ext' hd.alloc (fun _ => hd.dir) fun p idx a c => ?_
  show ((Wfs.space d').dir p ∧ idx < 96 ∧ _) ↔ ((Wfs.space d).dir p ∧ idx < 96 ∧ _) ∧ _
  rw [hd.dir]
  constructor
  · rintro ⟨⟨hp, hne⟩, hidx, hl⟩
    rw [liveEntry_frame (hd.same p hne hp.1) hidx] at hl
    exact ⟨⟨hp, hidx, hl⟩, hne⟩
  · rintro ⟨⟨hp, hidx, hl⟩, hne⟩
    rw [liveEntry_frame (hd.same p hne hp.1) hidx]
    exact ⟨⟨hp, hne⟩, hidx, hl⟩

theorem Base.dropped (h : Base d) (hd : Dropped d d' i) (hi0 : i ≠ 0)
    (hun : ∀ q l a, ¬ (space d).entry q l a i) : Base d' where
  owned := hd.owned
  num j hj := by
    obtain ⟨ha, hne⟩ := (hd.alloc j).mp hj
    rw [hd.others j hne]
    exact h.num j ha
  kind j hj := by
    obtain ⟨ha, hne⟩ := (hd.alloc j).mp hj
    rw [hd.others j hne]
    exact h.kind j ha
  size p hp := by
    obtain ⟨hp, hne⟩ := hd.dir.mp hp
    rw [hd.others p hne]
    exact h.size p hp
  raw p idx hp hidx := by
    obtain ⟨hp, hne⟩ := hd.dir.mp hp
    exact ((hd.same p hne hp.1).sameEntry hidx).entryOk (h.raw p idx hp hidx)
  below p idx a c he := by
    rw [hd.space] at he
    rw [hd.others p he.2]
    exact h.below p idx a c he.1
  links j hj hm := by
    obtain ⟨ha, hne⟩ := (hd.alloc j).mp hj
    rw [hd.others j hne] at hm ⊢
    exact h.links j ha hm
  sound := by
    rw [hd.space]
    exact h.sound.removeNode hi0 hun

end SystemsPortfolio.Wfs
