/-
SystemsPortfolio/Wfs/DirMap.lean

One directory as a map from names to inode numbers.

The loops over a directory differ: `dentry_to_num`, `remove_dentry` and `wfs_readdir` stop at
the directory's size, `add_dentry` goes through all 96 places and allocates blocks as it goes.
`DirOk` is what they need to agree on which entries are live.  It knows nothing of other
directories or of the inodes that are named, and each of the four is described by it alone:
the live entries are a table of slots, and the table is a map where no name occurs twice
(`dentryToNum_eq`, `addDentry_outcome`, `removeDentry_outcome`, `listed_eq_keys`).
-/
import SystemsPortfolio.Lib.SlotTable
import SystemsPortfolio.Wfs.NameSpace

namespace SystemsPortfolio.Wfs

open ByteStore SlotTable

variable {d d' : Disk} {s t : Fs} {p idx : Nat} {name : List UInt8} {num now : Int}

/-! ### Comparing names -/

/-- `strncmp` of a terminated field with a name compares the stored name. -/
theorem strncmpEq_iff {n : Nat} {field : List UInt8} (hlen : field.length ≤ n)
    (hterm : 0 ∈ field) (hnul : ∀ b ∈ name, b ≠ 0) :
    strncmpEq n field name = true ↔ field.takeWhile (· ≠ 0) = name := by
  induction field generalizing n name with
  | nil => cases hterm
  | cons b field ih =>
      rcases n with - | n
      · simp at hlen
      · rw [strncmpEq]
        rcases name with - | ⟨e, name⟩
        · -- the name ends here: equal exactly when the field does too
          by_cases hb : b = 0
          · simp [hb]
          · simp [hb]
        · have he : e ≠ 0 := hnul e List.mem_cons_self
          rcases eq_or_ne b e with rfl | hb
          · have hterm' : 0 ∈ field := (List.mem_cons.mp hterm).resolve_left he.symm
            have hnul' : ∀ x ∈ name, x ≠ 0 := fun x hx => hnul x (List.mem_cons_of_mem _ hx)
            have h := ih (n := n) (by simpa using hlen) hterm' hnul'
            simp only [List.headD_cons, List.tail_cons, ne_eq, not_true_eq_false, if_false, he]
            rw [h]
            simp [he]
          · simp only [List.headD_cons, ne_eq, hb, not_false_eq_true, if_true]
            by_cases hb0 : b = 0
            · simp [hb0]
            · simp [hb0, hb]

/-! ### The invariant of one directory -/

/-- What the loops over the entries of directory `p` rest on. -/
structure DirOk (d : Disk) (p : Nat) : Prop where
  owned : Owned d
  dir : (space d).dir p
  size : 0 ≤ (d.inodes p).size ∧ (d.inodes p).size ≤ 3072
  raw : ∀ idx < 96, EntryOk d p idx
  below : ∀ idx < 96, liveEntry d p idx ≠ none → 32 * ((idx : Int) + 1) ≤ (d.inodes p).size

theorem Base.dirOk (h : Base d) (hp : (space d).dir p) : DirOk d p where
  owned := h.owned
  dir := hp
  size := h.size p hp
  raw idx hidx := h.raw p idx hp hidx
  below idx hidx hlive := by
    obtain ⟨⟨a, num⟩, hl⟩ := Option.ne_none_iff_exists'.1 hlive
    obtain ⟨c, -, he⟩ := h.entry_of_live hp hidx hl
    exact h.below p idx a c he

/-- A name in a directory is short and ends before its field does; its number is positive. -/
theorem DirOk.live (h : DirOk d p) (hidx : idx < 96) (hl : liveEntry d p idx = some (name, num)) :
    0 < num ∧ name.length < 28 := by
  obtain ⟨hb, hnum, hne, -, hname⟩ := liveEntry_eq_some hl
  obtain ⟨hpos, -, hterm⟩ := h.raw idx hidx hb (by rw [hnum]; exact hne)
  refine ⟨by omega, ?_⟩
  have hlen : (entryName d p idx).length = 28 := by simp [entryName]
  have hpre := List.takeWhile_prefix (fun b : UInt8 => decide (b ≠ 0)) (l := entryName d p idx)
  rcases Nat.lt_or_eq_of_le hpre.length_le with hlt | heq
  · rw [← hname]
    omega
  · -- a field without a NUL would not be terminated
    have hall := hpre.eq_of_length heq
    rw [List.takeWhile_eq_self_iff] at hall
    exact absurd (hall 0 hterm) (by simp)

theorem mem_dirEntries {size : Int} (h₀ : 0 ≤ size) (h₁ : size ≤ 3072) :
    idx ∈ dirEntries size ↔ 32 * ((idx : Int) + 1) ≤ size := by
  have hs : (sizeT size : Int) = size := sizeT_of_nonneg h₀ (by omega)
  rw [dirEntries, List.mem_range]
  omega

theorem lt_of_mem_dirEntries {size : Int} (h : idx ∈ dirEntries size) : idx < 96 := by
  rw [dirEntries, List.mem_range] at h
  omega

/-- A loop that ends at the size visits every live entry. -/
theorem DirOk.mem_dirEntries (h : DirOk d p) (hidx : idx < 96) (hl : liveEntry d p idx ≠ none) :
    idx ∈ dirEntries (d.inodes p).size :=
  (Wfs.mem_dirEntries h.size.1 h.size.2).mpr (h.below idx hidx hl)

/-! ### `dentry_to_num` -/

/-- The test of `dentry_to_num` on one entry. -/
theorem DirOk.matches_iff (h : DirOk d p) (hidx : idx < 96) (hnul : ∀ b ∈ name, b ≠ 0) :
    (hasEntry d p idx && !entryFree d p idx && strncmpEq 28 (entryName d p idx) name) = true ↔
      ∃ num, liveEntry d p idx = some (name, num) := by
  have hcmp : ∀ {a num}, liveEntry d p idx = some (a, num) →
      (strncmpEq 28 (entryName d p idx) name = true ↔ a = name) := by
    intro a num hl
    obtain ⟨hb, hnum, hne, -, hname⟩ := liveEntry_eq_some hl
    have hok := h.raw idx hidx hb (by rw [hnum]; exact hne)
    rw [strncmpEq_iff (by simp [entryName]) hok.2.2 hnul, hname]
  rw [Bool.and_eq_true, ← liveEntry_isSome_iff]
  constructor
  · rintro ⟨hsome, heq⟩
    obtain ⟨⟨a, num⟩, hl⟩ := Option.isSome_iff_exists.mp hsome
    obtain rfl := (hcmp hl).mp heq
    exact ⟨num, hl⟩
  · rintro ⟨num, hl⟩
    exact ⟨by rw [hl]; rfl, (hcmp hl).mpr rfl⟩

/-- `dentry_to_num` finds a live entry of the name, or there is none. -/
theorem DirOk.dentryToNum_cases (h : DirOk s.toDisk p) (hnul : ∀ b ∈ name, b ≠ 0) :
    (∃ idx < 96, ∃ num, liveEntry s.toDisk p idx = some (name, num) ∧ dentryToNum s name p = num) ∨
      ((∀ idx < 96, ∀ num, liveEntry s.toDisk p idx ≠ some (name, num)) ∧
        dentryToNum s name p = -ENOENT) := by
  rw [dentryToNum, if_neg (by rw [h.dir.2]; simp)]
  rcases e : (dirEntries (s.inodes p).size).find? _ with - | idx
  · right
    refine ⟨fun idx hidx num hl => ?_, rfl⟩
    rw [List.find?_eq_none] at e
    exact e idx (h.mem_dirEntries hidx (by rw [hl]; simp)) ((h.matches_iff hidx hnul).mpr ⟨num, hl⟩)
  · left
    have hlt := lt_of_mem_dirEntries (List.mem_of_find?_eq_some e)
    have hmatch := List.find?_some e
    obtain ⟨num, hl⟩ := (h.matches_iff hlt hnul).mp hmatch
    exact ⟨idx, hlt, num, hl, (liveEntry_eq_some hl).2.1⟩

/-! ### `remove_dentry` -/

/-- The test of `remove_dentry` on one entry. -/
theorem DirOk.numbered_iff (h : DirOk d p) (hidx : idx < 96) {inum : Int} :
    (hasEntry d p idx && decide (entryNum d p idx = inum ∧ entryNum d p idx ≠ 0)) = true ↔
      ∃ a, liveEntry d p idx = some (a, inum) := by
  simp only [hasEntry, Bool.and_eq_true, decide_eq_true_eq]
  constructor
  · rintro ⟨hb, rfl, hne⟩
    have hok := h.raw idx hidx hb hne
    exact ⟨_, if_pos (by simp [hasEntry, entryFree, hb, hne, hok.2.1])⟩
  · rintro ⟨a, hl⟩
    obtain ⟨hb, rfl, hne, -, -⟩ := liveEntry_eq_some hl
    exact ⟨hb, rfl, hne⟩

/-- `remove_dentry` clears a live entry of the number, or there is none. -/
theorem DirOk.removeDentry_cases (h : DirOk s.toDisk p) (inum now : Int) :
    (∃ idx < 96, ∃ a, liveEntry s.toDisk p idx = some (a, inum) ∧
        removeDentry s p inum now = (0, clearEntry s p idx now)) ∨
      ((∀ idx < 96, ∀ a, liveEntry s.toDisk p idx ≠ some (a, inum)) ∧
        removeDentry s p inum now = (-ENOENT, s)) := by
  rw [removeDentry, if_neg (by rw [h.dir.2]; simp)]
  rcases e : (dirEntries (s.inodes p).size).find? _ with - | idx
  · right
    refine ⟨fun idx hidx a hl => ?_, rfl⟩
    rw [List.find?_eq_none] at e
    exact e idx (h.mem_dirEntries hidx (by rw [hl]; simp)) ((h.numbered_iff hidx).mpr ⟨a, hl⟩)
  · left
    have hlt := lt_of_mem_dirEntries (List.mem_of_find?_eq_some e)
    have hmatch := List.find?_some e
    obtain ⟨a, hl⟩ := (h.numbered_iff hlt).mp hmatch
    exact ⟨idx, hlt, a, hl, rfl⟩

/-! ### `add_dentry` -/

/-- No data block is left. -/
def DataFull (d : Disk) : Prop := ∀ k < d.sb.numDataBlocks, bitmapTest k d.dbm = true

theorem growDir_cases (ho : Owned s.toDisk) (hp : Allocated s.toDisk p) (b : Fin 6) :
    ((s.inodes p).blocks b ≠ 0 ∧ growDir s p b = (true, s)) ∨
      ((s.inodes p).blocks b = 0 ∧ DataFull s.toDisk ∧
        growDir s p b = (false, { s with wfsError := -ENOSPC })) ∨
      ∃ k, Assignable s p (.direct b) k ∧ growDir s p b = (true, assign s p (.direct b) k) := by
  rw [growDir]
  by_cases h0 : (s.inodes p).blocks b = 0
  · right
    rw [if_pos h0]
    rcases allocateDataBlock_cases ho.sbOk with ⟨e, hfull⟩ | ⟨k, hk, hfree, e⟩
    · left
      simp only [e, if_true]
      exact ⟨h0, hfull, trivial⟩
    · right
      refine ⟨k, ⟨hp, h0, by simp, hk, hfree⟩, ?_⟩
      simp only [e, if_neg (ho.sbOk.blockAddr_ne_zero k), refill_takeBlock]
      rfl
  · left
    rw [if_neg h0]
    exact ⟨h0, rfl⟩

/-- The state in which `add_dentry` writes entry `idx` of directory `p`: as it
was, or with a new block for the entry. -/
inductive Roomy (s : Fs) (p idx : Nat) : Fs → Prop
  | old (h : (s.inodes p).blocks (idx / 16) ≠ 0) : Roomy s p idx s
  | new (b : Fin 6) (k : Nat) (hb : idx / 16 = b) (h : Assignable s p (.direct b) k) :
      Roomy s p idx (assign s p (.direct b) k)

theorem addDentryLoop_step {l : List Nat} (e : growDir s p (idx / 16) = (true, t)) :
    addDentryLoop s p num name now (idx :: l) =
      if entryFree t.toDisk p idx then (0, writeEntry t p idx num name now)
      else addDentryLoop t p num name now l := by
  rw [addDentryLoop]
  simp only [e]

theorem addDentryLoop_fail {l : List Nat} (e : growDir s p (idx / 16) = (false, t)) :
    addDentryLoop s p num name now (idx :: l) = (errorCode t, t) := by
  rw [addDentryLoop]
  simp only [e]
  rfl

/-- The loop of `add_dentry` goes past live entries. -/
theorem addDentryLoop_skip {pre : List Nat} (h : ∀ l ∈ pre, liveEntry s.toDisk p l ≠ none)
    (rest : List Nat) :
    addDentryLoop s p num name now (pre ++ rest) = addDentryLoop s p num name now rest := by
  induction pre with
  | nil => rfl
  | cons idx pre ih =>
      have hlive := h idx List.mem_cons_self
      rw [← Option.isSome_iff_ne_none, liveEntry_isSome_iff, Bool.and_eq_true] at hlive
      have hgrow : growDir s p (idx / 16) = (true, s) := if_neg (by simpa [hasEntry] using hlive.1)
      have hused : entryFree s.toDisk p idx = false := by simpa using hlive.2
      rw [List.cons_append, addDentryLoop_step hgrow, hused]
      exact ih fun l hl => h l (List.mem_cons_of_mem _ hl)

/-- The place that `add_dentry` takes. -/
structure LowestFree (d : Disk) (p idx : Nat) : Prop where
  lt : idx < 96
  free : liveEntry d p idx = none
  least : ∀ l < idx, liveEntry d p l ≠ none

theorem lowestFree_or_full (d : Disk) (p : Nat) :
    (∃ idx, LowestFree d p idx) ∨ ∀ idx < 96, liveEntry d p idx ≠ none := by
  by_cases h : ∃ idx, idx < 96 ∧ liveEntry d p idx = none
  · left
    refine ⟨Nat.find h, (Nat.find_spec h).1, (Nat.find_spec h).2, fun l hl hnone => ?_⟩
    exact Nat.find_min h hl ⟨hl.trans (Nat.find_spec h).1, hnone⟩
  · exact Or.inr fun idx hidx hnone => h ⟨idx, hidx, hnone⟩

theorem range_eq_append_cons (h : idx < 96) :
    ∃ rest, List.range 96 = List.range idx ++ idx :: rest := by
  obtain ⟨n, hn⟩ := Nat.exists_eq_add_of_lt h
  refine ⟨((List.range n).map Nat.succ).map (idx + ·), ?_⟩
  rw [hn, Nat.add_assoc, List.range_add, List.range_succ_eq_map, List.map_cons, Nat.add_zero]

/-- The loop of `add_dentry` fails when no place is free, or ends at the lowest free one.  A
new block has one, so that a block is never allocated in vain. -/
theorem addDentryLoop_cases (ho : Owned s.toDisk) (hp : Allocated s.toDisk p) (num : Int)
    (name : List UInt8) (now : Int) :
    ((∀ idx < 96, liveEntry s.toDisk p idx ≠ none) ∧
      addDentryLoop s p num name now (List.range 96) = (-ENOSPC, s)) ∨
    ∃ idx, LowestFree s.toDisk p idx ∧
      (((s.inodes p).blocks (idx / 16) = 0 ∧ DataFull s.toDisk ∧
        addDentryLoop s p num name now (List.range 96) =
          (-ENOSPC, { s with wfsError := -ENOSPC })) ∨
      ∃ g, Roomy s p idx g ∧
        addDentryLoop s p num name now (List.range 96) = (0, writeEntry g p idx num name now)) := by
  rcases lowestFree_or_full s.toDisk p with ⟨idx, hidx⟩ | hfull
  · right
    refine ⟨idx, hidx, ?_⟩
    obtain ⟨rest, hrest⟩ := range_eq_append_cons hidx.lt
    rw [hrest, addDentryLoop_skip fun l hl => hidx.least l (List.mem_range.1 hl)]
    have hb : idx / 16 < 6 := by
      have := hidx.lt
      omega
    -- the block of the entry is there, cannot be had, or is new and empty
    rcases growDir_cases ho hp ⟨idx / 16, hb⟩ with ⟨hne, e⟩ | ⟨h0, hfull, e⟩ | ⟨k, ha, e⟩
    · have hfree : entryFree s.toDisk p idx = true := by
        have hnone := hidx.free
        rw [← Option.not_isSome_iff_eq_none, liveEntry_isSome_iff] at hnone
        simpa [hasEntry, hne] using hnone
      rw [addDentryLoop_step e, if_pos hfree]
      exact Or.inr ⟨s, Roomy.old hne, rfl⟩
    · rw [addDentryLoop_fail e]
      exact Or.inl ⟨h0, hfull, rfl⟩
    · have hfree : entryFree (assign s p (.direct ⟨idx / 16, hb⟩) k).toDisk p idx = true := by
        simp [entryFree, entryNum_assign ho ha]
      rw [addDentryLoop_step e, if_pos hfree]
      exact Or.inr ⟨_, Roomy.new _ k rfl ha, rfl⟩
  · left
    refine ⟨hfull, ?_⟩
    rw [← List.append_nil (List.range 96),
      addDentryLoop_skip fun l hl => hfull l (List.mem_range.1 hl)]
    rfl

/-! ### Changing a directory -/

/-- Room for an entry adds no entry. -/
theorem Roomy.grown {g : Fs} (h : DirOk s.toDisk p) (hidx : idx < 96) (hg : Roomy s p idx g) :
    DirOk g.toDisk p ∧ Place g.toDisk p idx ∧
      ∀ l < 96, liveEntry g.toDisk p l = liveEntry s.toDisk p l := by
  cases hg with
  | old hb => exact ⟨h, ⟨h.dir, hidx, hb⟩, fun _ _ => rfl⟩
  | new b k hb ha =>
      have hc := Confined.assign h.owned ha
      have hmode := hc.field Inode.mode (fun _ _ => rfl) p
      have hsize := hc.field Inode.size (fun _ _ => rfl) p
      have hlive : ∀ l < 96, liveEntry (assign s p (.direct b) k).toDisk p l =
          liveEntry s.toDisk p l := fun l hl => liveEntry_assign h.owned ha hl
      have hdir : (space (assign s p (.direct b) k).toDisk).dir p :=
        ⟨hc.allocated.mpr h.dir.1, by rw [hmode]; exact h.dir.2⟩
      refine ⟨⟨hc.owned, hdir, ?_, fun l hl => entryOk_assign h.owned ha hl (h.raw l hl),
        fun l hl => ?_⟩, ⟨hdir, hidx, ?_⟩, hlive⟩
      · rw [hsize]
        exact h.size
      · rw [hlive l hl, hsize]
        exact h.below l hl
      · rw [hb]
        exact assign_block_ne_zero h.owned ha

/-- A change of one entry leaves the others alone. -/
theorem Pokes.sameBut (hk : Pokes d d' p idx) (ho : Owned d) (hpl : Place d p idx) :
    SameBut (liveEntry d p) (liveEntry d' p) 96 idx := fun _ hl hne =>
  (hk.sameEntry ho hpl hpl.dir hl fun e => hne e.2).liveEntry

theorem DirOk.pokes (h : DirOk d p) (hk : Pokes d d' p idx) (hpl : Place d p idx)
    (hraw : EntryOk d' p idx)
    (hsize : (d.inodes p).size ≤ (d'.inodes p).size ∧ (d'.inodes p).size ≤ 3072)
    (hbelow : liveEntry d' p idx ≠ none → 32 * ((idx : Int) + 1) ≤ (d'.inodes p).size) :
    DirOk d' p where
  owned := hk.owned h.owned hpl
  dir := hk.dir.mpr h.dir
  size := ⟨h.size.1.trans hsize.1, hsize.2⟩
  raw l hl := by
    rcases eq_or_ne l idx with rfl | hne
    · exact hraw
    · exact (hk.sameEntry h.owned hpl hpl.dir hl fun e => hne e.2).entryOk (h.raw l hl)
  below l hl hlive := by
    rcases eq_or_ne l idx with rfl | hne
    · exact hbelow hlive
    · rw [hk.sameBut h.owned hpl l hl hne] at hlive
      exact (h.below l hl hlive).trans hsize.1

/-- The number survives being stored in an `int`. -/
theorem bmod_num (hpos : 0 < num) (hmax : num ≤ 2147483647) : Int.bmod num (256 ^ 4) = num := by
  rw [Int.bmod_eq_of_le] <;> omega

theorem DirOk.writeEntry (h : DirOk s.toDisk p) (hpl : Place s.toDisk p idx)
    (hname : GoodName name) (hpos : 0 < num) (hmax : num ≤ 2147483647) :
    DirOk (writeEntry s p idx num name now).toDisk p := by
  have hlt := hpl.lt
  have hsize := h.size
  refine h.pokes pokes_writeEntry hpl ?_ ?_ fun _ => ?_
  · exact entryOk_writeEntry hpos.le (bmod_num hpos hmax) hname.ne_nil hname.lt hname.nul_free
  · rw [writeEntry_inode]
    simp only [wfsUpdateTimes]
    split_ifs <;> constructor <;> omega
  · rw [writeEntry_inode]
    simp only [wfsUpdateTimes]
    split_ifs <;> omega

theorem DirOk.clearEntry (h : DirOk s.toDisk p) (hpl : Place s.toDisk p idx) :
    DirOk (clearEntry s p idx now).toDisk p := by
  have hsize : ((Wfs.clearEntry s p idx now).inodes p).size = (s.inodes p).size := by
    rw [clearEntry_inode]
    rfl
  refine h.pokes pokes_clearEntry hpl (entryOk_of_num_eq_zero entryNum_clearEntry) ?_ fun hl => ?_
  · rw [hsize]
    exact ⟨le_refl _, h.size.2⟩
  · exact absurd liveEntry_clearEntry hl

/-! ### The map -/

/-- What a directory maps names to. -/
abbrev NumMap := List UInt8 → Option Int

variable {m : NumMap}

/-- `dentry_to_num` is the map. -/
theorem DirOk.dentryToNum_eq (h : DirOk s.toDisk p) (hm : Holds (liveEntry s.toDisk p) 96 m)
    (hnul : ∀ b ∈ name, b ≠ 0) : dentryToNum s name p = (m name).getD (-ENOENT) := by
  rcases h.dentryToNum_cases hnul with ⟨idx, hidx, num, hl, e⟩ | ⟨hnone, e⟩
  · rw [e, (hm.mem name num).mpr ⟨idx, hidx, hl⟩]
    rfl
  · have hn : m name = none := by
      rw [Option.eq_none_iff_forall_ne_some]
      intro num hnum
      obtain ⟨idx, hidx, hl⟩ := (hm.mem name num).mp hnum
      exact hnone idx hidx num hl
    rw [e, hn]
    rfl

/-- What a call of `add_dentry` comes to. -/
inductive AddOutcome (s : Fs) (p : Nat) (m : NumMap) (num : Int) (name : List UInt8) :
    Int × Fs → Prop
  | taken (h : m name ≠ none) : AddOutcome s p m num name (-EEXIST, s)
  | full (h : m name = none) (hf : ∀ idx < 96, liveEntry s.toDisk p idx ≠ none) :
      AddOutcome s p m num name (-ENOSPC, s)
  | noBlock (h : m name = none) (idx : Nat) (hl : LowestFree s.toDisk p idx)
      (hb : (s.inodes p).blocks (idx / 16) = 0) (hf : DataFull s.toDisk) :
      AddOutcome s p m num name (-ENOSPC, { s with wfsError := -ENOSPC })
  | added (h : m name = none) (idx : Nat) (hl : LowestFree s.toDisk p idx)
      (hb : (s.inodes p).blocks (idx / 16) ≠ 0 ∨ ¬ DataFull s.toDisk) (t : Fs)
      (ht : DirOk t.toDisk p)
      (hm : Holds (liveEntry t.toDisk p) 96 (Function.update m name (some num))) :
      AddOutcome s p m num name (0, t)

theorem Roomy.block_or_free {g : Fs} (hg : Roomy s p idx g) :
    (s.inodes p).blocks (idx / 16) ≠ 0 ∨ ¬ DataFull s.toDisk := by
  cases hg with
  | old hb => exact Or.inl hb
  | new b k hb ha =>
      refine Or.inr fun hfull => ?_
      have hset := hfull k ha.lt
      rw [ha.free] at hset
      cases hset

theorem DirOk.addDentry_outcome (h : DirOk s.toDisk p) (hm : Holds (liveEntry s.toDisk p) 96 m)
    (hname : GoodName name) (hpos : 0 < num) (hmax : num ≤ 2147483647) (now : Int) :
    AddOutcome s p m num name (addDentry s p num name now) := by
  have hlen := hname.lt
  have hlen' := List.length_pos_of_ne_nil hname.ne_nil
  rw [addDentry, if_neg (by rw [h.dir.2]; simp), h.dentryToNum_eq hm hname.nul_free]
  rcases e : m name with - | n
  · rw [Option.getD_none, if_neg (show ¬ (0 : Int) ≤ -ENOENT by decide)]
    dsimp only
    rw [if_neg (by omega)]
    rcases addDentryLoop_cases h.owned h.dir.1 num name now with
      ⟨hfull, e'⟩ | ⟨idx, hlow, ⟨hb, hfull, e'⟩ | ⟨g, hg, e'⟩⟩
    · rw [e']
      exact .full e hfull
    · rw [e']
      exact .noBlock e idx hlow hb hfull
    · rw [e']
      obtain ⟨hok, hpl, hlive⟩ := hg.grown h hlow.lt
      refine .added e idx hlow hg.block_or_free _ (hok.writeEntry hpl hname hpos hmax) ?_
      refine (hm.congr hlive).put hlow.lt ((hlive idx hlow.lt).trans hlow.free) e
        (pokes_writeEntry.sameBut hok.owned hpl) ?_
      exact liveEntry_writeEntry hpl.block hpos.ne' (bmod_num hpos hmax) hname.ne_nil hname.lt
        hname.nul_free
  · obtain ⟨idx, hidx, hl⟩ := (hm.mem name n).mp e
    have hn := (h.live hidx hl).1
    rw [Option.getD_some, if_pos hn.le]
    exact .taken (by rw [e]; simp)

/-- What a call of `remove_dentry` comes to. -/
theorem DirOk.removeDentry_outcome (h : DirOk s.toDisk p)
    (hm : Holds (liveEntry s.toDisk p) 96 m) (inum now : Int) :
    (∃ name, m name = some inum ∧ (removeDentry s p inum now).1 = 0 ∧
        DirOk (removeDentry s p inum now).2.toDisk p ∧
        Holds (liveEntry (removeDentry s p inum now).2.toDisk p) 96 (Function.update m name none)) ∨
      ((∀ name, m name ≠ some inum) ∧ removeDentry s p inum now = (-ENOENT, s)) := by
  rcases h.removeDentry_cases inum now with ⟨idx, hidx, name, hl, e⟩ | ⟨hnone, e⟩
  · have hpl : Place s.toDisk p idx := ⟨h.dir, hidx, (liveEntry_eq_some hl).1⟩
    rw [e]
    exact Or.inl ⟨name, (hm.mem name inum).mpr ⟨idx, hidx, hl⟩, rfl, h.clearEntry hpl,
      hm.clear hidx hl (pokes_clearEntry.sameBut h.owned hpl) liveEntry_clearEntry⟩
  · refine Or.inr ⟨fun name hname => ?_, e⟩
    obtain ⟨idx, hidx, hl⟩ := (hm.mem name inum).mp hname
    exact hnone idx hidx name hl

/-! ### `wfs_readdir` -/

/-- The name handed to the filler for an entry with the number `num`. -/
theorem undecorated (s : Fs) (num : Int) (name : List UInt8) {env : Env} (hls : env.isLs = false) :
    (match retrieveInode s num with
      | none => name
      | some child =>
          if env.isLs ∧ (s.inodes child).color ≠ .none then
            (colorAnsi (s.inodes child).color ++ name ++ [27, 91, 48, 109]).take 91
          else name) = name := by
  rcases retrieveInode s num with - | child
  · rfl
  · simp [hls]

-- as an equation between functions: at an entry, the kernel would compute its number
theorem listedName_def : listedName = fun s i idx env =>
    let name := (entryName s.toDisk i idx).takeWhile (· ≠ 0)
    match retrieveInode s (entryNum s.toDisk i idx) with
    | none => name
    | some child =>
        if env.isLs ∧ (s.inodes child).color ≠ .none then
          (colorAnsi (s.inodes child).color ++ name ++ [27, 91, 48, 109]).take 91
        else name := rfl

/-- A caller other than `ls` gets the names as they are. -/
theorem listedName_eq {env : Env} (hls : env.isLs = false) (s : Fs) (i idx : Nat) :
    listedName s i idx env = (entryName s.toDisk i idx).takeWhile (· ≠ 0) := by
  rw [listedName_def]
  exact undecorated s _ _ hls

/-- The loop of `wfs_readdir` lists the names of the live entries it visits. -/
theorem listed_eq {env : Env} (hls : env.isLs = false) (l : List Nat) :
    (l.filter fun idx => hasEntry s.toDisk p idx && !entryFree s.toDisk p idx).map
        (fun idx => listedName s p idx env) =
      l.filterMap fun idx => (liveEntry s.toDisk p idx).map Prod.fst := by
  induction l with
  | nil => rfl
  | cons idx l ih =>
      rw [List.filter_cons, List.filterMap_cons, liveEntry]
      split_ifs with hlive
      · rw [List.map_cons, ih, listedName_eq hls]
        rfl
      · exact ih

/-- Beyond the size nothing is live, so the loop lists every name. -/
theorem DirOk.listed_eq_keys (h : DirOk s.toDisk p) {env : Env} (hls : env.isLs = false) :
    ((dirEntries (s.inodes p).size).filter fun idx =>
        hasEntry s.toDisk p idx && !entryFree s.toDisk p idx).map
        (fun idx => listedName s p idx env) = keys (liveEntry s.toDisk p) 96 := by
  rw [listed_eq hls, keys, dirEntries]
  generalize hn : min (sizeT (s.inodes p).size / 32) 96 = n
  have hle : n ≤ 96 := by omega
  obtain ⟨k, hk⟩ := Nat.exists_eq_add_of_le hle
  rw [hk, List.range_add, List.filterMap_append]
  have hrest : ((List.range k).map (n + ·)).filterMap
      (fun idx => (liveEntry s.toDisk p idx).map Prod.fst) = [] := by
    rw [List.filterMap_eq_nil_iff]
    intro l hl
    obtain ⟨j, hj, rfl⟩ := List.mem_map.1 hl
    rw [List.mem_range] at hj
    rw [Option.map_eq_none_iff]
    by_contra hlive
    have hmem := h.mem_dirEntries (show n + j < 96 by omega) hlive
    rw [dirEntries, hn, List.mem_range] at hmem
    omega
  rw [hrest, List.append_nil]

theorem DirOk.wfsReaddir_eq (h : DirOk s.toDisk p) {env : Env} (hls : env.isLs = false)
    {path : List UInt8} (hpath : getInodeFromPath s (cleanPath path) = .ok p) :
    (wfsReaddir s path env).1 = 0 ∧
      (wfsReaddir s path env).2.1 = [46] :: [46, 46] :: keys (liveEntry s.toDisk p) 96 := by
  rw [wfsReaddir, hpath]
  dsimp only
  rw [if_neg (by rw [h.dir.2]; simp), ← h.listed_eq_keys hls]
  exact ⟨rfl, rfl⟩

end SystemsPortfolio.Wfs
