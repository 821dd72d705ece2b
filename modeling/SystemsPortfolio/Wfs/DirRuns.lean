/-
SystemsPortfolio/Wfs/DirRuns.lean

A directory over its whole life.

From the empty directory on, `add_dentry` and `remove_dentry` are called on it in any order,
while other files take and give back blocks.  Beside the image goes the map that the callers
can compute from the return values alone; in every state that is reached the lookups, the
insertion, the removal and the listing behave as that map says (`directory_is_map`).
-/
import SystemsPortfolio.Lib.Transition
import SystemsPortfolio.Wfs.DirMap
import SystemsPortfolio.Wfs.Growth
import SystemsPortfolio.Wfs.Runs

namespace SystemsPortfolio.Wfs

open ByteStore NameTree SlotTable

variable {d d' : Disk} {s : Fs} {m : NumMap} {i p idx : Nat} {name : List UInt8} {num now : Int}

/-! ### Empty directories -/

/-- A directory without live entries. -/
structure EmptyDir (d : Disk) (p : Nat) : Prop where
  ok : DirOk d p
  empty : ∀ idx < 96, liveEntry d p idx = none

/-- The root of an image that `mkfs` made. -/
theorem MkfsImage.emptyDir (h : MkfsImage d) : EmptyDir d 0 where
  ok := h.base.dirOk h.base.root
  empty idx _ := h.liveEntry h.base.root.1 idx

/-- The directory that `wfs_mkdir` made. -/
theorem wfsMkdir_emptyDir (h : Base s.toDisk) {path : List UInt8} (hpath : ∀ c ∈ path, c ≠ 0)
    {mode : BitVec 32} {env : Env} (hrc : (wfsMkdir s path mode env).1 = 0) :
    ∃ i, ¬ Allocated s.toDisk i ∧ EmptyDir (wfsMkdir s path mode env).2.toDisk i := by
  rcases @wfsMkdir_cases s path mode env h hpath with
    ⟨hneg, -⟩ | ⟨-, dir, name, p, idx, i, -, -, hc⟩
  · omega
  · have hdir : (space (wfsMkdir s path mode env).2.toDisk).dir i := by
      rw [hc.space]
      exact Or.inl ⟨rfl, rfl⟩
    refine ⟨i, hc.fresh, hc.base.dirOk hdir, fun l hl => ?_⟩
    rw [Option.eq_none_iff_forall_ne_some]
    rintro ⟨a, num⟩ hlive
    -- the one entry that was added is in the parent, and nothing named the new inode's slots
    obtain ⟨c, -, he⟩ := hc.base.entry_of_live hdir hl hlive
    rw [hc.space] at he
    rcases he with ⟨rfl, -, -, -⟩ | he
    · exact hc.fresh hc.parent.1
    · exact hc.fresh he.1.1

/-! ### Steps -/

/-- A change that leaves directory `p` alone but for its times and links. -/
structure Elsewhere (d d' : Disk) (p : Nat) : Prop where
  owned : Owned d'
  alloc : Allocated d' p
  mode : (d'.inodes p).mode = (d.inodes p).mode
  size : (d'.inodes p).size = (d.inodes p).size
  same : SameBlocks d d' p

/-- What another file does with its blocks. -/
theorem Confined.elsewhere (hc : Confined d d' i) (hip : p ≠ i) (hp : Allocated d p) :
    Elsewhere d d' p :=
  ⟨hc.owned, hc.allocated.mpr hp, by rw [hc.others p hip], by rw [hc.others p hip],
    hc.same p hip hp⟩

theorem DirOk.elsewhere (h : DirOk d p) (he : Elsewhere d d' p) : DirOk d' p where
  owned := he.owned
  dir := ⟨he.alloc, by rw [he.mode]; exact h.dir.2⟩
  size := by
    rw [he.size]
    exact h.size
  raw idx hidx := (he.same.sameEntry hidx).entryOk (h.raw idx hidx)
  below idx hidx := by
    rw [liveEntry_frame he.same hidx, he.size]
    exact h.below idx hidx

/-- The map without the name of `num`. -/
def without (m : NumMap) (num : Int) : NumMap := fun a => if m a = some num then none else m a

/-- No two names have one number. -/
def Distinct (m : NumMap) : Prop := ∀ a b num, m a = some num → m b = some num → a = b

theorem without_eq_update (hd : Distinct m) (hm : m name = some num) :
    without m num = Function.update m name none := by
  funext a
  rw [without]
  rcases eq_or_ne a name with rfl | ha
  · rw [if_pos hm, Function.update_self]
  · rw [Function.update_of_ne ha, if_neg fun e => ha (hd a name num e hm)]

/-- A call on directory `p`, or something elsewhere; with it goes what the caller makes of the
return value. -/
inductive DirStep (p : Nat) : Fs × NumMap → Fs × NumMap → Prop
  | add (s : Fs) (m : NumMap) (num : Int) (name : List UInt8) (now : Int) (hpos : 0 < num)
      (hmax : num ≤ 2147483647) (hname : GoodName name) :
      DirStep p (s, m) ((addDentry s p num name now).2,
        if (addDentry s p num name now).1 = 0 then Function.update m name (some num) else m)
  | remove (s : Fs) (m : NumMap) (inum now : Int) :
      DirStep p (s, m) ((removeDentry s p inum now).2,
        if (removeDentry s p inum now).1 = 0 then without m inum else m)
  | elsewhere (s s' : Fs) (m : NumMap) (h : Elsewhere s.toDisk s'.toDisk p) :
      DirStep p (s, m) (s', m)

/-- Blocks that another file takes. -/
theorem DirStep.alloc (h : DirOk s.toDisk p) (hi : Allocated s.toDisk i) (hip : p ≠ i) (off : Int)
    (m : NumMap) : DirStep p (s, m) ((dataOffset s i off true).2, m) :=
  .elsewhere _ _ _ ((dataOffset_confined h.owned hi off).1.elsewhere hip h.dir.1)

/-- Blocks that another file gives back. -/
theorem DirStep.free (h : DirOk s.toDisk p) (hi : Allocated s.toDisk i) (hip : p ≠ i)
    (m : NumMap) : DirStep p (s, m) (freeBlocksOf s i, m) :=
  .elsewhere _ _ _ ((freeBlocksOf_spec h.owned hi).1.elsewhere hip h.dir.1)

/-- Directory `p` from the time it is empty, as long as no number is given to two names. -/
def dirSystem (p : Nat) : Transition.System (Fs × NumMap) where
  init x := EmptyDir x.1.toDisk p ∧ x.2 = fun _ => none
  step x y := DirStep p x y ∧ Distinct y.2

/-! ### What holds along a run -/

/-- The directory is the map. -/
structure Refines (x : Fs × NumMap) (p : Nat) : Prop where
  ok : DirOk x.1.toDisk p
  holds : Holds (liveEntry x.1.toDisk p) 96 x.2
  distinct : Distinct x.2

theorem AddOutcome.next {r : Int × Fs} (h : DirOk s.toDisk p)
    (hm : Holds (liveEntry s.toDisk p) 96 m) (ho : AddOutcome s p m num name r) :
    DirOk r.2.toDisk p ∧ Holds (liveEntry r.2.toDisk p) 96
      (if r.1 = 0 then Function.update m name (some num) else m) := by
  cases ho with
  | taken _ => exact ⟨h, by rwa [if_neg (show ¬ -EEXIST = 0 by decide)]⟩
  | full _ _ => exact ⟨h, by rwa [if_neg (show ¬ -ENOSPC = 0 by decide)]⟩
  | noBlock _ _ _ _ _ => exact ⟨h, by rwa [if_neg (show ¬ -ENOSPC = 0 by decide)]⟩
  | added _ _ _ _ t ht hm' => exact ⟨ht, by rwa [if_pos rfl]⟩

theorem Refines.remove (h : Refines (s, m) p) (inum now : Int) :
    DirOk (removeDentry s p inum now).2.toDisk p ∧
      Holds (liveEntry (removeDentry s p inum now).2.toDisk p) 96
        (if (removeDentry s p inum now).1 = 0 then without m inum else m) := by
  rcases h.ok.removeDentry_outcome h.holds inum now with ⟨name, hname, hrc, hok, hm⟩ | ⟨-, e⟩
  · rw [if_pos hrc, without_eq_update h.distinct hname]
    exact ⟨hok, hm⟩
  · rw [e, if_neg (show ¬ -ENOENT = 0 by decide)]
    exact ⟨h.ok, h.holds⟩

theorem EmptyDir.refines (h : EmptyDir s.toDisk p) : Refines (s, fun _ => none) p :=
  ⟨h.ok, holds_empty h.empty, fun _ _ _ e => by cases e⟩

theorem Refines.step {x y : Fs × NumMap} (h : Refines x p) (hs : DirStep p x y)
    (hd : Distinct y.2) : Refines y p := by
  cases hs with
  | add s m num name now hpos hmax hname =>
      obtain ⟨hok, hm⟩ := (h.ok.addDentry_outcome h.holds hname hpos hmax now).next h.ok h.holds
      exact ⟨hok, hm, hd⟩
  | remove s m inum now =>
      obtain ⟨hok, hm⟩ := h.remove inum now
      exact ⟨hok, hm, hd⟩
  | elsewhere s s' m he =>
      exact ⟨h.ok.elsewhere he, h.holds.congr fun l hl => liveEntry_frame he.same hl, hd⟩

theorem refines_of_reachable {x : Fs × NumMap} (h : (dirSystem p).Reachable x) : Refines x p := by
  refine h.invariant (P := fun x => Refines x p) ?_ ?_
  · rintro ⟨s, m⟩ ⟨hempty, rfl⟩
    exact hempty.refines
  · rintro x y - hx ⟨hs, hd⟩
    exact hx.step hs hd

/-! ### The theorem -/

/-- A return value of `add_dentry` and the directory after it, as the map has it. -/
structure AddSpec (s : Fs) (p : Nat) (m : NumMap) (num : Int) (name : List UInt8)
    (r : Int × Fs) : Prop where
  codes : r.1 = 0 ∨ r.1 = -EEXIST ∨ r.1 = -ENOSPC
  taken : r.1 = -EEXIST ↔ m name ≠ none
  full : m name = none → (r.1 = -ENOSPC ↔ {a | m a ≠ none}.ncard = 96 ∨
    ∃ idx, LowestFree s.toDisk p idx ∧ (s.inodes p).blocks (idx / 16) = 0 ∧ DataFull s.toDisk)
  after : ∀ a, (∀ b ∈ a, b ≠ 0) → dentryToNum r.2 a p =
    ((if r.1 = 0 then Function.update m name (some num) else m) a).getD (-ENOENT)

/-- A return value of `remove_dentry` and the directory after it, as the map has it. -/
structure RemoveSpec (p : Nat) (m : NumMap) (inum : Int) (r : Int × Fs) : Prop where
  codes : r.1 = 0 ∨ r.1 = -ENOENT
  found : r.1 = 0 ↔ ∃ a, m a = some inum
  after : ∀ a, (∀ b ∈ a, b ≠ 0) → dentryToNum r.2 a p =
    (if m a = some inum then none else m a).getD (-ENOENT)

theorem LowestFree.unique {l : Nat} (h : LowestFree d p idx) (h' : LowestFree d p l) : idx = l := by
  rcases Nat.lt_trichotomy idx l with hlt | rfl | hlt
  · exact absurd h.free (h'.least idx hlt)
  · rfl
  · exact absurd h'.free (h.least l hlt)

theorem AddOutcome.taken_iff {r : Int × Fs} (ho : AddOutcome s p m num name r) :
    r.1 = -EEXIST ↔ m name ≠ none := by
  cases ho with
  | taken h => exact iff_of_true rfl h
  | full h _ => exact iff_of_false (show ¬ -ENOSPC = -EEXIST by decide) (not_not.mpr h)
  | noBlock h _ _ _ _ => exact iff_of_false (show ¬ -ENOSPC = -EEXIST by decide) (not_not.mpr h)
  | added h _ _ _ _ _ _ => exact iff_of_false (show ¬ 0 = -EEXIST by decide) (not_not.mpr h)

theorem AddOutcome.full_iff {r : Int × Fs} (hm : Holds (liveEntry s.toDisk p) 96 m)
    (ho : AddOutcome s p m num name r) (hnew : m name = none) :
    r.1 = -ENOSPC ↔ {a | m a ≠ none}.ncard = 96 ∨ ∃ idx, LowestFree s.toDisk p idx ∧
      (s.inodes p).blocks (idx / 16) = 0 ∧ DataFull s.toDisk := by
  rw [hm.full_iff]
  cases ho with
  | taken h => exact absurd hnew h
  | full _ hf => exact iff_of_true rfl (Or.inl hf)
  | noBlock _ idx hl hb hf => exact iff_of_true rfl (Or.inr ⟨idx, hl, hb, hf⟩)
  | added _ idx hl hb _ _ _ =>
      refine iff_of_false (show ¬ 0 = -ENOSPC by decide) ?_
      rintro (hall | ⟨l, hl', hb', hf⟩)
      · exact hall idx hl.lt hl.free
      · obtain rfl := hl.unique hl'
        rcases hb with hb | hb
        · exact hb hb'
        · exact hb hf

theorem AddOutcome.spec {r : Int × Fs} (h : DirOk s.toDisk p)
    (hm : Holds (liveEntry s.toDisk p) 96 m) (ho : AddOutcome s p m num name r) :
    AddSpec s p m num name r := by
  obtain ⟨hok, hm'⟩ := ho.next h hm
  refine ⟨?_, ho.taken_iff, ho.full_iff hm, fun a ha => hok.dentryToNum_eq hm' ha⟩
  cases ho with
  | taken _ => exact Or.inr (Or.inl rfl)
  | full _ _ => exact Or.inr (Or.inr rfl)
  | noBlock _ _ _ _ _ => exact Or.inr (Or.inr rfl)
  | added _ _ _ _ _ _ _ => exact Or.inl rfl

theorem Refines.removeSpec (h : Refines (s, m) p) (inum now : Int) :
    RemoveSpec p m inum (removeDentry s p inum now) := by
  obtain ⟨hok, hm⟩ := h.remove inum now
  rcases h.ok.removeDentry_outcome h.holds inum now with ⟨name, hname, hrc, -, -⟩ | ⟨hnone, e⟩
  · rw [if_pos hrc] at hm
    exact ⟨Or.inl hrc, iff_of_true hrc ⟨name, hname⟩, fun a ha => hok.dentryToNum_eq hm ha⟩
  · rw [e]
    refine ⟨Or.inr rfl, iff_of_false (show ¬ -ENOENT = 0 by decide) ?_, fun a ha => ?_⟩
    · rintro ⟨a, ha⟩
      exact hnone a ha
    · rw [if_neg (hnone a)]
      exact h.ok.dentryToNum_eq h.holds ha

/-- A directory is a finite map of capacity 96.  From the empty directory on, whatever was
added, removed or done elsewhere before, `dentry_to_num` is the map that the return values
amount to (a name of 28 bytes or more is not in it); `add_dentry` refuses a name exactly when
it is mapped, and a new one exactly when 96 names are mapped or the lowest free place lies in
a block that is missing and cannot be had; a call that succeeds changes the map at its name
only; and a caller of `wfs_readdir` other than `ls` gets "." and ".." and then each mapped name
once. -/
theorem directory_is_map (hrun : (dirSystem p).Reachable (s, m)) :
    (∀ name, (∀ b ∈ name, b ≠ 0) → dentryToNum s name p = (m name).getD (-ENOENT)) ∧
    (∀ name num, m name = some num → 0 < num ∧ name.length < 28) ∧
    ({a | m a ≠ none}.Finite ∧ {a | m a ≠ none}.ncard ≤ 96) ∧
    (∀ num name now, 0 < num → num ≤ 2147483647 → GoodName name →
      AddSpec s p m num name (addDentry s p num name now)) ∧
    (∀ inum now, RemoveSpec p m inum (removeDentry s p inum now)) ∧
    ∀ path env, env.isLs = false → getInodeFromPath s (cleanPath path) = .ok p →
      (wfsReaddir s path env).1 = 0 ∧ ∃ names,
        (wfsReaddir s path env).2.1 = [46] :: [46, 46] :: names ∧ names.Nodup ∧
        ∀ a, a ∈ names ↔ m a ≠ none := by
  have h := refines_of_reachable hrun
  have hok : DirOk s.toDisk p := h.ok
  have hm : Holds (liveEntry s.toDisk p) 96 m := h.holds
  refine ⟨fun name hname => hok.dentryToNum_eq hm hname, fun name num e => ?_,
    ⟨hm.finite, hm.ncard_le⟩, fun num name now hpos hmax hname => ?_, h.removeSpec,
    fun path env hls hpath => ?_⟩
  · obtain ⟨idx, hidx, hl⟩ := (hm.mem name num).mp e
    exact hok.live hidx hl
  · exact (hok.addDentry_outcome hm hname hpos hmax now).spec hok hm
  · obtain ⟨hrc, hnames⟩ := hok.wfsReaddir_eq hls hpath
    exact ⟨hrc, _, hnames, hm.nodup_keys, fun a => hm.mem_keys⟩

/-- The first name put into the root of a new image is found there. -/
theorem directory_is_map_root : (addDentry (mount smallDisk) 0 5 [102] 0).1 = 0 ∧
    dentryToNum (addDentry (mount smallDisk) 0 5 [102] 0).2 [102] 0 = 5 := by
  have hstart : (dirSystem 0).Reachable (mount smallDisk, fun _ => none) :=
    .start ⟨smallDisk_mkfs.mkfsImage.emptyDir, rfl⟩
  obtain ⟨-, -, -, hadd, -, -⟩ := directory_is_map hstart
  have hf : GoodName [102] := ⟨by simp, by simp, by simp⟩
  have h := hadd 5 [102] 0 (by decide) (by decide) hf
  have hnot : ¬ DataFull smallDisk := fun hfull => absurd (hfull 0 (by decide)) (by decide)
  have hrc : (addDentry (mount smallDisk) 0 5 [102] 0).1 = 0 := by
    rcases h.codes with hrc | hrc | hrc
    · exact hrc
    · exact absurd rfl (h.taken.mp hrc)
    · rcases (h.full rfl).mp hrc with hcard | ⟨-, -, -, hfull⟩
      · simp at hcard
      · exact absurd hfull hnot
  refine ⟨hrc, ?_⟩
  rw [h.after [102] (by simp), if_pos hrc, Function.update_self]
  rfl

end SystemsPortfolio.Wfs
