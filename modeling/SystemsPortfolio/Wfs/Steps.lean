/-
SystemsPortfolio/Wfs/Steps.lean

What one operation can do to an image.

`Effect` lists the four possibilities: nothing that the name space depends on
has changed; a free inode slot has been zeroed by an undo; a named inode has
been created; or one has been removed.  `exec_effect` is the step lemma behind
every invariant over runs.
-/
import SystemsPortfolio.Wfs.Effects
import SystemsPortfolio.Wfs.Growth

namespace SystemsPortfolio.Wfs

open ByteStore NameTree

variable {d d' d'' : Disk} {s t : Fs} {i j : Nat} {path : List UInt8} {env : Env}

/-! ### Calm operations -/

/-- A quiet change that keeps the link counts and the free inode slots. -/
structure Calm (d d' : Disk) : Prop where
  quiet : Quiet d d'
  links : ∀ j, (d'.inodes j).nlinks = (d.inodes j).nlinks
  free : ∀ j, ¬ Allocated d j → d'.inodes j = d.inodes j

theorem Quiet.refl (h : Base d) : Quiet d d :=
  ⟨h.owned, fun _ => Iff.rfl, fun _ _ => rfl, fun _ _ => rfl, fun _ _ => rfl, fun _ _ _ _ => rfl, h.raw⟩

theorem Quiet.trans (q : Quiet d d') (q' : Quiet d' d'') : Quiet d d'' where
  owned := q'.owned
  alloc j := (q'.alloc j).trans (q.alloc j)
  num j hj := (q'.num j ((q.alloc j).mpr hj)).trans (q.num j hj)
  mode j hj := (q'.mode j ((q.alloc j).mpr hj)).trans (q.mode j hj)
  size p hp := (q'.size p (q.dir.mpr hp)).trans (q.size p hp)
  live p idx hp hidx := (q'.live p idx (q.dir.mpr hp) hidx).trans (q.live p idx hp hidx)
  raw p idx hp hidx := q'.raw p idx (q.dir.mpr hp) hidx

theorem Calm.refl (h : Base d) : Calm d d := ⟨Quiet.refl h, fun _ => rfl, fun _ _ => rfl⟩

theorem Calm.base (c : Calm d d') (h : Base d) : Base d' := h.quiet c.quiet fun j _ _ => c.links j

theorem Calm.trans (c : Calm d d') (c' : Calm d' d'') : Calm d d'' where
  quiet := c.quiet.trans c'.quiet
  links j := (c'.links j).trans (c.links j)
  free j hj := (c'.free j fun hj' => hj ((c.quiet.alloc j).mp hj')).trans (c.free j hj)

/-- Rewriting an allocated inode without touching what the name space needs. -/
theorem Base.calm_setInode (h : Base s.toDisk) {ino : Inode} (hi : Allocated s.toDisk i)
    (hnum : ino.num = (s.inodes i).num) (hmode : ino.mode = (s.inodes i).mode)
    (hblocks : ino.blocks = (s.inodes i).blocks) (hlinks : ino.nlinks = (s.inodes i).nlinks)
    (hsize : isDir (s.inodes i).mode = true → ino.size = (s.inodes i).size) :
    Calm s.toDisk (s.setInode i ino).toDisk := by
  refine ⟨h.quiet_setInode hnum hmode hblocks hsize, fun j => ?_, fun j hj => ?_⟩
  · by_cases hji : j = i
    · subst hji
      rw [Fs.setInode_self, hlinks]
    · rw [Fs.setInode_ne hji]
  · exact Fs.setInode_ne (ne_of_free hj hi).symm

theorem Base.calm_times (h : Base s.toDisk) (hi : Allocated s.toDisk i) (now : Int) (a m c : Bool) :
    Calm s.toDisk (s.setInode i (wfsUpdateTimes (s.inodes i) now a m c)).toDisk :=
  h.calm_setInode hi rfl rfl rfl rfl fun _ => rfl

theorem Confined.calm (h : Base d) (hc : Confined d d' i) (hi : Allocated d i)
    (hfile : isDir (d.inodes i).mode = false) : Calm d d' :=
  ⟨hc.quiet h hfile, hc.field Inode.nlinks fun _ _ => rfl,
    fun _ hj => hc.others _ (ne_of_free hj hi).symm⟩

/-- Looking for a byte without allocation changes nothing on the disk. -/
theorem dataOffset_false_toDisk (x : Int) : (dataOffset s i x false).2.toDisk = s.toDisk := by
  by_cases hneg : x < 0
  · rw [dataOffset, if_pos hneg]
  · obtain ⟨n, rfl⟩ := Int.eq_ofNat_of_zero_le (not_lt.mp hneg)
    by_cases hn : n / 512 < 70
    · have e := dataOffset_false (s := s) (i := i) hn
      rw [e]
    · have e := dataOffset_of_ge (s := s) (i := i) (not_lt.mp hn) false
      rw [e]

theorem readLoop_toDisk {off : Int} {toRead fuel done : Nat} :
    (readLoop i off toRead fuel done s).2.toDisk = s.toDisk := by
  induction fuel generalizing s done with
  | zero => rfl
  | succ fuel ih =>
      rw [readLoop]
      split_ifs
      · exact ih.trans (dataOffset_false_toDisk _)
      · rfl

theorem wfsRead_calm (h : Base s.toDisk) {len : Nat} {off : Int} :
    Calm s.toDisk (wfsRead s path len off env).2.2.toDisk := by
  rw [wfsRead]
  rcases hp : getInodeFromPath s (cleanPath path) with e | i
  · exact Calm.refl h
  dsimp only
  by_cases hd : isDir (s.inodes i).mode = true
  · rw [if_pos hd]
    exact Calm.refl h
  rw [if_neg hd]
  by_cases hoff : off ≥ (s.inodes i).size
  · rw [if_pos hoff]
    exact Calm.refl h
  rw [if_neg hoff]
  generalize (if offT (off + len) > (s.inodes i).size then sizeT ((s.inodes i).size - off) else len)
    = toRead
  -- the loop allocates nothing; only the access time is left to change
  have hs₁ : (readLoop i off toRead toRead 0 s).2.toDisk = s.toDisk := readLoop_toDisk
  generalize readLoop i off toRead toRead 0 s = r at hs₁
  dsimp only
  have hi := getInodeFromPath_ok hp
  rw [← hs₁] at h hi ⊢
  by_cases hpos : 0 < r.1.length
  · rw [if_pos hpos]
    exact h.calm_times hi _ _ _ _
  · rw [if_neg hpos]
    exact Calm.refl h

theorem wfsWrite_calm (h : Base s.toDisk) {buf : List UInt8} {off : Int} :
    Calm s.toDisk (wfsWrite s path buf off env).2.toDisk := by
  rw [wfsWrite]
  rcases hp : getInodeFromPath s (cleanPath path) with e | i
  · exact Calm.refl h
  have hi := getInodeFromPath_ok hp
  dsimp only
  by_cases hd : isDir (s.inodes i).mode = true
  · rw [if_pos hd]
    exact Calm.refl h
  rw [if_neg hd]
  have hfile : isDir (s.inodes i).mode = false := by simpa using hd
  have hc : Confined s.toDisk (writeLoop i buf off buf.length 0 s).2.toDisk i :=
    writeLoop_confined h.owned hi
  rcases e : writeLoop i buf off buf.length 0 s with ⟨- | done, s₁⟩
  · rw [e] at hc
    exact hc.calm h hi hfile
  · rw [e] at hc
    have hcalm := hc.calm h hi hfile
    -- size and times of the file itself: no field the name space reads
    refine hcalm.trans ((hcalm.base h).calm_setInode (hc.allocated.mpr hi) ?_ ?_ ?_ ?_ fun hdir => ?_)
    · split_ifs <;> rfl
    · split_ifs <;> rfl
    · split_ifs <;> rfl
    · split_ifs <;> rfl
    · rw [hcalm.quiet.mode i hi, hfile] at hdir
      cases hdir

theorem wfsReaddir_calm (h : Base s.toDisk) : Calm s.toDisk (wfsReaddir s path env).2.2.toDisk := by
  rw [wfsReaddir]
  rcases hp : getInodeFromPath s (cleanPath path) with e | i
  · exact Calm.refl h
  dsimp only
  split_ifs
  · exact Calm.refl h
  · exact h.calm_times (getInodeFromPath_ok hp) _ _ _ _

theorem Base.calm_setColor (h : Base s.toDisk) (hi : Allocated s.toDisk i) (color : Color)
    (now : Int) : Calm s.toDisk (setColor s i color now).toDisk :=
  h.calm_setInode hi rfl rfl rfl rfl fun _ => rfl

/-- `wfs_setxattr` fails and changes nothing, or sets a colour. -/
theorem wfsSetxattr_cases (h : Base s.toDisk) {name : List UInt8} {value : Option (List UInt8)} :
    ((wfsSetxattr s path name value env).1 < 0 ∧
        (wfsSetxattr s path name value env).2.toDisk = s.toDisk) ∨
      ((wfsSetxattr s path name value env).1 = 0 ∧
        Calm s.toDisk (wfsSetxattr s path name value env).2.toDisk) := by
  rw [wfsSetxattr]
  by_cases hname : name ≠ userColor
  · rw [if_pos hname]
    exact Or.inl ⟨show -ENOTSUP < 0 by decide, rfl⟩
  rw [if_neg hname]
  rcases hp : getInodeFromPath s (cleanPath path) with e | i
  · exact Or.inl ⟨getInodeFromPath_error hp, rfl⟩
  dsimp only
  by_cases hval : validInum s (s.inodes i).num = false
  · rw [if_pos hval]
    exact Or.inl ⟨show -EINVAL < 0 by decide, rfl⟩
  rw [if_neg hval]
  rcases value with - | bytes
  · exact Or.inl ⟨show -EINVAL < 0 by decide, rfl⟩
  dsimp only
  by_cases hempty : bytes.length = 0
  · rw [if_pos hempty]
    exact Or.inl ⟨show -EINVAL < 0 by decide, rfl⟩
  rw [if_neg hempty]
  by_cases hlong : 32 ≤ bytes.length
  · rw [if_pos hlong]
    exact Or.inl ⟨show -ERANGE < 0 by decide, rfl⟩
  rw [if_neg hlong]
  -- the value is read up to its first NUL byte
  rcases parseColorName (bytes.takeWhile (· ≠ 0)) with - | color
  · exact Or.inl ⟨show -EINVAL < 0 by decide, rfl⟩
  · exact Or.inr ⟨rfl, h.calm_setColor (getInodeFromPath_ok hp) _ _⟩

/-- `wfs_removexattr` fails and changes nothing, or resets a colour. -/
theorem wfsRemovexattr_cases (h : Base s.toDisk) {name : List UInt8} :
    ((wfsRemovexattr s path name env).1 < 0 ∧
        (wfsRemovexattr s path name env).2.toDisk = s.toDisk) ∨
      ((wfsRemovexattr s path name env).1 = 0 ∧
        Calm s.toDisk (wfsRemovexattr s path name env).2.toDisk) := by
  rw [wfsRemovexattr]
  by_cases hname : name ≠ userColor
  · rw [if_pos hname]
    exact Or.inl ⟨show -ENOTSUP < 0 by decide, rfl⟩
  rw [if_neg hname]
  rcases hp : getInodeFromPath s (cleanPath path) with e | i
  · exact Or.inl ⟨getInodeFromPath_error hp, rfl⟩
  dsimp only
  by_cases hval : validInum s (s.inodes i).num = false
  · rw [if_pos hval]
    exact Or.inl ⟨show -EINVAL < 0 by decide, rfl⟩
  · rw [if_neg hval]
    exact Or.inr ⟨rfl, h.calm_setColor (getInodeFromPath_ok hp) _ _⟩

/-! ### One operation -/

/-- The leaf name that `wfs_mknod` or `wfs_mkdir` gets after `clean_path` and
`split_path`. -/
def Op.newName : Op → Option (List UInt8)
  | .mknod path _ | .mkdir path _ =>
      match splitPath (cleanPath path.bytes) with
      | .error _ => none
      | .ok (_, name) => some name
  | _ => none

/-- What one operation can have done to an image. -/
inductive Effect (op : Op) (d d' : Disk) : Prop
  | calm (h : Calm d d')
  | undone (h : Undone d d')
  | created (p idx : Nat) (name : List UInt8) (i : Nat) (dir : Bool) (hop : op.newName = some name)
      (h : Created d d' p idx name i dir)
  | removed (p idx : Nat) (name : List UInt8) (i : Nat)
      (hleaf : ∀ l a c, (space d).entry i l a c → a = [46] ∨ a = [46, 46])
      (h : Removed d d' p idx name i)

theorem Effect.of_eq {op : Op} (h : Base d) (e : d' = d) : Effect op d d' := by
  subst e
  exact Effect.calm (Calm.refl h)

/-- The step lemma: every operation, successful or not, has one of the effects. -/
theorem exec_effect (h : Base s.toDisk) (op : Op) :
    Effect op s.toDisk (exec env op s).2.toDisk := by
  cases op with
  | getattr path =>
      rw [exec]
      rcases wfsGetattr s path.bytes with e | st
      · exact Effect.of_eq h rfl
      · exact Effect.of_eq h rfl
  | mknod path mode =>
      rcases wfsMknod_cases h path.nul_free with ⟨-, e | hu⟩ | ⟨-, dir, name, p, idx, i, hs, -, hc⟩
      · exact Effect.of_eq h e
      · exact Effect.undone hu
      · exact Effect.created p idx name i false (by simp only [Op.newName, hs]) hc
  | mkdir path mode =>
      rcases wfsMkdir_cases h path.nul_free with ⟨-, e | hu⟩ | ⟨-, dir, name, p, idx, i, hs, -, hc⟩
      · exact Effect.of_eq h e
      · exact Effect.undone hu
      · exact Effect.created p idx name i true (by simp only [Op.newName, hs]) hc
  | read path len off => exact Effect.calm (wfsRead_calm h)
  | write path buf off => exact Effect.calm (wfsWrite_calm h)
  | readdir path => exact Effect.calm (wfsReaddir_calm h)
  | unlink path =>
      rcases wfsUnlink_cases h path.nul_free with ⟨-, e⟩ | ⟨-, -, name, p, idx, i, -, -, hfile, hr⟩
      · exact Effect.of_eq h e
      · refine Effect.removed p idx name i (fun l a c he => ?_) hr
        -- a regular file has no entries at all
        have hdir := (h.sound.entry_dir he).2
        rw [hfile] at hdir
        cases hdir
  | rmdir path =>
      rcases wfsRmdir_cases h path.nul_free with ⟨-, e⟩ | ⟨-, name, p, idx, i, -, -, hleaf, hr⟩
      · exact Effect.of_eq h e
      · exact Effect.removed p idx name i hleaf hr
  | statfs => exact Effect.of_eq h rfl
  | setxattr path name value =>
      rcases wfsSetxattr_cases h with ⟨-, e⟩ | ⟨-, hc⟩
      · exact Effect.of_eq h e
      · exact Effect.calm hc
  | getxattr path name size => exact Effect.of_eq h rfl
  | removexattr path name =>
      rcases wfsRemovexattr_cases h with ⟨-, e⟩ | ⟨-, hc⟩
      · exact Effect.of_eq h e
      · exact Effect.calm hc

end SystemsPortfolio.Wfs
