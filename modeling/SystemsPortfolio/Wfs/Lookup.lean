/-
SystemsPortfolio/Wfs/Lookup.lean

What the searches of WFS find, on an image that satisfies `Base`.

The loops of `dentry_to_num` and `remove_dentry` stop at the first match.  By
`Base` there is at most one: `dentry_to_num` finds the entry of the given name
(`dentryToNum_cases`), and `remove_dentry`, which looks for an inode number,
finds the one entry that leads to it (`removeDentry_eq`).
-/
import SystemsPortfolio.Wfs.DirMap

namespace SystemsPortfolio.Wfs

open ByteStore NameTree

variable {d : Disk} {s : Fs} {p idx c i : Nat} {name : List UInt8}

/-! ### Searching a directory -/

theorem Base.mem_dirEntries (h : Base d) {a : List UInt8} (he : (space d).entry p idx a c) :
    idx ∈ dirEntries (d.inodes p).size :=
  (h.dirOk he.1).mem_dirEntries he.2.1 (by rw [he.2.2]; simp)

/-- `dentry_to_num` finds the entry of the name, or there is none. -/
theorem dentryToNum_cases (h : Base s.toDisk) (hp : (space s.toDisk).dir p)
    (hnul : ∀ b ∈ name, b ≠ 0) :
    (∃ idx c, (space s.toDisk).entry p idx name c ∧ dentryToNum s name p = c) ∨
      ((∀ idx c, ¬ (space s.toDisk).entry p idx name c) ∧ dentryToNum s name p = -ENOENT) := by
  rcases (h.dirOk hp).dentryToNum_cases hnul with ⟨idx, hidx, num, hl, e⟩ | ⟨hnone, e⟩
  · obtain ⟨c, rfl, he⟩ := h.entry_of_live hp hidx hl
    exact Or.inl ⟨idx, c, he, e⟩
  · exact Or.inr ⟨fun idx c he => hnone idx he.2.1 c he.2.2, e⟩

/-- `remove_dentry` clears the one entry that leads to the inode. -/
theorem removeDentry_eq (h : Base s.toDisk) (he : (space s.toDisk).entry p idx name c) (now : Int) :
    removeDentry s p c now = (0, clearEntry s p idx now) := by
  rcases (h.dirOk he.1).removeDentry_cases c now with ⟨l, hl, a, hlive, e⟩ | ⟨hnone, -⟩
  · obtain rfl := (h.sound.single ⟨he.1, hl, hlive⟩ he).2
    exact e
  · exact absurd he.2.2 (hnone idx he.2.1 name)

/-! ### Following a path -/

theorem retrieveInode_eq_some {inum : Int} (h : retrieveInode s inum = some i) :
    inum = i ∧ Allocated s.toDisk i := by
  rw [retrieveInode] at h
  split_ifs at h with h₁ h₂
  obtain rfl := Option.some.inj h
  exact ⟨by omega, by omega, h₂⟩

theorem retrieveInode_of_allocated (h : Allocated s.toDisk i) : retrieveInode s i = some i := by
  have hlt := h.1
  rw [retrieveInode, if_neg (by omega), Int.toNat_natCast, if_pos h.2]

theorem walk_ok {comps : List (List UInt8)} {cur : Nat} (hcur : Allocated s.toDisk cur)
    (h : walk s cur comps = .ok i) : Allocated s.toDisk i := by
  induction comps generalizing cur with
  | nil =>
      cases h
      exact hcur
  | cons comp rest ih =>
      rw [walk] at h
      split_ifs at h
      split at h
      · cases h
      · next next hnext => exact ih (retrieveInode_eq_some hnext).2 h

theorem walk_error {comps : List (List UInt8)} {cur : Nat} {e : Int}
    (h : walk s cur comps = .error e) : e < 0 := by
  induction comps generalizing cur with
  | nil => cases h
  | cons comp rest ih =>
      rw [walk] at h
      split_ifs at h with hneg
      · cases h
        exact hneg
      · split at h
        · cases h
          decide
        · exact ih h

/-- `get_inode_from_path` follows the components of its path from the root; the slash that
it skips makes none. -/
theorem getInodeFromPath_eq_walk (s : Fs) (path : List UInt8) :
    getInodeFromPath s path =
      match retrieveInode s 0 with
      | none => .error (-ENOENT)
      | some root => walk s root (strtok path) := by
  have htail : strtok (if path.head? = some slash then path.tail else path) = strtok path := by
    split_ifs with hhead
    · rw [← List.cons_head?_tail hhead]
      exact (strtok_append [] path.tail).symm
    · rfl
  rw [getInodeFromPath, htail]
  rcases retrieveInode s 0 with - | root
  · rfl
  · by_cases hslash : path = [slash]
    · subst hslash
      rfl
    · exact if_neg hslash

section congr

variable {t : Fs}

/-- Where a path leads depends on the bitmap of inodes and on what lookups find. -/
theorem walk_congr (hret : ∀ inum, retrieveInode t inum = retrieveInode s inum)
    (hdent : ∀ p name, Allocated s.toDisk p → dentryToNum t name p = dentryToNum s name p)
    {cur : Nat} (hcur : Allocated s.toDisk cur) (comps : List (List UInt8)) :
    walk t cur comps = walk s cur comps := by
  induction comps generalizing cur with
  | nil => rfl
  | cons comp rest ih =>
      rw [walk, walk, hdent cur comp hcur, hret]
      split_ifs
      · rfl
      · rcases e : retrieveInode s (dentryToNum s comp cur) with - | next
        · rfl
        · exact ih (retrieveInode_eq_some e).2

theorem getInodeFromPath_congr (hsb : t.sb = s.sb) (hibm : t.ibm = s.ibm)
    (hdent : ∀ p name, Allocated s.toDisk p → dentryToNum t name p = dentryToNum s name p)
    (path : List UInt8) : getInodeFromPath t path = getInodeFromPath s path := by
  have hret : ∀ inum, retrieveInode t inum = retrieveInode s inum := by
    intro inum
    rw [retrieveInode, retrieveInode, hsb, hibm]
  rw [getInodeFromPath, getInodeFromPath, hret]
  rcases e : retrieveInode s 0 with - | cur
  · rfl
  · simp only [walk_congr hret hdent (retrieveInode_eq_some e).2]

end congr

/-- A path that can be followed leads to an allocated inode. -/
theorem getInodeFromPath_ok {path : List UInt8} (h : getInodeFromPath s path = .ok i) :
    Allocated s.toDisk i := by
  rw [getInodeFromPath] at h
  split at h
  · cases h
  · next cur hcur =>
      have hroot := (retrieveInode_eq_some hcur).2
      split_ifs at h
      · cases h
        exact hroot
      · exact walk_ok hroot h
      · exact walk_ok hroot h

theorem getInodeFromPath_error {path : List UInt8} {e : Int}
    (h : getInodeFromPath s path = .error e) : e < 0 := by
  rw [getInodeFromPath] at h
  split at h
  · cases h
    decide
  · split_ifs at h
    · exact walk_error h
    · exact walk_error h

theorem parentDir_eq_ok {path : List UInt8} (h : parentDir s path = .ok p) :
    getInodeFromPath s path = .ok p ∧ isDir (s.inodes p).mode = true := by
  rw [parentDir] at h
  split at h
  · cases h
  · next parent hparent =>
      split_ifs at h with hd
      cases h
      exact ⟨hparent, by simpa using hd⟩

theorem parentDir_ok {path : List UInt8} (h : parentDir s path = .ok p) :
    (space s.toDisk).dir p :=
  ⟨getInodeFromPath_ok (parentDir_eq_ok h).1, (parentDir_eq_ok h).2⟩

theorem parentDir_error {path : List UInt8} {e : Int} (h : parentDir s path = .error e) :
    e < 0 := by
  rw [parentDir] at h
  split at h
  · next e' he =>
      cases h
      exact getInodeFromPath_error he
  · split_ifs at h
    cases h
    decide

theorem splitPath_error {path : List UInt8} {e : Int} (h : splitPath path = .error e) : e < 0 := by
  rw [splitPath] at h
  split_ifs at h
  · cases h
    decide
  · cases h
    decide

end SystemsPortfolio.Wfs
