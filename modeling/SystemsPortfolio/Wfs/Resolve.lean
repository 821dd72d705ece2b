/-
SystemsPortfolio/Wfs/Resolve.lean

The two ways in which WFS resolves a path.

`get_inode_from_path` cuts a path from the left and follows all of its components.
`wfs_unlink` and `wfs_rmdir` cut off the leaf name on the right, follow what is left,
and look the leaf up in the directory they arrive at.  The two agree in every state
(`resolveLeaf_eq`): on the inode they find and on the error they return, because a
walk along a concatenation is a walk after a walk (`walk_append`), and a lookup in
something that is no directory fails with the error that the check for a directory
gives.
-/
import SystemsPortfolio.Wfs.Lookup

namespace SystemsPortfolio.Wfs

variable {s : Fs} {path : List UInt8}

/-! ### The lookup from the right -/

/-- The lookup of `wfs_unlink` and `wfs_rmdir`: the parent and the inode of the leaf, or a
negative error. -/
def resolveLeaf (s : Fs) (path : List UInt8) : Except Int (Nat × Nat) :=
  match splitPath path with
  | .error e => .error e
  | .ok (parentPath, name) =>
      match parentDir s parentPath with
      | .error e => .error e
      | .ok parent =>
          if dentryToNum s name parent < 0 then .error (dentryToNum s name parent)
          else
            match retrieveInode s (dentryToNum s name parent) with
            | none => .error (-ENOENT)
            | some i => .ok (parent, i)

theorem resolveLeaf_error {e : Int} (h : resolveLeaf s path = .error e) : e < 0 := by
  rw [resolveLeaf] at h
  rcases hs : splitPath path with e' | ⟨dir, name⟩
  · rw [hs] at h
    cases h
    exact splitPath_error hs
  rcases hpd : parentDir s dir with e' | p
  · simp only [hs, hpd] at h
    cases h
    exact parentDir_error hpd
  simp only [hs, hpd] at h
  split_ifs at h with hneg
  · cases h
    exact hneg
  · split at h
    · cases h
      decide
    · cases h

theorem resolveLeaf_ok {p i : Nat} (h : resolveLeaf s path = .ok (p, i)) :
    ∃ dir name, splitPath path = .ok (dir, name) ∧ parentDir s dir = .ok p ∧
      ¬ dentryToNum s name p < 0 ∧ retrieveInode s (dentryToNum s name p) = some i := by
  rw [resolveLeaf] at h
  rcases hs : splitPath path with e | ⟨dir, name⟩
  · rw [hs] at h
    cases h
  rcases hpd : parentDir s dir with e | q
  · simp only [hs, hpd] at h
    cases h
  simp only [hs, hpd] at h
  split_ifs at h with hneg
  rcases hr : retrieveInode s (dentryToNum s name q) with - | j
  · rw [hr] at h
    cases h
  · rw [hr] at h
    cases h
    exact ⟨dir, name, rfl, hpd, hneg, hr⟩

/-- `wfs_unlink` from the found inode on. -/
def unlinkAt (s : Fs) (parent i : Nat) (env : Env) : Int × Fs :=
  if isDir (s.inodes i).mode then (-EISDIR, s)
  else
    let (rc, s₁) := removeDentry s parent i (env.now 0)
    if rc < 0 then (rc, s₁)
    else
      let s₂ := addLinks s₁ i (-1)
      let s₃ := if (s₂.inodes i).nlinks ≤ 0 then freeInode (freeBlocksOf s₂ i) i else s₂
      (0, touch s₃ parent (env.now 1))

/-- `wfs_rmdir` from the found inode on. -/
def rmdirAt (s : Fs) (parent i : Nat) (env : Env) : Int × Fs :=
  if isDir (s.inodes i).mode = false then (-ENOTDIR, s)
  else if hasOtherEntry s i then (-ENOTEMPTY, s)
  else
    let (rc, s₁) := removeDentry s parent i (env.now 0)
    if rc < 0 then (rc, s₁)
    else
      let s₂ := addLinks s₁ parent (-1)
      let s₃ := freeInode (freeBlocksOf s₂ i) i
      (0, touch s₃ parent (env.now 1))

/-- A lookup followed by what the operation does with its result. -/
def afterLookup (s : Fs) (found : Except Int (Nat × Nat)) (act : Nat → Nat → Int × Fs) : Int × Fs :=
  match found with
  | .error e => (e, s)
  | .ok (parent, i) => act parent i

/-- `wfs_unlink` refuses dot names, looks the leaf up, and removes it. -/
theorem wfsUnlink_eq_resolveLeaf (s : Fs) (path : List UInt8) (env : Env) :
    wfsUnlink s path env =
      match splitPath (cleanPath path) with
      | .error e => (e, s)
      | .ok (_, name) =>
          if name = [46] ∨ name = [46, 46] then (-EPERM, s)
          else afterLookup s (resolveLeaf s (cleanPath path)) fun parent i => unlinkAt s parent i env := by
  rw [wfsUnlink, resolveLeaf]
  rcases splitPath (cleanPath path) with e | ⟨dir, name⟩
  · rfl
  dsimp only
  by_cases hdot : name = [46] ∨ name = [46, 46]
  · rw [if_pos hdot, if_pos hdot]
  rw [if_neg hdot, if_neg hdot]
  rcases parentDir s dir with e | p
  · rfl
  dsimp only
  by_cases hneg : dentryToNum s name p < 0
  · rw [if_pos hneg, if_pos hneg]
    rfl
  rw [if_neg hneg, if_neg hneg]
  rcases hr : retrieveInode s (dentryToNum s name p) with - | i
  · rfl
  · rw [(retrieveInode_eq_some hr).1]
    rfl

/-- `wfs_rmdir` refuses the root, looks the leaf up, and removes it. -/
theorem wfsRmdir_eq_resolveLeaf (s : Fs) (path : List UInt8) (env : Env) :
    wfsRmdir s path env =
      if cleanPath path = [slash] then (-EBUSY, s)
      else afterLookup s (resolveLeaf s (cleanPath path)) fun parent i => rmdirAt s parent i env := by
  rw [wfsRmdir, resolveLeaf]
  by_cases hroot : cleanPath path = [slash]
  · rw [if_pos hroot, if_pos hroot]
  rw [if_neg hroot, if_neg hroot]
  rcases splitPath (cleanPath path) with e | ⟨dir, name⟩
  · rfl
  dsimp only
  rcases parentDir s dir with e | p
  · rfl
  dsimp only
  by_cases hneg : dentryToNum s name p < 0
  · rw [if_pos hneg, if_pos hneg]
    rfl
  rw [if_neg hneg, if_neg hneg]
  rcases hr : retrieveInode s (dentryToNum s name p) with - | i
  · rfl
  · rw [(retrieveInode_eq_some hr).1]
    rfl

/-! ### Walks -/

theorem walk_append (s : Fs) (cur : Nat) (as bs : List (List UInt8)) :
    walk s cur (as ++ bs) =
      match walk s cur as with
      | .error e => .error e
      | .ok i => walk s i bs := by
  induction as generalizing cur with
  | nil => rfl
  | cons a as ih =>
      rw [List.cons_append, walk, walk]
      split
      · rfl
      · split
        · rfl
        · exact ih _

/-- The last component, looked up without a check for a directory. -/
theorem walk_singleton (s : Fs) (cur : Nat) (name : List UInt8) :
    walk s cur [name] =
      if dentryToNum s name cur < 0 then .error (dentryToNum s name cur)
      else
        match retrieveInode s (dentryToNum s name cur) with
        | none => .error (-ENOENT)
        | some i => .ok i :=
  rfl

/-! ### Both ways -/

/-- An absolute path that is not all slashes has a leaf. -/
theorem splitPath_of_leaf (hhead : path.head? = some slash) (hleaf : ∃ c ∈ path, c ≠ slash) :
    splitPath path = .ok (dirname path, basename path) ∧ revTrimmed path ≠ [] := by
  obtain ⟨c, hc, hne⟩ := hleaf
  have hroot : path ≠ [slash] := by
    rintro rfl
    exact hne (List.mem_singleton.mp hc)
  refine ⟨?_, fun htrim => ?_⟩
  · rw [splitPath, if_neg (by simp [hhead]), if_neg hroot]
  · rw [revTrimmed, List.dropWhile_eq_nil_iff] at htrim
    exact hne (by simpa using htrim c (List.mem_reverse.mpr hc))

/-- Cutting the leaf off first leads to the same inode, or to the same error. -/
theorem resolveLeaf_eq (s : Fs) (hhead : path.head? = some slash)
    (hleaf : ∃ c ∈ path, c ≠ slash) :
    (resolveLeaf s path).map Prod.snd = getInodeFromPath s path := by
  obtain ⟨hsplit, htrim⟩ := splitPath_of_leaf hhead hleaf
  have htok := strtok_eq_dirname_basename hhead htrim
  rw [resolveLeaf, hsplit]
  dsimp only
  rw [parentDir, getInodeFromPath_eq_walk, getInodeFromPath_eq_walk, htok]
  rcases retrieveInode s 0 with - | root
  · rfl
  dsimp only
  rw [walk_append]
  rcases walk s root (strtok (dirname path)) with e | p
  · rfl
  dsimp only
  rw [walk_singleton]
  by_cases hdir : isDir (s.inodes p).mode = false
  · -- the check for a directory and the lookup give the same error
    have hnum : dentryToNum s (basename path) p = -ENOTDIR := if_pos hdir
    rw [if_pos hdir, hnum]
    rfl
  · rw [if_neg hdir]
    dsimp only
    by_cases hneg : dentryToNum s (basename path) p < 0
    · rw [if_pos hneg, if_pos hneg]
      rfl
    · rw [if_neg hneg, if_neg hneg]
      rcases retrieveInode s (dentryToNum s (basename path) p) with - | i
      · rfl
      · rfl

end SystemsPortfolio.Wfs
