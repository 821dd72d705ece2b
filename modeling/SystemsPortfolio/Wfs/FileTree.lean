/-
SystemsPortfolio/Wfs/FileTree.lean

The tree that an image holds.

`fileTree d` reads a `FileTree` off an image.  The lemmas of this module show that the
code looks paths up as the tree says: `getInodeFromPath_tree`, `createPlace_tree` and
`resolveLeaf_tree`.
-/
import SystemsPortfolio.Wfs.TreeModel
import SystemsPortfolio.Wfs.Walks

namespace SystemsPortfolio.Wfs

open ByteStore NameTree

variable {d d' : Disk} {s t : Fs} {i j p idx : Nat} {path name : List UInt8} {env : Env} {now num : Int}

/-- The node that an inode stands for. -/
def nodeAt (d : Disk) (i : Nat) : Node where
  mode := (d.inodes i).mode
  uid := (d.inodes i).uid
  gid := (d.inodes i).gid
  color := (d.inodes i).color
  body := if isDir (d.inodes i).mode then .dir else .file (d.inodes i).size (byteAt d i)

/-- The tree that an image holds. -/
noncomputable def fileTree (d : Disk) : FileTree := (space d).view 0 (nodeAt d)

theorem nodeAt_body_dir (h : isDir (d.inodes i).mode = true) : (nodeAt d i).body = .dir := by
  rw [nodeAt, h]
  rfl

theorem nodeAt_body_file (h : isDir (d.inodes i).mode = false) :
    (nodeAt d i).body = .file (d.inodes i).size (byteAt d i) := by
  rw [nodeAt, h]
  rfl

@[simp] theorem nodeAt_isDir (d : Disk) (i : Nat) : (nodeAt d i).isDir = isDir (d.inodes i).mode := by
  rw [Node.isDir]
  rcases h : isDir (d.inodes i).mode with - | -
  · rw [nodeAt_body_file h]
  · rw [nodeAt_body_dir h]

/-- Two inodes with the same attributes stand for the same node, if they are directories or
have the same bytes. -/
theorem nodeAt_congr (hmode : (d'.inodes j).mode = (d.inodes i).mode)
    (huid : (d'.inodes j).uid = (d.inodes i).uid) (hgid : (d'.inodes j).gid = (d.inodes i).gid)
    (hcolor : (d'.inodes j).color = (d.inodes i).color)
    (hfile : isDir (d.inodes i).mode = false →
      (d'.inodes j).size = (d.inodes i).size ∧ ∀ x, byteAt d' j x = byteAt d i x) :
    nodeAt d' j = nodeAt d i := by
  rw [nodeAt, nodeAt, hmode, huid, hgid, hcolor]
  rcases hdir : isDir (d.inodes i).mode with - | -
  · obtain ⟨hsize, hbytes⟩ := hfile hdir
    rw [hsize, funext hbytes]
  · rfl

theorem Base.namesAtPlaces (_ : Base d) : (space d).NamesAtPlaces :=
  fun he he' => (Prod.mk.inj (Option.some.inj (he.2.2.symm.trans he'.2.2))).1

theorem Base.fileTree_of_walk (h : Base d) {names : List (List UInt8)}
    (hw : (space d).Walk 0 names i) : fileTree d names = some (nodeAt d i) :=
  h.sound.view_of_walk hw

/-- What a name in a directory leads to. -/
theorem Base.fileTree_snoc (h : Base d) {names : List (List UInt8)} (hw : (space d).Walk 0 names p)
    (he : (space d).entry p idx name i) : fileTree d (names ++ [name]) = some (nodeAt d i) :=
  h.fileTree_of_walk (hw.step he)

theorem Base.fileTree_snoc_none (h : Base d) {names : List (List UInt8)}
    (hw : (space d).Walk 0 names p) (hno : ∀ l c, ¬ (space d).entry p l name c) :
    fileTree d (names ++ [name]) = none := by
  rw [fileTree, Space.view_eq_none]
  intro c hc
  obtain ⟨q, l, hq, he⟩ := Space.walk_snoc.mp hc
  obtain rfl := h.sound.walk_target hq hw rfl
  exact hno l c he

/-! ### Looking paths up -/

/-- The step lemma of the lookup: the walk of `get_inode_from_path` is `findFrom`. -/
theorem walk_tree (h : Base s.toDisk) {names comps : List (List UInt8)} {cur : Nat}
    (hcomps : ∀ comp ∈ comps, ∀ c ∈ comp, c ≠ 0) (hcur : (space s.toDisk).Walk 0 names cur) :
    (walk s cur comps).map (nodeAt s.toDisk) =
      findFrom Node.isDir (-ENOENT) (-ENOTDIR) (fileTree s.toDisk) names (nodeAt s.toDisk cur)
        comps := by
  induction comps generalizing cur names with
  | nil => rfl
  | cons comp rest ih =>
      rw [walk, findFrom, nodeAt_isDir]
      have halloc : Allocated s.toDisk cur := h.sound.node_of_walk hcur
      rcases hdir : isDir (s.inodes cur).mode with - | -
      · -- a lookup in a file fails
        rw [dentryToNum, if_pos hdir, if_pos (by decide)]
        rfl
      · rcases dentryToNum_cases h ⟨halloc, hdir⟩ (hcomps comp List.mem_cons_self) with
          ⟨k, c, he, e⟩ | ⟨hnone, e⟩
        · rw [e, if_neg (by omega), retrieveInode_of_allocated (h.sound.target he).1,
            h.fileTree_snoc hcur he]
          exact ih (fun a ha => hcomps a (List.mem_cons_of_mem _ ha)) (hcur.step he)
        · rw [e, if_pos (by decide), h.fileTree_snoc_none hcur hnone]
          rfl

/-- `get_inode_from_path` finds what is in the tree, and fails as the tree says. -/
theorem getInodeFromPath_tree (h : Base s.toDisk) (hpath : ∀ c ∈ path, c ≠ 0) :
    (getInodeFromPath s path).map (nodeAt s.toDisk) = (fileTree s.toDisk).lookup path := by
  have hroot : fileTree s.toDisk [] = some (nodeAt s.toDisk 0) := h.fileTree_of_walk .here
  rw [getInodeFromPath_eq h, FileTree.lookup, find, hroot]
  exact walk_tree h (fun comp hcomp c hc => hpath c (mem_of_mem_strtok hcomp hc)) .here

theorem lookup_of_error (h : Base s.toDisk) (hpath : ∀ c ∈ path, c ≠ 0) {e : Int}
    (hp : getInodeFromPath s path = .error e) : (fileTree s.toDisk).lookup path = .error e := by
  rw [← getInodeFromPath_tree h hpath, hp]
  rfl

theorem lookup_of_ok (h : Base s.toDisk) (hpath : ∀ c ∈ path, c ≠ 0)
    (hp : getInodeFromPath s path = .ok i) :
    (fileTree s.toDisk).lookup path = .ok (nodeAt s.toDisk i) := by
  rw [← getInodeFromPath_tree h hpath, hp]
  rfl

/-! ### Splitting paths -/

theorem mem_of_mem_dirname {c : UInt8} {p : List UInt8} (hc : c ∈ dirname p) :
    c ∈ p ∨ c = slash ∨ c = 46 := by
  rw [dirname] at hc
  split_ifs at hc
  · exact Or.inr (Or.inl (List.mem_singleton.mp hc))
  · exact Or.inr (Or.inr (List.mem_singleton.mp hc))
  · exact Or.inr (Or.inl (List.mem_singleton.mp hc))
  · refine Or.inl (mem_of_mem_revTrimmed ?_)
    exact List.dropWhile_sublist _ |>.subset
      (List.dropWhile_sublist _ |>.subset (List.mem_reverse.mp hc))

theorem dirname_nul_free {p : List UInt8} (h : ∀ c ∈ p, c ≠ 0) : ∀ c ∈ dirname p, c ≠ 0 := by
  intro c hc
  rcases mem_of_mem_dirname hc with hc | rfl | rfl
  · exact h c hc
  · decide
  · decide

/-- The parent the code finds is the one in the tree. -/
theorem parentDir_tree (h : Base s.toDisk) {dir : List UInt8} (hdir : ∀ c ∈ dir, c ≠ 0) :
    match parentDir s dir with
    | .error e => ∀ p name, splitPath p = .ok (dir, name) →
        (fileTree s.toDisk).parent p = .error e
    | .ok q => (space s.toDisk).dir q ∧ (space s.toDisk).Walk 0 (strtok dir) q ∧
        ∀ p name, splitPath p = .ok (dir, name) →
          (fileTree s.toDisk).parent p = .ok (strtok dir, name) := by
  rcases hpd : parentDir s dir with e | q
  · intro p name hp
    rw [FileTree.parent, hp]
    dsimp only
    rw [parentDir] at hpd
    split at hpd
    · next e' he =>
        cases hpd
        rw [lookup_of_error h hdir he]
    · next q hq =>
        split_ifs at hpd with hd
        cases hpd
        rw [lookup_of_ok h hdir hq]
        dsimp only
        rw [nodeAt_isDir, if_pos hd]
  · obtain ⟨hq, hd⟩ := parentDir_eq_ok hpd
    refine ⟨parentDir_ok hpd, getInodeFromPath_walk h hdir hq, fun p name hp => ?_⟩
    rw [FileTree.parent, hp]
    dsimp only
    rw [lookup_of_ok h hdir hq]
    dsimp only
    rw [nodeAt_isDir, if_neg (by rw [hd]; decide)]

/-- The part that `wfs_mknod` and `wfs_mkdir` share: the parent and the name of what is to be
created. -/
def createPlace (s : Fs) (path : List UInt8) : Except Int (Nat × List UInt8) :=
  match splitPath path with
  | .error e => .error e
  | .ok (dir, name) =>
      match parentDir s dir with
      | .error e => .error e
      | .ok p => if 0 ≤ dentryToNum s name p then .error (-EEXIST) else .ok (p, name)

/-- A place for a new name, found in the directory `p` that `dir` leads to. -/
structure Vacant (d : Disk) (dir : List (List UInt8)) (p : Nat) (name : List UInt8) : Prop where
  parent : (space d).dir p
  walk : (space d).Walk 0 dir p
  free : ∀ l c, ¬ (space d).entry p l name c
  nonempty : name ≠ []
  nul : ∀ c ∈ name, c ≠ 0

theorem createPlace_tree (h : Base s.toDisk) (hpath : ∀ c ∈ path, c ≠ 0) :
    match createPlace s path with
    | .error e => (fileTree s.toDisk).newPlace path = .error e
    | .ok (p, name) => ∃ dir, Vacant s.toDisk dir p name ∧
        (fileTree s.toDisk).newPlace path = .ok (dir, name) := by
  rw [createPlace]
  rcases hs : splitPath path with e | ⟨dir, name⟩
  · dsimp only
    rw [FileTree.newPlace, FileTree.parent, hs]
  obtain ⟨rfl, rfl⟩ := splitPath_ok hs
  have hparent := parentDir_tree h (dirname_nul_free hpath)
  dsimp only
  rcases hpd : parentDir s (dirname path) with e | p
  · rw [hpd] at hparent
    dsimp only
    rw [FileTree.newPlace, hparent _ _ hs]
  rw [hpd] at hparent
  obtain ⟨hdir, hw, hp⟩ := hparent
  have hnul := basename_nul_free hpath
  dsimp only
  rw [FileTree.newPlace, hp _ _ hs]
  rcases dentryToNum_cases h hdir hnul with ⟨k, c, he, e⟩ | ⟨hnone, e⟩
  · rw [e, if_pos (by omega)]
    dsimp only
    rw [h.fileTree_snoc hw he]
  · rw [e, if_neg (by decide)]
    refine ⟨_, ⟨hdir, hw, hnone, basename_ne_nil _, hnul⟩, ?_⟩
    dsimp only
    rw [h.fileTree_snoc_none hw hnone]

/-- The lookup of `wfs_unlink` and `wfs_rmdir` finds the entry the tree has, and fails as the
tree says. -/
theorem resolveLeaf_tree (h : Base s.toDisk) (hpath : ∀ c ∈ path, c ≠ 0) :
    match resolveLeaf s path with
    | .error e => (fileTree s.toDisk).leaf path = .error e
    | .ok (p, i) => ∃ dir name idx, (space s.toDisk).Walk 0 dir p ∧
        (space s.toDisk).entry p idx name i ∧ dentryToNum s name p = i ∧
        (fileTree s.toDisk).leaf path = .ok (dir ++ [name], nodeAt s.toDisk i) := by
  rw [resolveLeaf]
  rcases hs : splitPath path with e | ⟨dir, name⟩
  · dsimp only
    rw [FileTree.leaf, FileTree.parent, hs]
  obtain ⟨rfl, rfl⟩ := splitPath_ok hs
  have hparent := parentDir_tree h (dirname_nul_free hpath)
  dsimp only
  rcases hpd : parentDir s (dirname path) with e | p
  · rw [hpd] at hparent
    dsimp only
    rw [FileTree.leaf, hparent _ _ hs]
  rw [hpd] at hparent
  obtain ⟨hdir, hw, hp⟩ := hparent
  dsimp only
  rw [FileTree.leaf, hp _ _ hs]
  rcases dentryToNum_cases h hdir (basename_nul_free hpath) with ⟨k, c, he, e⟩ | ⟨hnone, e⟩
  · rw [e, if_neg (by omega), retrieveInode_of_allocated (h.sound.target he).1]
    refine ⟨_, _, k, hw, he, e, ?_⟩
    dsimp only
    rw [h.fileTree_snoc hw he]
  · rw [e, if_pos (by decide)]
    dsimp only
    rw [h.fileTree_snoc_none hw hnone]

end SystemsPortfolio.Wfs
