/-
SystemsPortfolio/Wfs/TreeRuns.lean

WFS is a file tree: every run of operations on an image is a run of `FileTree.Step`
on its tree (`run_refines`), and what the operations report is what the tree says
(`reports_of_tree`).  Two images with the same tree, however differently they are laid
out, cannot be told apart by their clients.  `statfs_counts_tree` says that what the tree
does not need is free.
-/
import SystemsPortfolio.Wfs.Deletion
import SystemsPortfolio.Wfs.TreeSteps

namespace SystemsPortfolio.Wfs

open ByteStore NameTree SlotTable

variable {d d' : Disk} {s t : Fs} {i j p idx o : Nat} {path name buf : List UInt8} {env : Env} {now : Int}

/-! ### Reading and writing -/

/-- The node of a file after its inode and its blocks have been changed. -/
theorem nodeAt_file {size : Int} {bytes : Nat → UInt8}
    (hattrs : (d'.inodes i).attrs = (d.inodes i).attrs) (hfile : isDir (d.inodes i).mode = false)
    (hsize : (d'.inodes i).size = size) (hbytes : ∀ x, byteAt d' i x = bytes x) :
    nodeAt d' i = { nodeAt d i with body := .file size bytes } := by
  simp only [Inode.attrs, Prod.mk.injEq] at hattrs
  obtain ⟨hmode, huid, hgid, hcolor⟩ := hattrs
  rw [nodeAt, nodeAt, hmode, huid, hgid, hcolor, hsize, funext hbytes, hfile]
  rfl

theorem overwrite_take {k : Nat} (hk : k ≤ buf.length) (bytes : Nat → UInt8) (x : Nat) :
    overwrite bytes o (buf.take k) x =
      if o ≤ x ∧ x < o + k then buf.getD (x - o) 0 else bytes x := by
  rw [overwrite, List.length_take, min_eq_left hk]
  split_ifs with hx
  · rw [List.getD_eq_getElem?_getD, List.getD_eq_getElem?_getD, List.getElem?_take_of_lt (by omega)]
  · rfl

theorem Confined.attrs (hc : Confined d d' i) (j : Nat) :
    (d'.inodes j).attrs = (d.inodes j).attrs :=
  hc.field Inode.attrs (fun _ _ => rfl) j

theorem writtenInode_attrs (ino : Inode) (newEnd : Int) (done : Nat) (now : Int) :
    (writtenInode ino newEnd done now).attrs = ino.attrs := by
  rw [writtenInode]
  split_ifs <;> rfl

/-- `wfs_write` puts its bytes into the file that its path leads to, as many as fit. -/
theorem wfsWrite_step (h : Base s.toDisk) (hpath : ∀ c ∈ path, c ≠ 0) (ho : o < 2 ^ 63) :
    (fileTree s.toDisk).Write path buf o (wfsWrite s path buf o env).1
      (fileTree (wfsWrite s path buf o env).2.toDisk) := by
  have hclean := cleanPath_nul_free hpath
  rw [FileTree.Write]
  rcases hp : getInodeFromPath s (cleanPath path) with e | i
  · rw [lookup_of_error h hclean hp, wfsWrite, hp]
    exact ⟨rfl, rfl⟩
  rw [lookup_of_ok h hclean hp]
  dsimp only
  rcases hfile : isDir (s.inodes i).mode with - | -
  swap
  · rw [nodeAt_body_dir hfile]
    simp only [wfsWrite, hp, hfile, if_true]
    exact ⟨trivial, trivial⟩
  rw [nodeAt_body_file hfile]
  dsimp only
  have hi := getInodeFromPath_ok hp
  have hw := getInodeFromPath_walk h hclean hp
  have hspace : space (wfsWrite s path buf o env).2.toDisk = space s.toDisk :=
    (wfsWrite_calm h).quiet.space
  rcases wfsWrite_cases h hp hfile ho buf env with ⟨t, m, hwr, e⟩ | ⟨t, s', k, m, hwr, hk, hh, -, e⟩
  · left
    rw [e] at hspace ⊢
    have hsame := @sameBlocks_setInode t i _
      (writtenInode_blocks (t.inodes i) (o + buf.length : Nat) buf.length (env.now 0))
    refine ⟨rfl, ?_⟩
    rw [h.fileTree_update hspace hw fun j hj hji => ?_]
    · congr 2
      refine nodeAt_file ?_ hfile ?_ fun x => ?_
      · rw [Fs.setInode_self, writtenInode_attrs, hwr.confined.attrs]
      · rw [Fs.setInode_self, writtenInode_size, hwr.confined.field Inode.size fun _ _ => rfl]
      · rw [(hsame i).byteAt, hwr.bytes]
        rfl
    · rw [Fs.setInode_ne hji]
      exact ⟨hwr.confined.others j hji, (hwr.confined.same j hji hj).trans (hsame j)⟩
  · right
    rw [e] at hspace ⊢
    have hc := hwr.confined.trans hh.confined
    refine ⟨rfl, k, hk, ?_⟩
    rw [h.fileTree_update hspace hw fun j hj hji => ⟨hc.others j hji, hc.same j hji hj⟩]
    congr 2
    refine nodeAt_file (hc.attrs i) hfile (hc.field Inode.size (fun _ _ => rfl) i) fun x => ?_
    rw [hh.bytes, hwr.bytes, overwrite_take hk.le]

/-- `wfs_read` reports the bytes of the file in the tree. -/
theorem wfsRead_eq (h : Base s.toDisk) (hpath : ∀ c ∈ path, c ≠ 0) {len : Nat}
    (hfit : o + len < 2 ^ 63) :
    ((wfsRead s path len o env).1, (wfsRead s path len o env).2.1) =
      (fileTree s.toDisk).read path len o := by
  have hclean := cleanPath_nul_free hpath
  rw [FileTree.read]
  rcases hp : getInodeFromPath s (cleanPath path) with e | i
  · rw [lookup_of_error h hclean hp, wfsRead, hp]
  rw [lookup_of_ok h hclean hp]
  dsimp only
  rcases hfile : isDir (s.inodes i).mode with - | -
  · have hbytes : (wfsRead s path len o env).2.1 = readBytes (s.inodes i).size (byteAt s.toDisk i) o len :=
      wfsRead_bytes hp hfile hfit
    rw [nodeAt_body_file hfile, wfsRead_ret hp hfile, hbytes]
  · have e : wfsRead s path len o env = (-EISDIR, [], s) := by
      rw [wfsRead, hp]
      exact if_pos hfile
    rw [nodeAt_body_dir hfile, e]

/-- Reading changes a time at most. -/
theorem wfsRead_tree (h : Base s.toDisk) {len : Nat} {off : Int} :
    fileTree (wfsRead s path len off env).2.2.toDisk = fileTree s.toDisk := by
  refine h.fileTree_eq (wfsRead_calm h).quiet.space wfsRead_keepsFiles fun j hj => ?_
  rcases hp : getInodeFromPath s (cleanPath path) with e | i
  · rw [wfsRead, hp]
  rcases hfile : isDir (s.inodes i).mode with - | -
  · obtain ⟨a, ha⟩ := @wfsRead_toDisk s i path env len hp hfile off
    rw [ha]
    exact @attrs_setInode s i { s.inodes i with atim := a } rfl j
  · simp only [wfsRead, hp, hfile, if_true]

/-! ### Listing -/

/-- A directory holds what the tree has below it, each name once. -/
theorem Base.mem_keys (h : Base d) {names : List (List UInt8)} (hp : (space d).dir p)
    (hw : (space d).Walk 0 names p) (a : List UInt8) :
    a ∈ keys (liveEntry d p) 96 ↔ fileTree d (names ++ [a]) ≠ none := by
  simp only [keys, List.mem_filterMap, List.mem_range, Option.map_eq_some_iff]
  constructor
  · rintro ⟨idx, hidx, ⟨b, num⟩, hl, rfl⟩
    obtain ⟨c, -, he⟩ := h.entry_of_live hp hidx hl
    rw [h.fileTree_snoc hw he]
    exact Option.some_ne_none _
  · intro hne
    by_contra hno
    refine hne (h.fileTree_snoc_none hw fun l c he => hno ?_)
    exact ⟨l, he.2.1, _, he.2.2, rfl⟩

theorem Base.nodup_keys (h : Base d) (hp : (space d).dir p) : (keys (liveEntry d p) 96).Nodup := by
  have hinj {k l : Nat} {a : List UInt8} {v w : Int} (hk : k < 96) (hl : l < 96)
      (ek : liveEntry d p k = some (a, v)) (el : liveEntry d p l = some (a, w)) : k = l := by
    obtain ⟨c, -, hc⟩ := h.entry_of_live hp hk ek
    obtain ⟨e, -, he⟩ := h.entry_of_live hp hl el
    exact h.sound.names hc he
  obtain ⟨m, hm⟩ := exists_holds hinj
  exact hm.nodup_keys

theorem wfsReaddir_tree (h : Base s.toDisk) :
    fileTree (wfsReaddir s path env).2.2.toDisk = fileTree s.toDisk := by
  refine h.fileTree_eq (wfsReaddir_calm h).quiet.space wfsReaddir_keepsFiles fun j hj => ?_
  rw [wfsReaddir]
  rcases getInodeFromPath s (cleanPath path) with e | i
  · rfl
  dsimp only
  split_ifs
  · rfl
  · refine attrs_setInode ?_ j
    rfl

/-! ### Colours -/

theorem Base.validInum (h : Base s.toDisk) (hi : Allocated s.toDisk i) :
    validInum s (s.inodes i).num = true := by
  rw [Wfs.validInum, h.num i hi]
  simpa using hi.1

/-- Setting the colour of an inode sets that of its node. -/
theorem setColor_tree (h : Base s.toDisk) {names : List (List UInt8)}
    (hw : (space s.toDisk).Walk 0 names i) (color : Color) :
    fileTree (setColor s i color now).toDisk =
      Function.update (fileTree s.toDisk) names (some { nodeAt s.toDisk i with color := color }) := by
  have hi := h.sound.node_of_walk hw
  have hsame := @sameBlocks_setInode s i
    (wfsUpdateTimes { s.inodes i with color := color } now false false true) rfl
  rw [h.fileTree_update (h.calm_setColor hi color now).quiet.space hw fun j hj hji => ?_]
  · have hbytes : byteAt (setColor s i color now).toDisk i = byteAt s.toDisk i :=
      funext (hsame i).byteAt
    rw [nodeAt, hbytes, setColor, Fs.setInode_self]
    rfl
  · exact ⟨Fs.setInode_ne hji, hsame j⟩

/-- The colour goes to what the path leads to. -/
theorem wfsSetxattr_step (h : Base s.toDisk) (hpath : ∀ c ∈ path, c ≠ 0)
    (value : Option (List UInt8)) :
    ((wfsSetxattr s path userColor value env).1,
        fileTree (wfsSetxattr s path userColor value env).2.toDisk) =
      (fileTree s.toDisk).recolor path (colorValue value) := by
  have hclean := cleanPath_nul_free hpath
  rw [wfsSetxattr, if_neg (by simp), FileTree.recolor]
  rcases hp : getInodeFromPath s (cleanPath path) with e | i
  · rw [lookup_of_error h hclean hp]
  rw [lookup_of_ok h hclean hp]
  dsimp only
  rw [h.validInum (getInodeFromPath_ok hp), if_neg (by decide)]
  rcases value with - | bytes
  · rfl
  rw [colorValue]
  dsimp only
  split_ifs
  · rfl
  · rfl
  rcases parseColorName (bytes.takeWhile (· ≠ 0)) with - | color
  · rfl
  · dsimp only
    rw [setColor_tree h (getInodeFromPath_walk h hclean hp)]

theorem wfsRemovexattr_step (h : Base s.toDisk) (hpath : ∀ c ∈ path, c ≠ 0) :
    ((wfsRemovexattr s path userColor env).1,
        fileTree (wfsRemovexattr s path userColor env).2.toDisk) =
      (fileTree s.toDisk).recolor path (.ok .none) := by
  have hclean := cleanPath_nul_free hpath
  rw [wfsRemovexattr, if_neg (by simp), FileTree.recolor]
  rcases hp : getInodeFromPath s (cleanPath path) with e | i
  · rw [lookup_of_error h hclean hp]
  rw [lookup_of_ok h hclean hp]
  dsimp only
  rw [h.validInum (getInodeFromPath_ok hp), if_neg (by decide),
    setColor_tree h (getInodeFromPath_walk h hclean hp)]

theorem wfsGetxattr_eq (h : Base s.toDisk) (hpath : ∀ c ∈ path, c ≠ 0) (name : List UInt8)
    (size : Nat) : wfsGetxattr s path name size = (fileTree s.toDisk).getxattr path name size := by
  have hclean := cleanPath_nul_free hpath
  rw [wfsGetxattr, FileTree.getxattr]
  by_cases hname : name ≠ userColor
  · rw [if_pos hname, if_pos hname]
  rw [if_neg hname, if_neg hname]
  rcases hp : getInodeFromPath s (cleanPath path) with e | i
  · rw [lookup_of_error h hclean hp]
  rw [lookup_of_ok h hclean hp]
  dsimp only
  rw [h.validInum (getInodeFromPath_ok hp), if_neg (by decide)]
  rfl

/-! ### Runs -/

/-- The step lemma: an operation on an image is a step on its tree. -/
theorem exec_step (h : Tree s.toDisk) {op : Op} (hop : op.InRange) :
    (fileTree s.toDisk).Step env op (exec env op s).1 (fileTree (exec env op s).2.toDisk) := by
  have hb := h.base
  cases op with
  | getattr path =>
      rw [exec, wfsGetattr, FileTree.Step]
      rcases hp : getInodeFromPath s (cleanPath path.bytes) with e | i
      · rw [lookup_of_error hb (cleanPath_nul_free path.nul_free) hp]
        exact ⟨rfl, rfl⟩
      · rw [lookup_of_ok hb (cleanPath_nul_free path.nul_free) hp]
        exact ⟨rfl, rfl⟩
  | mknod path mode => exact wfsMknod_step hb path.nul_free mode
  | mkdir path mode => exact wfsMkdir_step hb path.nul_free mode
  | read path len off =>
      obtain ⟨h₀, hfit⟩ := hop
      obtain ⟨o, rfl⟩ := Int.eq_ofNat_of_zero_le h₀
      refine ⟨?_, wfsRead_tree hb⟩
      exact congrArg Prod.fst (wfsRead_eq hb path.nul_free (by omega))
  | write path buf off =>
      obtain ⟨h₀, hlt⟩ := hop
      obtain ⟨o, rfl⟩ := Int.eq_ofNat_of_zero_le h₀
      exact wfsWrite_step hb path.nul_free (by omega)
  | readdir path =>
      refine ⟨?_, wfsReaddir_tree hb⟩
      rw [exec, wfsReaddir]
      rcases hp : getInodeFromPath s (cleanPath path.bytes) with e | i
      · rw [lookup_of_error hb (cleanPath_nul_free path.nul_free) hp]
      · rw [lookup_of_ok hb (cleanPath_nul_free path.nul_free) hp]
        dsimp only
        rw [nodeAt_isDir]
        split_ifs <;> rfl
  | unlink path => exact wfsUnlink_step hb path.nul_free
  | rmdir path => exact wfsRmdir_step h path.nul_free
  | statfs => exact ⟨rfl, rfl⟩
  | setxattr path name value =>
      rw [FileTree.Step, exec]
      by_cases hname : name.bytes ≠ userColor
      · rw [if_pos hname, wfsSetxattr, if_pos hname]
        exact ⟨rfl, rfl⟩
      · rw [if_neg hname, not_not.mp hname]
        exact wfsSetxattr_step hb path.nul_free value
  | getxattr path name size =>
      exact ⟨congrArg Prod.fst (wfsGetxattr_eq hb path.nul_free name.bytes size), rfl⟩
  | removexattr path name =>
      rw [FileTree.Step, exec]
      by_cases hname : name.bytes ≠ userColor
      · rw [if_pos hname, wfsRemovexattr, if_pos hname]
        exact ⟨rfl, rfl⟩
      · rw [if_neg hname, not_not.mp hname]
        exact wfsRemovexattr_step hb path.nul_free

theorem run_tree (h : Tree s.toDisk) {ops : List (Env × Op)}
    (hops : ∀ e ∈ ops, e.2.NoDots ∧ e.2.InRange) :
    (fileTree s.toDisk).Run ops (values s ops) (fileTree (run s ops).toDisk) := by
  induction ops generalizing s with
  | nil => exact .nil _
  | cons e ops ih =>
      obtain ⟨hdots, hrange⟩ := hops e List.mem_cons_self
      refine .cons (exec_step h hrange) (ih ?_ fun e' he' => hops e' (List.mem_cons_of_mem _ he'))
      exact (exec_effect h.base e.2).tree h hdots

/-- A new image holds an empty root directory. -/
theorem MkfsImage.fileTree (h : MkfsImage d) : ∃ root : Node, root.isDir = true ∧
    Wfs.fileTree d = Function.update (fun _ => none) [] (some root) := by
  have hb := h.base
  refine ⟨nodeAt d 0, by rw [nodeAt_isDir, hb.root.2], funext fun names => ?_⟩
  rcases List.eq_nil_or_concat names with rfl | ⟨pre, a, rfl⟩
  · rw [Function.update_self]
    exact hb.fileTree_of_walk .here
  · rw [List.concat_eq_append, Function.update_of_ne (by simp), Wfs.fileTree, Space.view_eq_none]
    intro c hc
    obtain ⟨p, k, -, he⟩ := Space.walk_snoc.mp hc
    have hl := he.2.2
    rw [h.liveEntry he.1.1] at hl
    cases hl

/-- **WFS is a file tree.**  From a new image on, every run without dot names and with offsets
in range is a run on trees, with the same return values: it starts from a root directory alone,
and it ends at the tree of the image the run leaves. -/
theorem run_refines {ops : List (Env × Op)} (hd : MkfsImage d)
    (hops : ∀ e ∈ ops, e.2.NoDots ∧ e.2.InRange) :
    ∃ root : Node, root.isDir = true ∧
      FileTree.Run (Function.update (fun _ => none) [] (some root)) ops (values (mount d) ops)
        (fileTree (run (mount d) ops).toDisk) := by
  obtain ⟨root, hroot, htree⟩ := hd.fileTree
  refine ⟨root, hroot, ?_⟩
  rw [← htree]
  exact @run_tree (mount d) hd.tree ops hops

/-- The small run of a `mknod` and a `write`. -/
theorem run_refines_small : ∃ root : Node, root.isDir = true ∧
    FileTree.Run (Function.update (fun _ => none) [] (some root)) smallOps
      (values (mount smallDisk) smallOps) (fileTree (run (mount smallDisk) smallOps).toDisk) :=
  run_refines smallDisk_mkfs.mkfsImage (by decide)

/-! ### What the tree determines -/

theorem countFree_add_used (bitmap : WordSet.Words) (n : Nat) :
    countFree bitmap n + {k | k < n ∧ bitmapTest k bitmap = true}.ncard = n := by
  have hunion : {k | k < n ∧ ¬ bitmapTest k bitmap = true} ∪ {k | k < n ∧ bitmapTest k bitmap = true} =
      {k | k < n} := by
    ext k
    simp only [Set.mem_union, Set.mem_ofPred_eq]
    tauto
  have hdisj : Disjoint {k | k < n ∧ ¬ bitmapTest k bitmap = true}
      {k | k < n ∧ bitmapTest k bitmap = true} := by
    rw [Set.disjoint_left]
    exact fun k hk hk' => hk.2 hk'.2
  have hfin {P : Nat → Prop} : {k | k < n ∧ P k}.Finite :=
    (Set.finite_lt_nat n).subset fun k hk => hk.1
  have hn : {k | k < n} = ((Finset.range n : Finset Nat) : Set Nat) := by
    ext k
    simp
  rw [countFree_eq, ← Set.ncard_union_eq hdisj hfin hfin, hunion, hn, Set.ncard_coe_finset,
    Finset.card_range]

/-- The allocated inodes are the nodes of the tree. -/
theorem Tree.ncard_allocated (h : Tree d) :
    {i | Allocated d i}.ncard = {names | fileTree d names ≠ none}.ncard := by
  have hb := h.base
  have hwalk {i : Nat} (hi : Allocated d i) : ∃ names, (space d).Walk 0 names i :=
    h.rooted.exists_walk hi
  refine Set.ncard_congr (fun i hi => (hwalk hi).choose) (fun i hi => ?_) (fun i j hi hj hij => ?_)
    fun names hnames => ?_
  · show fileTree d _ ≠ none
    rw [hb.fileTree_of_walk (hwalk hi).choose_spec]
    exact Option.some_ne_none _
  · exact hb.sound.walk_target (hwalk hi).choose_spec (hwalk hj).choose_spec hij
  · obtain ⟨n, hn⟩ := Option.ne_none_iff_exists'.mp hnames
    obtain ⟨i, hw, -⟩ := hb.sound.view_eq_some.mp hn
    have hi := hb.sound.node_of_walk hw
    exact ⟨i, hi, hb.walk_unique (hwalk hi).choose_spec hw⟩

/-- The slots of the files and directories of a tree that hold a block. -/
def usedSlots (d : Disk) : Set (List (List UInt8) × Slot) :=
  {x | ∃ i, (space d).Walk 0 x.1 i ∧ slotVal d i x.2 ≠ 0}

/-- The blocks in use are those of the nodes of the tree. -/
theorem Tree.ncard_marked (h : Tree d) : {k | Marked d k}.ncard = (usedSlots d).ncard := by
  have hb := h.base
  have hex := hb.owned.exact
  have hown {x : List (List UInt8) × Slot} (hx : x ∈ usedSlots d) :
      ∃ k i, (space d).Walk 0 x.1 i ∧ owner d (i, x.2) = some k := by
    obtain ⟨i, hw, hne⟩ := hx
    exact ⟨_, i, hw, if_pos ⟨hb.sound.node_of_walk hw, hne⟩⟩
  symm
  refine Set.ncard_congr (fun x hx => (hown hx).choose) (fun x hx => ?_) (fun x y hx hy hxy => ?_)
    fun k hk => ?_
  · obtain ⟨i, -, ho⟩ := (hown hx).choose_spec
    exact (hex.range _).mpr ⟨_, ho⟩
  · obtain ⟨i, hi, ho⟩ := (hown hx).choose_spec
    obtain ⟨j, hj, ho'⟩ := (hown hy).choose_spec
    rw [← hxy] at ho'
    obtain ⟨rfl, hsl⟩ := Prod.mk.inj (hex.inj ho ho')
    exact Prod.ext (hb.walk_unique hi hj) hsl
  · obtain ⟨⟨i, sl⟩, ho⟩ := (hex.range k).mp hk
    have hi : Allocated d i ∧ slotVal d i sl ≠ 0 := by
      by_contra hno
      rw [owner, if_neg hno] at ho
      cases ho
    obtain ⟨names, hw⟩ := h.rooted.exists_walk hi.1
    have hx : (names, sl) ∈ usedSlots d := ⟨i, hw, hi.2⟩
    refine ⟨(names, sl), hx, ?_⟩
    obtain ⟨j, hj, ho'⟩ := (hown hx).choose_spec
    obtain rfl := hb.sound.walk_target hj hw rfl
    exact Option.some.inj (ho'.symm.trans ho)

/-- **Nothing leaks.**  In every state a run reaches, the inodes that `wfs_statfs` does not count
as free are exactly as many as the tree has files and directories, and the blocks it does not
count as free are exactly as many as those hold. -/
theorem statfs_counts_tree {ops : List (Env × Op)} (hd : MkfsImage d)
    (hops : ∀ e ∈ ops, e.2.NoDots) (hs : run (mount d) ops = s) :
    (wfsStatfs s).ffree + {names | fileTree s.toDisk names ≠ none}.ncard = (wfsStatfs s).files ∧
    (wfsStatfs s).bfree + (usedSlots s.toDisk).ncard = (wfsStatfs s).blocks := by
  have h : Tree s.toDisk := hs ▸ tree_run hd hops
  constructor
  · rw [← h.ncard_allocated]
    exact countFree_add_used s.ibm s.sb.numInodes
  · rw [← h.ncard_marked]
    exact countFree_add_used s.dbm s.sb.numDataBlocks

/-- After making one file two of the 32 inodes are in use. -/
theorem statfs_counts_tree_new :
    30 + {names | fileTree (run (mount smallDisk)
      [(plainEnv, .mknod smallPath 0o100644#32)]).toDisk names ≠ none}.ncard = 32 := by
  have hops : ∀ e ∈ [(plainEnv, Op.mknod smallPath 0o100644#32)], e.2.NoDots := by decide
  have h := (statfs_counts_tree smallDisk_mkfs.mkfsImage hops rfl).1
  rwa [show (wfsStatfs (run (mount smallDisk)
    [(plainEnv, Op.mknod smallPath 0o100644#32)])).ffree = 30 by decide +kernel] at h

end SystemsPortfolio.Wfs
