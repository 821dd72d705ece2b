/-
SystemsPortfolio/Wfs/Walks.lean

Which paths lead to an inode.

`get_inode_from_path` follows the components of a path from the root, so a path that
it can follow is a walk of the name space (`getInodeFromPath_walk`).  No two lists
of components lead to one inode, and no operation opens a new way to an inode that
is there already: WFS has no links and no rename.  `Hidden N` says of a regular file
that every way to it is in `N`; it stays so as long as the file is there.
-/
import SystemsPortfolio.Wfs.Files
import SystemsPortfolio.Wfs.Resolve

namespace SystemsPortfolio.Wfs

open ByteStore NameTree

variable {d d' : Disk} {s : Fs} {i p idx : Nat} {op : Op}

/-! ### Paths and walks -/

/-- On a mounted image the walk starts at inode 0. -/
theorem getInodeFromPath_eq (h : Base s.toDisk) (path : List UInt8) :
    getInodeFromPath s path = walk s 0 (strtok path) := by
  have hroot : retrieveInode s 0 = some 0 := retrieveInode_of_allocated h.root.1
  rw [getInodeFromPath_eq_walk, hroot]

theorem walk_walk (h : Base s.toDisk) {names comps : List (List UInt8)} {cur : Nat}
    (hcomps : ∀ comp ∈ comps, ∀ c ∈ comp, c ≠ 0) (hcur : (space s.toDisk).Walk 0 names cur)
    (hw : walk s cur comps = .ok i) : (space s.toDisk).Walk 0 (names ++ comps) i := by
  induction comps generalizing cur names with
  | nil =>
      cases hw
      rwa [List.append_nil]
  | cons comp rest ih =>
      rw [walk] at hw
      split_ifs at hw with hneg
      split at hw
      · cases hw
      · next next hnext =>
          have hdir : (space s.toDisk).dir cur := by
            refine ⟨?_, ?_⟩
            · cases hcur with
              | here => exact h.root.1
              | step _ he => exact (h.sound.target he).1
            · -- a lookup in a file fails
              by_contra hfile
              rw [dentryToNum, if_pos (by simpa using hfile)] at hneg
              exact hneg (by decide)
          obtain ⟨k, he, -⟩ := entry_of_dentryToNum h hdir (hcomps comp List.mem_cons_self) hneg hnext
          have hrest := ih (fun c hc => hcomps c (List.mem_cons_of_mem _ hc)) (hcur.step he) hw
          rwa [List.append_assoc] at hrest

/-- A path that can be followed is a walk from the root. -/
theorem getInodeFromPath_walk (h : Base s.toDisk) {path : List UInt8} (hpath : ∀ c ∈ path, c ≠ 0)
    (hp : getInodeFromPath s path = .ok i) : (space s.toDisk).Walk 0 (strtok path) i := by
  rw [getInodeFromPath_eq h] at hp
  exact walk_walk h (fun comp hcomp c hc => hpath c (mem_of_mem_strtok hcomp hc)) .here hp

/-- A name that is in a directory is found there. -/
theorem dentryToNum_of_entry (h : Base s.toDisk) {name : List UInt8} (hnul : ∀ b ∈ name, b ≠ 0)
    (he : (space s.toDisk).entry p idx name i) : dentryToNum s name p = i := by
  rcases dentryToNum_cases h he.1 hnul with ⟨l, c, he', e⟩ | ⟨hnone, -⟩
  · obtain rfl := h.sound.names he he'
    rw [e, h.sound.place he he']
  · exact absurd he (hnone _ _)

/-- A walk from the root can be followed. -/
theorem walk_eq_ok (h : Base s.toDisk) {names : List (List UInt8)}
    (hnul : ∀ name ∈ names, ∀ b ∈ name, b ≠ 0) (hw : (space s.toDisk).Walk 0 names i) :
    walk s 0 names = .ok i := by
  induction hw with
  | here => rfl
  | @step names p c k name hw he ih =>
      have hp := ih fun a ha => hnul a (List.mem_append_left _ ha)
      have hnum := dentryToNum_of_entry h (hnul name (by simp)) he
      rw [walk_append, hp]
      dsimp only
      rw [walk_singleton, hnum, if_neg (by omega), retrieveInode_of_allocated (h.sound.target he).1]

/-- A path leads to an inode if and only if its components do. -/
theorem getInodeFromPath_iff (h : Base s.toDisk) {path : List UInt8} (hpath : ∀ c ∈ path, c ≠ 0) :
    getInodeFromPath s path = .ok i ↔ (space s.toDisk).Walk 0 (strtok path) i := by
  refine ⟨getInodeFromPath_walk h hpath, fun hw => ?_⟩
  rw [getInodeFromPath_eq h]
  exact walk_eq_ok h (fun comp hcomp c hc => hpath c (mem_of_mem_strtok hcomp hc)) hw

theorem Base.walk_unique (h : Base d) {as bs : List (List UInt8)} (ha : (space d).Walk 0 as i)
    (hb : (space d).Walk 0 bs i) : as = bs := by
  refine h.sound.walk_unique (fun he he' => ?_) ha hb
  exact (Prod.mk.inj (Option.some.inj (he.2.2.symm.trans he'.2.2))).1

/-- The two path resolvers agree in every state, on every absolute path that is not all
slashes: the lookup of `wfs_unlink` and `wfs_rmdir` finds the inode, or returns the error,
of `get_inode_from_path`.  So `wfs_rmdir`, and `wfs_unlink` for a leaf without a dot name,
fail as `wfs_getattr` does, or act on the inode that it describes. -/
theorem resolvers_agree (s : Fs) {path : List UInt8} (hhead : path.head? = some slash)
    (hleaf : ∃ c ∈ path, c ≠ slash) :
    (resolveLeaf s path).map Prod.snd = getInodeFromPath s path ∧
    ∀ (raw : CString) (env : Env), cleanPath raw.bytes = path →
      (∀ e, getInodeFromPath s path = .error e →
        wfsGetattr s raw.bytes = .error e ∧ wfsRmdir s raw.bytes env = (e, s) ∧
        (basename path ≠ [46] → basename path ≠ [46, 46] → wfsUnlink s raw.bytes env = (e, s))) ∧
      ∀ i, getInodeFromPath s path = .ok i → ∃ parent,
        wfsRmdir s raw.bytes env = rmdirAt s parent i env ∧
        (basename path ≠ [46] → basename path ≠ [46, 46] →
          wfsUnlink s raw.bytes env = unlinkAt s parent i env) := by
  have heq := resolveLeaf_eq s hhead hleaf
  obtain ⟨hsplit, -⟩ := splitPath_of_leaf hhead hleaf
  have hroot : path ≠ [slash] := by
    rintro rfl
    obtain ⟨c, hc, hne⟩ := hleaf
    exact hne (List.mem_singleton.mp hc)
  refine ⟨heq, ?_⟩
  rintro raw env rfl
  have hrmdir : wfsRmdir s raw.bytes env = _ := (wfsRmdir_eq_resolveLeaf s raw.bytes env).trans
    (if_neg hroot)
  have hunlink : basename (cleanPath raw.bytes) ≠ [46] → basename (cleanPath raw.bytes) ≠ [46, 46] →
      wfsUnlink s raw.bytes env = afterLookup s (resolveLeaf s (cleanPath raw.bytes))
        fun parent i => unlinkAt s parent i env := by
    intro h₁ h₂
    rw [wfsUnlink_eq_resolveLeaf, hsplit]
    exact if_neg (not_or.mpr ⟨h₁, h₂⟩)
  rw [← heq]
  rcases hfound : resolveLeaf s (cleanPath raw.bytes) with e | ⟨parent, i⟩
  · rw [hfound] at heq hrmdir hunlink
    refine ⟨fun e' he => ?_, fun i hi => by cases hi⟩
    cases he
    refine ⟨?_, hrmdir, hunlink⟩
    rw [wfsGetattr, ← heq]
    rfl
  · rw [hfound] at hrmdir hunlink
    refine ⟨fun e he => (by cases he), fun i' hi => ?_⟩
    cases hi
    exact ⟨parent, hrmdir, hunlink⟩

/-- The path "//f/" on the small image, which has a file "/f". -/
theorem resolvers_agree_file :
    (resolveLeaf (run (mount smallDisk) smallOps) [47, 47, 102, 47]).map Prod.snd = .ok 1 := by
  have hf : ∃ c ∈ [(47 : UInt8), 47, 102, 47], c ≠ slash := ⟨102, by decide, by decide⟩
  rw [(resolvers_agree (run (mount smallDisk) smallOps) rfl hf).1]
  decide +kernel

/-- After a successful `wfs_unlink` its path leads to no file. -/
theorem wfsUnlink_walk {path : List UInt8} {env : Env} (h : Base s.toDisk)
    (hpath : ∀ c ∈ path, c ≠ 0) (hok : (wfsUnlink s path env).1 = 0)
    (hw : (space (wfsUnlink s path env).2.toDisk).Walk 0 (strtok (cleanPath path)) i) :
    isDir ((wfsUnlink s path env).2.inodes i).mode = true := by
  have hcases : (wfsUnlink s path env).1 < 0 ∧ _ ∨ _ := wfsUnlink_cases h hpath
  obtain ⟨dir, name, p, idx, c, hs, hpd, -, hr⟩ := (hcases.resolve_left fun hneg => by omega).2
  have hclean := cleanPath_nul_free hpath
  rcases splitPath_strtok hs with ⟨hall, -⟩ | ⟨-, htok⟩
  · -- a path of slashes only leads to the root
    obtain rfl := hr.base.sound.walk_target hw .here (strtok_of_slashes hall)
    exact hr.base.root.2
  · -- the way to the file goes through the entry that has been cleared
    have hparent := (parentDir_eq_ok hpd).1
    rw [getInodeFromPath_eq h] at hparent
    have hcomps : ∀ comp ∈ strtok dir, ∀ c ∈ comp, c ≠ 0 := fun comp hcomp c hc =>
      hclean c (mem_of_mem_strtok (by rw [htok]; exact List.mem_append_left _ hcomp) hc)
    have hold := (walk_walk h hcomps .here hparent).step hr.entry
    rw [hr.space, htok] at hw
    exact absurd hw (h.sound.walk_remove hr.entry hold)

/-! ### Files that only some paths lead to -/

/-- `i` is no directory, and all names that lead to it are in `N`.  An inode that no
names lead to any more is hidden in any case. -/
def Hidden (N : List (List UInt8) → Prop) (d : Disk) (i : Nat) : Prop :=
  isDir (d.inodes i).mode = false ∧ ∀ names, (space d).Walk 0 names i → N names

variable {N : List (List UInt8) → Prop}

/-- An operation opens no way to an inode that stays. -/
theorem Effect.walk (e : Effect op d d') (h : Base d) (hi : Allocated d i) {names : List (List UInt8)}
    (hw : (space d').Walk 0 names i) : (space d).Walk 0 names i := by
  cases e with
  | calm hc => rwa [hc.quiet.space] at hw
  | undone hu => rwa [(hu.calm_space h).1.space] at hw
  | created p idx name c dir _ hc =>
      rw [hc.space] at hw
      exact h.sound.walk_create hc.fresh hw (ne_of_free hc.fresh hi)
  | removed p idx name c _ hr =>
      rw [hr.space] at hw
      exact Space.Walk.mono (T := ((space d).removeEntry p idx).removeNode c) (fun _ _ _ _ he => he.1.1) hw

/-- A file that stays is as hidden as before. -/
theorem Effect.hidden (e : Effect op d d') (h : Base d) (hi : Allocated d i)
    (hdir : isDir (d'.inodes i).mode = isDir (d.inodes i).mode) (hidden : Hidden N d i) :
    Hidden N d' i :=
  ⟨hdir.trans hidden.1, fun names hw => hidden.2 names (e.walk h hi hw)⟩

/-- The file a path in `N` leads to. -/
theorem hidden_of_path (h : Base s.toDisk) {path : List UInt8} (hpath : ∀ c ∈ path, c ≠ 0)
    (hp : getInodeFromPath s path = .ok i) (hfile : isDir (s.inodes i).mode = false)
    (hN : N (strtok path)) : Hidden N s.toDisk i := by
  refine ⟨hfile, fun names hw => ?_⟩
  rwa [h.walk_unique hw (getInodeFromPath_walk h hpath hp)]

end SystemsPortfolio.Wfs
