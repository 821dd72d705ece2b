/-
SystemsPortfolio/Wfs/Directory.lean

Directories and path resolution: `dentry_to_num`, `add_dentry`,
`remove_dentry` and `get_inode_from_path`.

Entry `idx` of a directory is the `idx % 16`-th `struct wfs_dentry` of its
direct block `idx / 16`: 28 bytes of name, then the inode number as an `int`.
The loops of the source run over the indices below `size / 32` and break at
`D_BLOCK * 16 = 96`; `dirEntries` is the list of indices such a loop visits.
-/
import SystemsPortfolio.Wfs.Blocks
import SystemsPortfolio.Wfs.Path

namespace SystemsPortfolio.Wfs

open ByteStore

/-! ### Entries -/

/-- The address of entry `idx` of the directory `i`. -/
def entryAddr (d : Disk) (i idx : Nat) : Int :=
  (d.inodes i).blocks (idx / 16) + (idx % 16 : Nat) * 32

/-- `d->num`. -/
def entryNum (d : Disk) (i idx : Nat) : Int := loadInt d.data (entryAddr d i idx + 28) 4

/-- `d->name`, all `MAX_NAME` bytes of it. -/
def entryName (d : Disk) (i idx : Nat) : List UInt8 := load d.data (entryAddr d i idx) 28

/-- The block that holds entry `idx` has been allocated. -/
def hasEntry (d : Disk) (i idx : Nat) : Bool := (d.inodes i).blocks (idx / 16) ≠ 0

/-- The test `d->num == 0 || d->name[0] == '\0'` that marks an entry as unused. -/
def entryFree (d : Disk) (i idx : Nat) : Bool :=
  entryNum d i idx = 0 ∨ d.data (entryAddr d i idx) = 0

/-- The indices a loop over the entries of a directory of the given size visits. -/
def dirEntries (size : Int) : List Nat := List.range (min (sizeT size / 32) 96)

/-- `dentry_to_num`: the inode number, or a negative error. -/
def dentryToNum (s : Fs) (name : List UInt8) (i : Nat) : Int :=
  if isDir (s.inodes i).mode = false then -ENOTDIR
  else
    match (dirEntries (s.inodes i).size).find? fun idx =>
        hasEntry s.toDisk i idx && !entryFree s.toDisk i idx &&
          strncmpEq 28 (entryName s.toDisk i idx) name with
    | some idx => entryNum s.toDisk i idx
    | none => -ENOENT

/-! ### `add_dentry` -/

/-- The lazy allocation inside the loop of `add_dentry`: is there a block `k`
afterwards? -/
def growDir (s : Fs) (i k : Nat) : Bool × Fs :=
  if (s.inodes i).blocks k = 0 then
    let (newBlk, s₁) := allocateDataBlock s
    if newBlk = 0 then (false, s₁)
    else
      let s₂ := s₁.setBlock i k newBlk
      (true, { s₂ with data := fill s₂.data newBlk 512 0 })
  else (true, s)

/-- The bytes of `d->name` after the `memset` and the `strncpy` of `add_dentry`. -/
def nameField (name : List UInt8) : List UInt8 :=
  name.take 27 ++ List.replicate (28 - (name.take 27).length) 0

/-- Fill in entry `idx`, grow the directory's size and stamp its times. -/
def writeEntry (s : Fs) (i idx : Nat) (num : Int) (name : List UInt8) (now : Int) : Fs :=
  let a := entryAddr s.toDisk i idx
  let ino := s.inodes i
  let needed : Int := ((idx : Int) + 1) * 32
  let ino := { ino with size := if needed > ino.size then needed else ino.size }
  Fs.setInode { s with data := storeInt (store s.data a (nameField name)) (a + 28) 4 num } i
    (wfsUpdateTimes ino now false true true)

/-- The loop of `add_dentry` over the remaining indices. -/
def addDentryLoop (s : Fs) (i : Nat) (num : Int) (name : List UInt8) (now : Int) :
    List Nat → Int × Fs
  | [] => (-ENOSPC, s)
  | idx :: rest =>
      match growDir s i (idx / 16) with
      | (false, s₁) => (if s₁.wfsError ≠ 0 then s₁.wfsError else -ENOSPC, s₁)
      | (true, s₁) =>
          if entryFree s₁.toDisk i idx then (0, writeEntry s₁ i idx num name now)
          else addDentryLoop s₁ i num name now rest

/-- `add_dentry`. -/
def addDentry (s : Fs) (i : Nat) (num : Int) (name : List UInt8) (now : Int) : Int × Fs :=
  if isDir (s.inodes i).mode = false then (-ENOTDIR, s)
  else if 0 ≤ dentryToNum s name i then (-EEXIST, s)
  else
    -- `strnlen(name, MAX_NAME)`
    let nlen := min name.length 28
    if nlen = 0 ∨ 28 ≤ nlen then (-ENAMETOOLONG, s)
    else addDentryLoop s i num name now (List.range 96)

/-! ### `remove_dentry` -/

/-- Clear the number and the first name byte of entry `idx`, stamp the times. -/
def clearEntry (s : Fs) (i idx : Nat) (now : Int) : Fs :=
  let a := entryAddr s.toDisk i idx
  let data := storeInt s.data (a + 28) 4 0
  let data := if data a ≠ 0 then store data a [0] else data
  Fs.setInode { s with data := data } i (wfsUpdateTimes (s.inodes i) now false true true)

/-- `remove_dentry`. -/
def removeDentry (s : Fs) (i : Nat) (inum : Int) (now : Int) : Int × Fs :=
  if isDir (s.inodes i).mode = false then (-ENOTDIR, s)
  else
    match (dirEntries (s.inodes i).size).find? fun idx =>
        hasEntry s.toDisk i idx &&
          (entryNum s.toDisk i idx = inum ∧ entryNum s.toDisk i idx ≠ 0) with
    | some idx => (0, clearEntry s i idx now)
    | none => (-ENOENT, s)

/-! ### Path resolution -/

/-- The loop of `get_inode_from_path` over the path's components. -/
def walk (s : Fs) : Nat → List (List UInt8) → Except Int Nat
  | cur, [] => .ok cur
  | cur, comp :: rest =>
      if dentryToNum s comp cur < 0 then .error (dentryToNum s comp cur)
      else
        match retrieveInode s (dentryToNum s comp cur) with
        | none => .error (-ENOENT)
        | some next => walk s next rest

/-- `get_inode_from_path`: the inode, or a negative error. -/
def getInodeFromPath (s : Fs) (path : List UInt8) : Except Int Nat :=
  match retrieveInode s 0 with
  | none => .error (-ENOENT)
  | some cur =>
      if path = [slash] then .ok cur
      else walk s cur (strtok (if path.head? = some slash then path.tail else path))

end SystemsPortfolio.Wfs
