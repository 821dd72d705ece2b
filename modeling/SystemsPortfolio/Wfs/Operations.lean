/-
SystemsPortfolio/Wfs/Operations.lean

The FUSE operations of `wfs.c`, and runs of them.

Each operation takes the raw path, cleans it as the source does, and returns
the value FUSE would see together with the new file system.  `time(NULL)` is
asked for at several places of one operation; `env.now k` is its value at the
`k`-th of them.  Memory for the path copies is assumed to be available.
-/
import SystemsPortfolio.Wfs.Directory

namespace SystemsPortfolio.Wfs

open ByteStore

/-! ### Colours -/

/-- `color_table`. -/
def colorTable : List (List UInt8 × Color) :=
  [([110, 111, 110, 101], .none),
   ([114, 101, 100], .red),
   ([103, 114, 101, 101, 110], .green),
   ([98, 108, 117, 101], .blue),
   ([121, 101, 108, 108, 111, 119], .yellow),
   ([109, 97, 103, 101, 110, 116, 97], .magenta),
   ([99, 121, 97, 110], .cyan),
   ([119, 104, 105, 116, 101], .white),
   ([98, 108, 97, 99, 107], .black),
   ([111, 114, 97, 110, 103, 101], .orange),
   ([112, 117, 114, 112, 108, 101], .purple),
   ([103, 114, 97, 121], .gray)]

/-- `tolower` in the C locale. -/
def tolower (c : UInt8) : UInt8 := if 65 ≤ c ∧ c ≤ 90 then c + 32 else c

/-- `parse_color_name`. -/
def parseColorName (str : List UInt8) : Option Color :=
  let buf := (str.take 31).map tolower
  (colorTable.find? fun e => e.1 = buf).map Prod.snd

/-- The `ansi` column of the table in `wfs_color_from_code`. -/
def colorAnsi : Color → List UInt8
  | .none => []
  | .red => [27, 91, 51, 49, 109]
  | .green => [27, 91, 51, 50, 109]
  | .blue => [27, 91, 51, 52, 109]
  | .yellow => [27, 91, 51, 51, 109]
  | .magenta => [27, 91, 51, 53, 109]
  | .cyan => [27, 91, 51, 54, 109]
  | .white => [27, 91, 51, 55, 109]
  | .black => [27, 91, 51, 48, 109]
  | .orange => [27, 91, 51, 56, 59, 53, 59, 50, 48, 56, 109]
  | .purple => [27, 91, 51, 53, 109]
  | .gray => [27, 91, 57, 48, 109]

/-- The `name` column of the table in `wfs_color_from_code`. -/
def colorName (c : Color) : List UInt8 :=
  ((colorTable.find? fun e => e.2 = c).map Prod.fst).getD []

/-! ### Looking up the parent -/

/-- Resolve a parent path and require a directory. -/
def parentDir (s : Fs) (parentPath : List UInt8) : Except Int Nat :=
  match getInodeFromPath s parentPath with
  | .error e => .error e
  | .ok parent => if isDir (s.inodes parent).mode = false then .error (-ENOTDIR) else .ok parent

/-! ### Creating -/

/-- `wfs_error ? wfs_error : -ENOSPC`. -/
def errorCode (s : Fs) : Int := if s.wfsError ≠ 0 then s.wfsError else -ENOSPC

/-- `wfs_mknod`. -/
def wfsMknod (s : Fs) (path : List UInt8) (mode : BitVec 32) (env : Env) : Int × Fs :=
  let mode := if !isReg mode && !isFifo mode then 0o100000#32 ||| (mode &&& 0o777#32) else mode
  match splitPath (cleanPath path) with
  | .error e => (e, s)
  | .ok (parentPath, name) =>
      match parentDir s parentPath with
      | .error e => (e, s)
      | .ok parent =>
          if 0 ≤ dentryToNum s name parent then (-EEXIST, s)
          else
            match allocateInode s (env.now 0) with
            | (none, s₁) => (errorCode s₁, s₁)
            | (some i, s₁) =>
                let s₂ := fillinInode s₁ i (0o100000#32 ||| (mode &&& 0o777#32)) env (env.now 1)
                let (rc, s₃) := addDentry s₂ parent (s₂.inodes i).num name (env.now 2)
                if rc < 0 then (rc, freeInode s₃ i) else (0, s₃)

/-- `inode->nlinks += n`. -/
def addLinks (s : Fs) (i : Nat) (n : Int) : Fs :=
  s.setInode i { s.inodes i with nlinks := (s.inodes i).nlinks + n }

/-- `wfs_mkdir`. -/
def wfsMkdir (s : Fs) (path : List UInt8) (mode : BitVec 32) (env : Env) : Int × Fs :=
  match splitPath (cleanPath path) with
  | .error e => (e, s)
  | .ok (parentPath, name) =>
      match parentDir s parentPath with
      | .error e => (e, s)
      | .ok parent =>
          if 0 ≤ dentryToNum s name parent then (-EEXIST, s)
          else
            match allocateInode s (env.now 0) with
            | (none, s₁) => (errorCode s₁, s₁)
            | (some i, s₁) =>
                let s₂ := fillinInode s₁ i (0o040000#32 ||| (mode &&& 0o777#32)) env (env.now 1)
                let s₃ := s₂.setInode i { s₂.inodes i with nlinks := 2 }
                let s₄ := addLinks s₃ parent 1
                let (rc, s₅) := addDentry s₄ parent (s₄.inodes i).num name (env.now 2)
                if rc < 0 then (rc, addLinks (freeInode s₅ i) parent (-1)) else (0, s₅)

/-! ### Reading and writing -/

/-- A result of `off_t` arithmetic. -/
def offT (x : Int) : Int := Int.bmod x (2 ^ 64)

/-- How many of `rest` bytes are copied in one round at offset `curOff`: no more
than up to the end of the block. -/
def chunkLen (curOff : Int) (rest : Nat) : Nat := min rest (512 - curOff.tmod 512).toNat

/-- The loop of `wfs_read`, from `done` bytes on; `fuel` bounds its rounds. -/
def readLoop (i : Nat) (off : Int) (toRead : Nat) : Nat → Nat → Fs → List UInt8 × Fs
  | 0, _, s => ([], s)
  | fuel + 1, done, s =>
      if done < toRead then
        let curOff := offT (off + done)
        let (ptr, s₁) := dataOffset s i curOff false
        let chunk := chunkLen curOff (toRead - done)
        let bytes := match ptr with
          | none => List.replicate chunk 0
          | some a => load s₁.data a chunk
        let (rest, s₂) := readLoop i off toRead fuel (done + chunk) s₁
        (bytes ++ rest, s₂)
      else ([], s)

/-- `wfs_read`: the return value, the bytes put into the caller's buffer, and
the new file system. -/
def wfsRead (s : Fs) (path : List UInt8) (len : Nat) (off : Int) (env : Env) :
    Int × List UInt8 × Fs :=
  match getInodeFromPath s (cleanPath path) with
  | .error e => (e, [], s)
  | .ok i =>
      if isDir (s.inodes i).mode then (-EISDIR, [], s)
      else if off ≥ (s.inodes i).size then (0, [], s)
      else
        let toRead :=
          if offT (off + len) > (s.inodes i).size then sizeT ((s.inodes i).size - off) else len
        let (bytes, s₁) := readLoop i off toRead toRead 0 s
        let s₂ := if 0 < bytes.length
          then s₁.setInode i (wfsUpdateTimes (s₁.inodes i) (env.now 0) true false false) else s₁
        (cInt bytes.length, bytes, s₂)

/-- The loop of `wfs_write`, from `done` bytes on: `none` when a block is
missing and cannot be had.  `fuel` bounds the rounds. -/
def writeLoop (i : Nat) (buf : List UInt8) (off : Int) : Nat → Nat → Fs → Option Nat × Fs
  | 0, done, s => (some done, s)
  | fuel + 1, done, s =>
      if done < buf.length then
        let curOff := offT (off + done)
        match dataOffset s i curOff true with
        | (none, s₁) => (none, s₁)
        | (some a, s₁) =>
            let chunk := chunkLen curOff (buf.length - done)
            let s₂ := { s₁ with data := store s₁.data a ((buf.drop done).take chunk) }
            writeLoop i buf off fuel (done + chunk) s₂
      else (some done, s)

/-- `wfs_write` of the bytes `buf`. -/
def wfsWrite (s : Fs) (path : List UInt8) (buf : List UInt8) (off : Int) (env : Env) : Int × Fs :=
  match getInodeFromPath s (cleanPath path) with
  | .error e => (e, s)
  | .ok i =>
      if isDir (s.inodes i).mode then (-EISDIR, s)
      else
        match writeLoop i buf off buf.length 0 s with
        | (none, s₁) => (errorCode s₁, s₁)
        | (some done, s₁) =>
            let newEnd := offT (off + done)
            let ino := s₁.inodes i
            let ino := { ino with size := if newEnd > ino.size then newEnd else ino.size }
            let ino := if 0 < done then wfsUpdateTimes ino (env.now 0) false true true else ino
            (cInt done, s₁.setInode i ino)

/-! ### Listing -/

/-- The name `wfs_readdir` hands to the filler for entry `idx`. -/
def listedName (s : Fs) (i idx : Nat) (env : Env) : List UInt8 :=
  let name := (entryName s.toDisk i idx).takeWhile (· ≠ 0)
  match retrieveInode s (entryNum s.toDisk i idx) with
  | none => name
  | some child =>
      if env.isLs ∧ (s.inodes child).color ≠ .none then
        -- `snprintf` into `char decorated[MAX_NAME + 64]`
        (colorAnsi (s.inodes child).color ++ name ++ [27, 91, 48, 109]).take 91
      else name

/-- `wfs_readdir`: the return value, the names handed to the filler, and the new
file system. -/
def wfsReaddir (s : Fs) (path : List UInt8) (env : Env) : Int × List (List UInt8) × Fs :=
  match getInodeFromPath s (cleanPath path) with
  | .error e => (e, [], s)
  | .ok i =>
      if isDir (s.inodes i).mode = false then (-ENOTDIR, [], s)
      else
        let listed := (dirEntries (s.inodes i).size).filter fun idx =>
          hasEntry s.toDisk i idx && !entryFree s.toDisk i idx
        let names := [46] :: [46, 46] :: listed.map fun idx => listedName s i idx env
        (0, names, s.setInode i (wfsUpdateTimes (s.inodes i) (env.now 0) true false false))

/-! ### Deleting -/

/-- The loop of `wfs_unlink` and `wfs_rmdir` over the direct blocks. -/
def freeDirect (s : Fs) (i : Nat) : Fs :=
  (List.range 6).foldl (fun s k =>
    if (s.inodes i).blocks k ≠ 0 then (freeBlock s ((s.inodes i).blocks k)).setBlock i k 0 else s) s

/-- Their loop over the entries of the indirect block at `indOff`. -/
def freeEntries (s : Fs) (indOff : Int) : Fs :=
  (List.range 64).foldl (fun s (j : Nat) =>
    if loadInt s.data (indOff + 8 * (j : Int)) 8 ≠ 0 then
      let s' := freeBlock s (loadInt s.data (indOff + 8 * (j : Int)) 8)
      { s' with data := storeInt s'.data (indOff + 8 * (j : Int)) 8 0 }
    else s) s

/-- All of the freeing that `wfs_unlink` and `wfs_rmdir` both spell out. -/
def freeBlocksOf (s : Fs) (i : Nat) : Fs :=
  let s₁ := freeDirect s i
  if (s₁.inodes i).blocks 7 ≠ 0 then
    let s₂ := freeEntries s₁ ((s₁.inodes i).blocks 7)
    (freeBlock s₂ ((s₂.inodes i).blocks 7)).setBlock i 7 0
  else s₁

/-- `inode->mtim = inode->ctim = now`. -/
def touch (s : Fs) (i : Nat) (now : Int) : Fs :=
  s.setInode i (wfsUpdateTimes (s.inodes i) now false true true)

/-- `wfs_unlink`. -/
def wfsUnlink (s : Fs) (path : List UInt8) (env : Env) : Int × Fs :=
  match splitPath (cleanPath path) with
  | .error e => (e, s)
  | .ok (parentPath, name) =>
      if name = [46] ∨ name = [46, 46] then (-EPERM, s)
      else
        match parentDir s parentPath with
        | .error e => (e, s)
        | .ok parent =>
            if dentryToNum s name parent < 0 then (dentryToNum s name parent, s)
            else
              match retrieveInode s (dentryToNum s name parent) with
              | none => (-ENOENT, s)
              | some i =>
                  if isDir (s.inodes i).mode then (-EISDIR, s)
                  else
                    let (rc, s₁) := removeDentry s parent (dentryToNum s name parent) (env.now 0)
                    if rc < 0 then (rc, s₁)
                    else
                      let s₂ := addLinks s₁ i (-1)
                      let s₃ := if (s₂.inodes i).nlinks ≤ 0 then freeInode (freeBlocksOf s₂ i) i
                        else s₂
                      (0, touch s₃ parent (env.now 1))

/-- The emptiness loop of `wfs_rmdir`: is there an entry in use that is not
called "." or ".."? -/
def hasOtherEntry (s : Fs) (i : Nat) : Bool :=
  (dirEntries (s.inodes i).size).any fun idx =>
    hasEntry s.toDisk i idx && !entryFree s.toDisk i idx &&
      !(strncmpEq 28 (entryName s.toDisk i idx) [46] ||
        strncmpEq 28 (entryName s.toDisk i idx) [46, 46])

/-- `wfs_rmdir`. -/
def wfsRmdir (s : Fs) (path : List UInt8) (env : Env) : Int × Fs :=
  if cleanPath path = [slash] then (-EBUSY, s)
  else
    match splitPath (cleanPath path) with
    | .error e => (e, s)
    | .ok (parentPath, name) =>
        match parentDir s parentPath with
        | .error e => (e, s)
        | .ok parent =>
            if dentryToNum s name parent < 0 then (dentryToNum s name parent, s)
            else
              match retrieveInode s (dentryToNum s name parent) with
              | none => (-ENOENT, s)
              | some i =>
                  if isDir (s.inodes i).mode = false then (-ENOTDIR, s)
                  else if hasOtherEntry s i then (-ENOTEMPTY, s)
                  else
                    let (rc, s₁) := removeDentry s parent (dentryToNum s name parent) (env.now 0)
                    if rc < 0 then (rc, s₁)
                    else
                      let s₂ := addLinks s₁ parent (-1)
                      let s₃ := freeInode (freeBlocksOf s₂ i) i
                      (0, touch s₃ parent (env.now 1))

/-! ### Attributes -/

/-- The attribute name "user.color". -/
def userColor : List UInt8 := [117, 115, 101, 114, 46, 99, 111, 108, 111, 114]

/-- `valid_inum`. -/
def validInum (s : Fs) (inum : Int) : Bool := 0 ≤ inum ∧ inum.toNat < s.sb.numInodes

/-- Store a colour in inode `i` and stamp its change time. -/
def setColor (s : Fs) (i : Nat) (color : Color) (now : Int) : Fs :=
  s.setInode i (wfsUpdateTimes { s.inodes i with color := color } now false false true)

/-- `wfs_setxattr`; `value` is `none` for a null pointer and else holds the
`size` bytes of the value. -/
def wfsSetxattr (s : Fs) (path name : List UInt8) (value : Option (List UInt8)) (env : Env) :
    Int × Fs :=
  if name ≠ userColor then (-ENOTSUP, s)
  else
    match getInodeFromPath s (cleanPath path) with
    | .error e => (e, s)
    | .ok i =>
        if validInum s (s.inodes i).num = false then (-EINVAL, s)
        else
          match value with
          | none => (-EINVAL, s)
          | some bytes =>
              if bytes.length = 0 then (-EINVAL, s)
              else if 32 ≤ bytes.length then (-ERANGE, s)
              else
                match parseColorName (bytes.takeWhile (· ≠ 0)) with
                | none => (-EINVAL, s)
                | some color => (0, setColor s i color (env.now 0))

/-- `wfs_removexattr`. -/
def wfsRemovexattr (s : Fs) (path name : List UInt8) (env : Env) : Int × Fs :=
  if name ≠ userColor then (-ENOTSUP, s)
  else
    match getInodeFromPath s (cleanPath path) with
    | .error e => (e, s)
    | .ok i =>
        if validInum s (s.inodes i).num = false then (-EINVAL, s)
        else (0, setColor s i .none (env.now 0))

/-- `wfs_getxattr` into a buffer of `size` bytes: the return value and what is
copied. -/
def wfsGetxattr (s : Fs) (path name : List UInt8) (size : Nat) : Int × List UInt8 :=
  if name ≠ userColor then (-ENOTSUP, [])
  else
    match getInodeFromPath s (cleanPath path) with
    | .error e => (e, [])
    | .ok i =>
        if validInum s (s.inodes i).num = false then (-EINVAL, [])
        else
          let cname := colorName (s.inodes i).color
          if size = 0 then (cname.length, [])
          else if size < cname.length then (-ERANGE, [])
          else (cname.length, if cname.length < size then cname ++ [0] else cname)

/-! ### Status -/

/-- The fields of `struct stat` that `wfs_getattr` fills in, `st_blksize` apart, which is always
512. -/
structure Stat where
  mode : BitVec 32
  nlink : Int
  uid : BitVec 32
  gid : BitVec 32
  size : Int
  blocks : Int
  atime : Int
  mtime : Int
  ctime : Int

/-- `wfs_getattr`. -/
def wfsGetattr (s : Fs) (path : List UInt8) : Except Int Stat :=
  match getInodeFromPath s (cleanPath path) with
  | .error e => .error e
  | .ok i =>
      let ino := s.inodes i
      .ok { mode := ino.mode
            nlink := ino.nlinks
            uid := ino.uid
            gid := ino.gid
            size := ino.size
            blocks := (ino.size + 511).tdiv 512
            atime := ino.atim
            mtime := ino.mtim
            ctime := ino.ctim }

/-- The number of clear bits among the first `n` of a bitmap, as `wfs_statfs`
counts them. -/
def countFree (bitmap : WordSet.Words) (n : Nat) : Nat :=
  (List.range n).countP fun p => !bitmapTest p bitmap

/-- The fields of `struct statvfs` that `wfs_statfs` fills in. -/
structure Statvfs where
  bsize : Nat
  frsize : Nat
  blocks : Nat
  bfree : Nat
  bavail : Nat
  files : Nat
  ffree : Nat
  favail : Nat
  namemax : Nat

/-- `wfs_statfs`. -/
def wfsStatfs (s : Fs) : Statvfs :=
  let freeInodes := countFree s.ibm s.sb.numInodes
  let freeBlocks := countFree s.dbm s.sb.numDataBlocks
  { bsize := 512
    frsize := 512
    blocks := s.sb.numDataBlocks
    bfree := freeBlocks
    bavail := freeBlocks
    files := s.sb.numInodes
    ffree := freeInodes
    favail := freeInodes
    namemax := 28 }

/-! ### Runs -/

/-- The operations FUSE may ask for. -/
inductive Op
  | getattr (path : CString)
  | mknod (path : CString) (mode : BitVec 32)
  | mkdir (path : CString) (mode : BitVec 32)
  | read (path : CString) (len : Nat) (off : Int)
  | write (path : CString) (buf : List UInt8) (off : Int)
  | readdir (path : CString)
  | unlink (path : CString)
  | rmdir (path : CString)
  | statfs
  | setxattr (path name : CString) (value : Option (List UInt8))
  | getxattr (path name : CString) (size : Nat)
  | removexattr (path name : CString)

/-- One operation: its return value and the file system afterwards. -/
def exec (env : Env) (op : Op) (s : Fs) : Int × Fs :=
  match op with
  | .getattr path =>
      match wfsGetattr s path.bytes with
      | .error e => (e, s)
      | .ok _ => (0, s)
  | .mknod path mode => wfsMknod s path.bytes mode env
  | .mkdir path mode => wfsMkdir s path.bytes mode env
  | .read path len off =>
      ((wfsRead s path.bytes len off env).1, (wfsRead s path.bytes len off env).2.2)
  | .write path buf off => wfsWrite s path.bytes buf off env
  | .readdir path => ((wfsReaddir s path.bytes env).1, (wfsReaddir s path.bytes env).2.2)
  | .unlink path => wfsUnlink s path.bytes env
  | .rmdir path => wfsRmdir s path.bytes env
  | .statfs => (0, s)
  | .setxattr path name value => wfsSetxattr s path.bytes name.bytes value env
  | .getxattr path name size => ((wfsGetxattr s path.bytes name.bytes size).1, s)
  | .removexattr path name => wfsRemovexattr s path.bytes name.bytes env

/-- A mounted image before its first operation. -/
def mount (d : Disk) : Fs := { toDisk := d, wfsError := 0 }

/-- A sequence of operations, each with its surroundings. -/
def run (s : Fs) (ops : List (Env × Op)) : Fs := ops.foldl (fun s e => (exec e.1 e.2 s).2) s

/-- The values that the operations of a run return. -/
def values : Fs → List (Env × Op) → List Int
  | _, [] => []
  | s, e :: ops => (exec e.1 e.2 s).1 :: values (exec e.1 e.2 s).2 ops

/-- What holds at the start and is kept by every operation of a run holds at its
end. -/
theorem run_invariant {P : Fs → Prop} {s : Fs} {ops : List (Env × Op)} (h₀ : P s)
    (hstep : ∀ e ∈ ops, ∀ t, P t → P (exec e.1 e.2 t).2) : P (run s ops) := by
  induction ops generalizing s with
  | nil => exact h₀
  | cons e ops ih =>
      refine ih (hstep e List.mem_cons_self s h₀) fun e' he' => ?_
      exact hstep e' (List.mem_cons_of_mem _ he')

/-- Every operation of a run meets `C` in the state it starts from. -/
def Meets (C : Fs → Op → Prop) : Fs → List (Env × Op) → Prop
  | _, [] => True
  | s, e :: ops => C s e.2 ∧ Meets C (exec e.1 e.2 s).2 ops

theorem run_append (s : Fs) (ops ops' : List (Env × Op)) :
    run s (ops ++ ops') = run (run s ops) ops' :=
  List.foldl_append

/-- Where every operation keeps `B`, and keeps `P` and behaves as `Q` says if and only if it meets
`C`, the runs that meet `C` are those with `P` in every state and `Q` at every step. -/
theorem meets_steps_iff {B P : Fs → Prop} {Q : Fs → Env × Op → Prop} {C : Fs → Op → Prop}
    (hB : ∀ env op t, B t → B (exec env op t).2) {s : Fs} (hs : B s) (h₀ : P s)
    (ops : List (Env × Op))
    (hstep : ∀ e ∈ ops, ∀ t, B t → P t → ((P (exec e.1 e.2 t).2 ∧ Q t e) ↔ C t e.2)) :
    Meets C s ops ↔ (∀ pre, pre <+: ops → P (run s pre)) ∧
      ∀ pre e, pre ++ [e] <+: ops → Q (run s pre) e := by
  induction ops generalizing s with
  | nil =>
      refine ⟨fun _ => ⟨fun pre hpre => ?_, fun pre e hpre => ?_⟩, fun _ => trivial⟩
      · rwa [List.prefix_nil.mp hpre]
      · exact absurd (List.prefix_nil.mp hpre) (by simp)
  | cons e ops ih =>
      have hhead := hstep e List.mem_cons_self s hs h₀
      have htail : P (exec e.1 e.2 s).2 → _ := fun h₁ =>
        ih (hB _ _ _ hs) h₁ fun e' he' => hstep e' (List.mem_cons_of_mem _ he')
      constructor
      · rintro ⟨hc, hrest⟩
        obtain ⟨h₁, hq⟩ := hhead.mpr hc
        obtain ⟨hP, hQ⟩ := (htail h₁).mp hrest
        refine ⟨fun pre hpre => ?_, fun pre e' hpre => ?_⟩
        · rcases List.prefix_cons_iff.mp hpre with rfl | ⟨rest, rfl, hpre'⟩
          · exact h₀
          · exact hP rest hpre'
        · cases pre with
          | nil =>
              obtain ⟨rfl, -⟩ := List.cons_prefix_cons.mp hpre
              exact hq
          | cons e₁ rest =>
              obtain ⟨rfl, hpre'⟩ := List.cons_prefix_cons.mp hpre
              exact hQ rest e' hpre'
      · rintro ⟨hP, hQ⟩
        have h₁ : P (exec e.1 e.2 s).2 := hP [e] ⟨ops, rfl⟩
        refine ⟨hhead.mp ⟨h₁, hQ [] e ⟨ops, rfl⟩⟩, (htail h₁).mpr ⟨?_, ?_⟩⟩
        · exact fun pre hpre => hP (e :: pre) ((List.prefix_cons_inj e).mpr hpre)
        · exact fun pre e' hpre => hQ (e :: pre) e' ((List.prefix_cons_inj e).mpr hpre)

/-- Where every operation keeps `B`, and keeps `P` if and only if it meets `C`, the
runs that meet `C` are those with `P` all along. -/
theorem meets_iff {B P : Fs → Prop} {C : Fs → Op → Prop}
    (hB : ∀ env op t, B t → B (exec env op t).2)
    (hstep : ∀ env op t, B t → P t → (P (exec env op t).2 ↔ C t op))
    {s : Fs} (hs : B s) (h₀ : P s) (ops : List (Env × Op)) :
    Meets C s ops ↔ ∀ pre, pre <+: ops → P (run s pre) := by
  have hsteps := meets_steps_iff (Q := fun _ _ => True) hB hs h₀ ops fun e _ t ht hP =>
    (and_iff_left trivial).trans (hstep e.1 e.2 t ht hP)
  exact hsteps.trans (and_iff_left fun _ _ _ => trivial)

end SystemsPortfolio.Wfs
