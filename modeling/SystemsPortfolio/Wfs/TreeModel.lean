/-
SystemsPortfolio/Wfs/TreeModel.lean

The file system as its users know it: a tree of named files and directories.

`FileTree` is what WFS is for: every list of names leads to nothing, to a directory
or to a file with its bytes.  Inode numbers, directory slots, data blocks, bitmaps
and the times of the inodes are not part of it.

`FileTree.lookup`, `newPlace` and `leaf` say on the tree what `get_inode_from_path`
and the two ways of splitting a path do, with their error codes.  `FileTree.Step` gives
for every FUSE operation its return value and the tree afterwards, without a word about
inodes or blocks.  Creating may fail for want of space and a write may stop after part
of its bytes; these are the only places where the tree does not determine the result.
-/
import SystemsPortfolio.Lib.TreeView
import SystemsPortfolio.Wfs.Operations

namespace SystemsPortfolio.Wfs

open NameTree

/-! ### Trees -/

/-- What a directory or a file holds.  The bytes of a file go on beyond its size: they are
seen when a later write moves the end of the file over them. -/
inductive Body
  | dir
  | file (size : Int) (bytes : Nat → UInt8)

/-- What a list of names leads to. -/
structure Node where
  mode : BitVec 32
  uid : BitVec 32
  gid : BitVec 32
  color : Color
  body : Body

def Node.isDir (n : Node) : Bool :=
  match n.body with
  | .dir => true
  | .file _ _ => false

/-- The tree a client of the file system works with. -/
abbrev FileTree := List (List UInt8) → Option Node

/-! ### Looking paths up -/

/-- What a path leads to, or the error of the lookup. -/
def FileTree.lookup (t : FileTree) (path : List UInt8) : Except Int Node :=
  find Node.isDir (-ENOENT) (-ENOTDIR) t (strtok path)

/-- The way to the directory a path's leaf is in, and the leaf's name. -/
def FileTree.parent (t : FileTree) (path : List UInt8) :
    Except Int (List (List UInt8) × List UInt8) :=
  match splitPath path with
  | .error e => .error e
  | .ok (dir, name) =>
      match t.lookup dir with
      | .error e => .error e
      | .ok n => if n.isDir = false then .error (-ENOTDIR) else .ok (strtok dir, name)

/-- Where `wfs_mknod` and `wfs_mkdir` put what they create. -/
def FileTree.newPlace (t : FileTree) (path : List UInt8) :
    Except Int (List (List UInt8) × List UInt8) :=
  match t.parent path with
  | .error e => .error e
  | .ok (dir, name) =>
      match t (dir ++ [name]) with
      | some _ => .error (-EEXIST)
      | none => .ok (dir, name)

/-- What `wfs_unlink` and `wfs_rmdir` find at the end of a path. -/
def FileTree.leaf (t : FileTree) (path : List UInt8) : Except Int (List (List UInt8) × Node) :=
  match t.parent path with
  | .error e => .error e
  | .ok (dir, name) =>
      match t (dir ++ [name]) with
      | none => .error (-ENOENT)
      | some n => .ok (dir ++ [name], n)

/-! ### The operations on a tree -/

/-- `wfs_mknod` and `wfs_mkdir`: put the node `n` at the end of the path. -/
def FileTree.Create (t : FileTree) (path : List UInt8) (n : Node) (r : Int) (t' : FileTree) : Prop :=
  match t.newPlace (cleanPath path) with
  | .error e => r = e ∧ t' = t
  | .ok (dir, name) =>
      (r = 0 ∧ name.length < 28 ∧ t' = Function.update t (dir ++ [name]) (some n)) ∨
      ((r = -ENOSPC ∨ r = -ENAMETOOLONG ∧ 28 ≤ name.length) ∧ t' = t)

/-- What was just created: the colour is not set. -/
def newNode (env : Env) (mode : BitVec 32) (body : Body) : Node := ⟨mode, env.uid, env.gid, .none, body⟩

/-- `wfs_unlink`. -/
def FileTree.unlink (t : FileTree) (path : List UInt8) : Int × FileTree :=
  match splitPath (cleanPath path) with
  | .error e => (e, t)
  | .ok (_, name) =>
      if name = [46] ∨ name = [46, 46] then (-EPERM, t)
      else
        match t.leaf (cleanPath path) with
        | .error e => (e, t)
        | .ok (names, n) =>
            if n.isDir then (-EISDIR, t) else (0, Function.update t names none)

open Classical in
/-- `wfs_rmdir`. -/
noncomputable def FileTree.rmdir (t : FileTree) (path : List UInt8) : Int × FileTree :=
  if cleanPath path = [slash] then (-EBUSY, t)
  else
    match t.leaf (cleanPath path) with
    | .error e => (e, t)
    | .ok (names, n) =>
        if n.isDir = false then (-ENOTDIR, t)
        else if ∃ name, t (names ++ [name]) ≠ none then (-ENOTEMPTY, t)
        else (0, Function.update t names none)

/-- The bytes of a file after `buf` has been written at `o`. -/
def overwrite (bytes : Nat → UInt8) (o : Nat) (buf : List UInt8) (x : Nat) : UInt8 :=
  if o ≤ x ∧ x < o + buf.length then buf.getD (x - o) 0 else bytes x

/-- `wfs_write`.  A write that runs out of space keeps what it has copied, and the size of the
file stays as it was. -/
def FileTree.Write (t : FileTree) (path buf : List UInt8) (o : Nat) (r : Int) (t' : FileTree) : Prop :=
  match t.lookup (cleanPath path) with
  | .error e => r = e ∧ t' = t
  | .ok n =>
      match n.body with
      | .dir => r = -EISDIR ∧ t' = t
      | .file size bytes =>
          (r = buf.length ∧ t' = Function.update t (strtok (cleanPath path))
            (some { n with body := .file (max size (o + buf.length : Nat)) (overwrite bytes o buf) })) ∨
          (r = -ENOSPC ∧ ∃ k < buf.length, t' = Function.update t (strtok (cleanPath path))
            (some { n with body := .file size (overwrite bytes o (buf.take k)) }))

/-- The bytes a read delivers. -/
def readBytes (size : Int) (bytes : Nat → UInt8) (o len : Nat) : List UInt8 :=
  (List.range' o (min (o + len) size.toNat - o)).map bytes

/-- `wfs_read`: the return value and the bytes. -/
def FileTree.read (t : FileTree) (path : List UInt8) (len o : Nat) : Int × List UInt8 :=
  match t.lookup (cleanPath path) with
  | .error e => (e, [])
  | .ok n =>
      match n.body with
      | .dir => (-EISDIR, [])
      | .file size bytes => (cInt (readBytes size bytes o len).length, readBytes size bytes o len)

/-- Give what the path leads to another colour. -/
def FileTree.recolor (t : FileTree) (path : List UInt8) (color : Except Int Color) : Int × FileTree :=
  match t.lookup (cleanPath path) with
  | .error e => (e, t)
  | .ok n =>
      match color with
      | .error e => (e, t)
      | .ok c => (0, Function.update t (strtok (cleanPath path)) (some { n with color := c }))

/-- The colour that the value of "user.color" names. -/
def colorValue : Option (List UInt8) → Except Int Color
  | none => .error (-EINVAL)
  | some bytes =>
      if bytes.length = 0 then .error (-EINVAL)
      else if 32 ≤ bytes.length then .error (-ERANGE)
      else
        match parseColorName (bytes.takeWhile (· ≠ 0)) with
        | none => .error (-EINVAL)
        | some color => .ok color

/-- `wfs_getxattr`: the return value and what is copied. -/
def FileTree.getxattr (t : FileTree) (path name : List UInt8) (size : Nat) : Int × List UInt8 :=
  if name ≠ userColor then (-ENOTSUP, [])
  else
    match t.lookup (cleanPath path) with
    | .error e => (e, [])
    | .ok n =>
        let cname := colorName n.color
        if size = 0 then (cname.length, [])
        else if size < cname.length then (-ERANGE, [])
        else (cname.length, if cname.length < size then cname ++ [0] else cname)

/-- One operation on a tree: its return value and the tree afterwards. -/
def FileTree.Step (env : Env) (op : Op) (t : FileTree) (r : Int) (t' : FileTree) : Prop :=
  match op with
  | .getattr path => (r = match t.lookup (cleanPath path.bytes) with
      | .error e => e
      | .ok _ => 0) ∧ t' = t
  | .mknod path mode =>
      t.Create path.bytes (newNode env (0o100000#32 ||| (mode &&& 0o777#32)) (.file 0 fun _ => 0)) r t'
  | .mkdir path mode =>
      t.Create path.bytes (newNode env (0o040000#32 ||| (mode &&& 0o777#32)) .dir) r t'
  | .read path len off => r = (t.read path.bytes len off.toNat).1 ∧ t' = t
  | .write path buf off => t.Write path.bytes buf off.toNat r t'
  | .readdir path => (r = match t.lookup (cleanPath path.bytes) with
      | .error e => e
      | .ok n => if n.isDir = false then -ENOTDIR else 0) ∧ t' = t
  | .unlink path => (r, t') = t.unlink path.bytes
  | .rmdir path => (r, t') = t.rmdir path.bytes
  | .statfs => r = 0 ∧ t' = t
  | .setxattr path name value =>
      if name.bytes ≠ userColor then r = -ENOTSUP ∧ t' = t
      else (r, t') = t.recolor path.bytes (colorValue value)
  | .getxattr path name size => r = (t.getxattr path.bytes name.bytes size).1 ∧ t' = t
  | .removexattr path name =>
      if name.bytes ≠ userColor then r = -ENOTSUP ∧ t' = t
      else (r, t') = t.recolor path.bytes (.ok .none)

/-- Offsets are those of an `off_t` that is not negative, and the end of a read is one too. -/
def Op.InRange : Op → Prop
  | .read _ len off => 0 ≤ off ∧ off + len < 2 ^ 63
  | .write _ _ off => 0 ≤ off ∧ off < 2 ^ 63
  | _ => True

instance (op : Op) : Decidable op.InRange := by
  cases op <;> unfold Op.InRange <;> infer_instance

/-- A run on a tree: the operations, what each returns, and the tree at the end. -/
inductive FileTree.Run : FileTree → List (Env × Op) → List Int → FileTree → Prop
  | nil (t : FileTree) : FileTree.Run t [] [] t
  | cons {t t' t'' : FileTree} {env : Env} {op : Op} {r : Int} {ops : List (Env × Op)} {rs : List Int}
      (hstep : t.Step env op r t') (hrun : FileTree.Run t' ops rs t'') :
      FileTree.Run t ((env, op) :: ops) (r :: rs) t''

end SystemsPortfolio.Wfs
