/-
SystemsPortfolio/Xv6/Files.lean

The open files of `file.c` and `sysfile.c`, and the descriptors of the processes.

`ftable` has an entry for each open file with the number of references to it; `dup`, `fork`
and `clone` share an entry, and the last `fileclose` gives it back.  A pipe has two entries,
one for each end, and its page is freed when both ends have been closed.

Descriptors are touched only by the process they belong to, or by its parent before it runs,
so what a call does to them is part of the step for the section under `ftable.lock` or the
lock of the pipe that it goes with.  Between two sections other processes run.  `fileclose`
copies an entry before it gives it back, so the entry can be in use again when `pipeclose` runs.
-/
import SystemsPortfolio.Lib.RefCount
import SystemsPortfolio.Lib.Transition

namespace SystemsPortfolio.Xv6

/-! ### Entries -/

/-- `NOFILE` -/
def nofile : Nat := 16

/-- What an entry stands for: a pipe at `p` or an inode `i`. -/
inductive FileType (π ι : Type)
  | none
  | pipe (p : π)
  | inode (i : ι)
  deriving DecidableEq

/-- `struct file`, the offset apart. -/
structure File (π ι : Type) where
  type : FileType π ι
  ref : Nat
  readable : Bool
  writable : Bool
  deriving DecidableEq

/-- The two ends of a pipe. -/
structure PipeEnds where
  readopen : Bool
  writeopen : Bool
  deriving DecidableEq

/-- Whether the end that `writable` names is open. -/
def PipeEnds.isOpen (e : PipeEnds) (writable : Bool) : Bool :=
  if writable then e.writeopen else e.readopen

/-- `pipeclose`: the pipe that is left, or none if its page is freed. -/
def PipeEnds.pipeclose (e : PipeEnds) (writable : Bool) : Option PipeEnds :=
  let e' : PipeEnds := if writable then { e with writeopen := false } else { e with readopen := false }
  if e'.readopen = false ∧ e'.writeopen = false then none else some e'

/-! ### Processes -/

/-- Where a process goes on when it has closed what it had to. -/
inductive FileCont
  | user
  /-- in the loop of `exit`, before descriptor `fd` -/
  | exiting (fd : Nat)
  deriving DecidableEq

/-- Where a process is; `τ` are the processes, `φ` the entries. -/
inductive FilePoint (τ φ π : Type)
  /-- an entry of the process table that is free -/
  | unused
  /-- a child that its parent is still making -/
  | embryo
  /-- in no call on files -/
  | user
  /-- in the loop of `fork` or `clone` that copies descriptors, before `fd` -/
  | forking (child : τ) (fd : Nat)
  /-- in `pipealloc`, with the first entry -/
  | pipe1 (rf : φ)
  /-- in `pipealloc`, with both entries -/
  | pipe2 (rf wf : φ)
  /-- in `sys_open`, with its entry -/
  | opening (f : φ)
  /-- about to call `fileclose` for `l`, one after the other -/
  | closing (l : List φ) (k : FileCont)
  /-- about to call `pipeclose`, and `fileclose` for `l` after it -/
  | pipeclose (p : π) (writable : Bool) (l : List φ) (k : FileCont)
  /-- in `piperead` or, if `writable`, in `pipewrite` for descriptor `fd` -/
  | piperw (writable : Bool) (fd : Fin nofile)
  | zombie

/-- The references that a process has in its hands, not in a descriptor. -/
def FilePoint.hand {τ φ π : Type} : FilePoint τ φ π → List φ
  | pipe1 rf => [rf]
  | pipe2 rf wf => [rf, wf]
  | opening f => [f]
  | closing l _ => l
  | pipeclose _ _ l _ => l
  | _ => []

/-- A process. -/
structure FileProc (τ φ π : Type) where
  ofile : Fin nofile → Option φ
  point : FilePoint τ φ π

/-- `fdalloc`: the lowest descriptor that is free. -/
def fdalloc {φ : Type} (ofile : Fin nofile → Option φ) : Option (Fin nofile) :=
  (List.finRange nofile).find? fun fd => (ofile fd).isNone

variable {τ π ι : Type} [DecidableEq τ] [DecidableEq π] {n : Nat}

/-- The table of files with its `n` entries, the pipes at their pages, and the processes. -/
structure FileState (τ π ι : Type) (n : Nat) where
  file : Fin n → File π ι
  pipe : π → Option PipeEnds
  proc : τ → FileProc τ (Fin n) π
  /-- a panic of `filedup` or `fileclose`, or a freed pipe is used -/
  fault : Bool

namespace FileState

variable (s : FileState τ π ι n)

def setProc (t : τ) (q : FileProc τ (Fin n) π) : FileState τ π ι n :=
  { s with proc := Function.update s.proc t q }

/-- Process `t` goes on at `p`. -/
def goto (t : τ) (p : FilePoint τ (Fin n) π) : FileState τ π ι n :=
  s.setProc t { s.proc t with point := p }

/-- Process `t` sets a descriptor. -/
def setFd (t : τ) (fd : Fin nofile) (o : Option (Fin n)) : FileState τ π ι n :=
  s.setProc t { s.proc t with ofile := Function.update (s.proc t).ofile fd o }

def setFile (f : Fin n) (x : File π ι) : FileState τ π ι n :=
  { s with file := Function.update s.file f x }

/-- The first entry of `ftable` that is free. -/
def freeFile : Option (Fin n) := (List.finRange n).find? fun f => (s.file f).ref = 0

/-- `filealloc` takes the entry `f`. -/
def filealloc (f : Fin n) : FileState τ π ι n := s.setFile f { s.file f with ref := 1 }

def filedup (f : Fin n) : FileState τ π ι n :=
  if (s.file f).ref < 1 then { s with fault := true }
  else s.setFile f { s.file f with ref := (s.file f).ref + 1 }

/-- `fileclose` by `t`, which has `l` to close after it.  An inode is put back by the layer below. -/
def fileclose (t : τ) (f : Fin n) (l : List (Fin n)) (k : FileCont) : FileState τ π ι n :=
  if (s.file f).ref < 1 then { s with fault := true }
  else if 1 < (s.file f).ref then
    (s.setFile f { s.file f with ref := (s.file f).ref - 1 }).goto t (.closing l k)
  else
    match (s.file f).type with
    | .pipe p => (s.setFile f { s.file f with ref := 0, type := .none }).goto t
        (.pipeclose p (s.file f).writable l k)
    | _ => (s.setFile f { s.file f with ref := 0, type := .none }).goto t (.closing l k)

/-- `pipeclose` by `t`. -/
def pipeclose (t : τ) (p : π) (writable : Bool) (l : List (Fin n)) (k : FileCont) :
    FileState τ π ι n :=
  match s.pipe p with
  | none => { s with fault := true }
  | some e => { s with pipe := Function.update s.pipe p (e.pipeclose writable) }.goto t (.closing l k)

/-- The end of `pipealloc` with the page `p`, and the rest of `sys_pipe`. -/
def sysPipe (t : τ) (rf wf : Fin n) (p : π) : FileState τ π ι n :=
  let s' := ({ s with pipe := Function.update s.pipe p (some ⟨true, true⟩) }.setFile rf
    { s.file rf with type := .pipe p, readable := true, writable := false }).setFile wf
    { s.file wf with type := .pipe p, readable := false, writable := true }
  match fdalloc (s.proc t).ofile with
  | none => s'.goto t (.closing [rf, wf] .user)
  | some fd0 =>
      match fdalloc (Function.update (s.proc t).ofile fd0 (some rf)) with
      | none => s'.goto t (.closing [rf, wf] .user)
      | some fd1 => ((s'.setFd t fd0 (some rf)).setFd t fd1 (some wf)).goto t .user

/-- The end of `sys_open` for the inode `i`. -/
def sysOpen (t : τ) (f : Fin n) (i : ι) (readable writable : Bool) : FileState τ π ι n :=
  match fdalloc (s.proc t).ofile with
  | none => s.goto t (.closing [f] .user)
  | some fd => ((s.setFile f { s.file f with type := .inode i, readable, writable }).setFd t fd
      (some f)).goto t .user

/-- `sys_dup` of the file `f`. -/
def sysDup (t : τ) (f : Fin n) : FileState τ π ι n :=
  match fdalloc (s.proc t).ofile with
  | none => s
  | some fd => (s.setFd t fd (some f)).filedup f

/-- One turn of the loop of `fork` or `clone` by `t`. -/
def forkFd (t child : τ) (fd : Fin nofile) : FileState τ π ι n :=
  match (s.proc t).ofile fd with
  | none => s.goto t (.forking child (fd.val + 1))
  | some f => ((s.goto t (.forking child (fd.val + 1))).filedup f).setFd child fd (some f)

/-- One turn of the loop of `exit` by `t`. -/
def exitFd (t : τ) (fd : Fin nofile) : FileState τ π ι n :=
  match (s.proc t).ofile fd with
  | none => s.goto t (.closing [] (.exiting (fd.val + 1)))
  | some f => (s.setFd t fd none).goto t (.closing [f] (.exiting (fd.val + 1)))

end FileState

/-- One step of a process. -/
inductive FileStep : FileState τ π ι n → FileState τ π ι n → Prop
  | dup (s : FileState τ π ι n) (t : τ) (fd : Fin nofile) (f : Fin n)
      (h : (s.proc t).point = .user) (hf : (s.proc t).ofile fd = some f) : FileStep s (s.sysDup t f)
  | close (s : FileState τ π ι n) (t : τ) (fd : Fin nofile) (f : Fin n)
      (h : (s.proc t).point = .user) (hf : (s.proc t).ofile fd = some f) :
      FileStep s ((s.setFd t fd none).goto t (.closing [f] .user))
  | fileclose (s : FileState τ π ι n) (t : τ) (f : Fin n) (l : List (Fin n)) (k : FileCont)
      (h : (s.proc t).point = .closing (f :: l) k) : FileStep s (s.fileclose t f l k)
  | pipeclose (s : FileState τ π ι n) (t : τ) (p : π) (w : Bool) (l : List (Fin n)) (k : FileCont)
      (h : (s.proc t).point = .pipeclose p w l k) : FileStep s (s.pipeclose t p w l k)
  | closed (s : FileState τ π ι n) (t : τ) (h : (s.proc t).point = .closing [] .user) :
      FileStep s (s.goto t .user)
  | exit (s : FileState τ π ι n) (t : τ) (h : (s.proc t).point = .user) :
      FileStep s (s.goto t (.closing [] (.exiting 0)))
  | exitFd (s : FileState τ π ι n) (t : τ) (fd : Fin nofile)
      (h : (s.proc t).point = .closing [] (.exiting fd.val)) : FileStep s (s.exitFd t fd)
  | exited (s : FileState τ π ι n) (t : τ) (h : (s.proc t).point = .closing [] (.exiting nofile)) :
      FileStep s (s.goto t .zombie)
  | wait (s : FileState τ π ι n) (t : τ) (h : (s.proc t).point = .zombie) :
      FileStep s (s.goto t .unused)
  | fork (s : FileState τ π ι n) (t child : τ) (h : (s.proc t).point = .user)
      (hc : (s.proc child).point = .unused) :
      FileStep s ((s.goto child .embryo).goto t (.forking child 0))
  | forkFd (s : FileState τ π ι n) (t child : τ) (fd : Fin nofile)
      (h : (s.proc t).point = .forking child fd.val) : FileStep s (s.forkFd t child fd)
  | forked (s : FileState τ π ι n) (t child : τ) (h : (s.proc t).point = .forking child nofile) :
      FileStep s ((s.goto t .user).goto child .user)
  | pipe1 (s : FileState τ π ι n) (t : τ) (f : Fin n) (h : (s.proc t).point = .user)
      (hf : s.freeFile = some f) : FileStep s ((s.filealloc f).goto t (.pipe1 f))
  | pipe2 (s : FileState τ π ι n) (t : τ) (rf wf : Fin n) (h : (s.proc t).point = .pipe1 rf)
      (hf : s.freeFile = some wf) : FileStep s ((s.filealloc wf).goto t (.pipe2 rf wf))
  | pipe2Bad (s : FileState τ π ι n) (t : τ) (rf : Fin n) (h : (s.proc t).point = .pipe1 rf)
      (hf : s.freeFile = none) : FileStep s (s.goto t (.closing [rf] .user))
  /-- no page for the pipe -/
  | pipe3Bad (s : FileState τ π ι n) (t : τ) (rf wf : Fin n)
      (h : (s.proc t).point = .pipe2 rf wf) : FileStep s (s.goto t (.closing [rf, wf] .user))
  | sysPipe (s : FileState τ π ι n) (t : τ) (rf wf : Fin n) (p : π)
      (h : (s.proc t).point = .pipe2 rf wf) (hp : s.pipe p = none) : FileStep s (s.sysPipe t rf wf p)
  | openFile (s : FileState τ π ι n) (t : τ) (f : Fin n) (h : (s.proc t).point = .user)
      (hf : s.freeFile = some f) : FileStep s ((s.filealloc f).goto t (.opening f))
  | sysOpen (s : FileState τ π ι n) (t : τ) (f : Fin n) (i : ι) (readable writable : Bool)
      (h : (s.proc t).point = .opening f) : FileStep s (s.sysOpen t f i readable writable)
  /-- `fileread` and `filewrite` look at the mode of the entry first -/
  | piperw (s : FileState τ π ι n) (t : τ) (w : Bool) (fd : Fin nofile) (f : Fin n) (p : π)
      (h : (s.proc t).point = .user) (hf : (s.proc t).ofile fd = some f)
      (ht : (s.file f).type = .pipe p)
      (hm : (if w then (s.file f).writable else (s.file f).readable) = true) :
      FileStep s (s.goto t (.piperw w fd))
  | returned (s : FileState τ π ι n) (t : τ) (w : Bool) (fd : Fin nofile)
      (h : (s.proc t).point = .piperw w fd) : FileStep s (s.goto t .user)

/-- The kernel from the first process on. -/
def fileSystem (τ π ι : Type) [DecidableEq τ] [DecidableEq π] (n : Nat) :
    Transition.System (FileState τ π ι n) where
  init s := (∀ f, (s.file f).ref = 0 ∧ (s.file f).type = .none) ∧ (∀ p, s.pipe p = none) ∧
    (∀ t fd, (s.proc t).ofile fd = none) ∧ s.fault = false ∧
    ∃ t, (s.proc t).point = .user ∧ ∀ u, u ≠ t → (s.proc u).point = .unused
  step := FileStep

end SystemsPortfolio.Xv6
