/-
SystemsPortfolio/Xv6/PipeRuns.lean

Processes on one pipe.

Any number of processes write and read, each of them between two sleeps in one step, and
they can be killed at any point.  `kill` does not take the lock of the pipe: when it comes
between the test of `killed` and `sleep`, the process goes to sleep although it has been
killed.  An end is closed when the last descriptor for it is, so never under a process that is
in a call on it.

The bytes that readers get are the bytes that writers put in, in that order, and a reader
that is told the end of the stream has missed none (`pipe_stream`).  Readers and writers
never sleep at the same time (`pipe_no_deadlock`).  A reader sleeps only while there is
nothing to read, as long as nobody is killed: `pipewrite` returns from a full pipe without
waking the readers when its process has been killed, and then they sleep on although the
pipe is full (`pipe_wakeups_iff`).
-/
import SystemsPortfolio.Xv6.Pipe
import Mathlib.Logic.Nontrivial.Defs

namespace SystemsPortfolio.Xv6

open Transition

/-! ### Processes -/

/-- What a call has returned. -/
inductive PipeResult
  /-- no call yet -/
  | none
  /-- -1 -/
  | failed
  /-- the `n` bytes of a `pipewrite` -/
  | wrote (n : Nat)
  /-- what a `piperead` of `n` bytes got -/
  | read (n : Nat) (l : List UInt8)
  deriving DecidableEq, Repr

/-- Where a process is. -/
inductive PipeProc
  /-- in no call -/
  | idle (r : PipeResult)
  /-- in `pipewrite` of `n` bytes, of which `left` are not in the pipe; it sleeps on `nwrite` or is
  about to go on -/
  | writing (n : Nat) (left : List UInt8) (asleep : Bool)
  /-- in `piperead` of `n` bytes; it sleeps on `nread` or is about to go on -/
  | reading (n : Nat) (asleep : Bool)
  deriving DecidableEq, Repr

namespace PipeProc

/-- `wakeup(&p->nread)` -/
def wakeNread : PipeProc → PipeProc
  | reading n _ => reading n false
  | q => q

/-- `wakeup(&p->nwrite)` -/
def wakeNwrite : PipeProc → PipeProc
  | writing n left _ => writing n left false
  | q => q

/-- `kill` makes a sleeping process runnable, whatever it sleeps on. -/
def wake : PipeProc → PipeProc
  | reading n _ => reading n false
  | writing n left _ => writing n left false
  | idle r => idle r

end PipeProc

variable {T : Type} [DecidableEq T]

/-- A pipe and its processes, with all bytes that have been put in and taken out. -/
structure PipeState (T : Type) where
  pipe : Pipe
  proc : T → PipeProc
  killed : T → Bool
  sent : List UInt8
  got : List UInt8

namespace PipeState

variable (s : PipeState T)

/-- Process `t` goes on at `q`. -/
def goto (t : T) (q : PipeProc) : PipeState T := { s with proc := Function.update s.proc t q }

def wakeNread : PipeState T := { s with proc := fun t => (s.proc t).wakeNread }

def wakeNwrite : PipeState T := { s with proc := fun t => (s.proc t).wakeNwrite }

/-- The loop of `pipewrite`. -/
def filled (l : List UInt8) : PipeState T :=
  { s with pipe := (s.pipe.fill l).1, sent := s.sent ++ l.take (l.length - (s.pipe.fill l).2.length) }

/-- `pipewrite` with the bytes `l` to go, up to where it sleeps or returns. -/
def pipewrite (t : T) (n : Nat) (l : List UInt8) : PipeState T :=
  if (s.pipe.fill l).2 = [] then (s.filled l).wakeNread.goto t (.idle (.wrote n))
  else if s.pipe.readopen = false ∨ s.killed t = true then (s.filled l).goto t (.idle .failed)
  else (s.filled l).wakeNread.goto t (.writing n (s.pipe.fill l).2 true)

/-- The loop of `piperead`. -/
def drained (n : Nat) : PipeState T :=
  { s with pipe := (s.pipe.drain n).2, got := s.got ++ (s.pipe.drain n).1 }

/-- `piperead`, up to where it sleeps or returns. -/
def piperead (t : T) (n : Nat) : PipeState T :=
  if s.pipe.Empty ∧ s.pipe.writeopen = true then
    if s.killed t = true then s.goto t (.idle .failed) else s.goto t (.reading n true)
  else (s.drained n).wakeNwrite.goto t (.idle (.read n (s.pipe.drain n).1))

/-- `pipeclose` of the write end. -/
def closeWrite : PipeState T := { s.wakeNread with pipe := { s.pipe with writeopen := false } }

/-- `pipeclose` of the read end. -/
def closeRead : PipeState T := { s.wakeNwrite with pipe := { s.pipe with readopen := false } }

/-- `p->killed = 1` -/
def setKilled (t : T) : PipeState T := { s with killed := Function.update s.killed t true }

def kill (t : T) : PipeState T := (s.goto t (s.proc t).wake).setKilled t

end PipeState

/-- One step of some process.  A killed process makes no new call. -/
inductive PipeStep (killable : T → Prop) : PipeState T → PipeState T → Prop
  | callWrite (s : PipeState T) (t : T) (r : PipeResult) (l : List UInt8) (h : s.proc t = .idle r)
      (hk : s.killed t = false) (hw : s.pipe.writeopen = true) :
      PipeStep killable s (s.goto t (.writing l.length l false))
  | callRead (s : PipeState T) (t : T) (r : PipeResult) (n : Nat) (h : s.proc t = .idle r)
      (hk : s.killed t = false) (hr : s.pipe.readopen = true) :
      PipeStep killable s (s.goto t (.reading n false))
  | pipewrite (s : PipeState T) (t : T) (n : Nat) (l : List UInt8)
      (h : s.proc t = .writing n l false) : PipeStep killable s (s.pipewrite t n l)
  | piperead (s : PipeState T) (t : T) (n : Nat) (h : s.proc t = .reading n false) :
      PipeStep killable s (s.piperead t n)
  /-- a `kill` behind the test of `killed`, before the process sleeps or returns -/
  | pipewriteKill (s : PipeState T) (t : T) (n : Nat) (l : List UInt8)
      (h : s.proc t = .writing n l false) (hk : killable t) :
      PipeStep killable s ((s.pipewrite t n l).setKilled t)
  | pipereadKill (s : PipeState T) (t : T) (n : Nat) (h : s.proc t = .reading n false)
      (hk : killable t) : PipeStep killable s ((s.piperead t n).setKilled t)
  | closeWrite (s : PipeState T) (hw : s.pipe.writeopen = true)
      (h : ∀ t n l a, s.proc t ≠ .writing n l a) :
      PipeStep killable s s.closeWrite
  | closeRead (s : PipeState T) (hr : s.pipe.readopen = true)
      (h : ∀ t n a, s.proc t ≠ .reading n a) :
      PipeStep killable s s.closeRead
  | kill (s : PipeState T) (t : T) (h : killable t) : PipeStep killable s (s.kill t)

/-- The processes of `T` on a new pipe. -/
def pipeSystem (killable : T → Prop) : System (PipeState T) where
  init s := s.pipe = Pipe.pipealloc ∧ (∀ t, s.proc t = .idle .none) ∧ (∀ t, s.killed t = false) ∧
    s.sent = [] ∧ s.got = []
  step := PipeStep killable

/-! ### What holds between steps -/

/-- What a process may rely on at its point, on the pipe `p` and with `aborted` for a killed writer
that has come back early. -/
def PipeProc.At (p : Pipe) (aborted : Prop) : PipeProc → Prop
  | idle (.read (_ + 1) []) => p.writeopen = false ∧ p.contents = []
  | idle _ => True
  | writing _ _ asleep => p.writeopen = true ∧ (asleep = true → p.Full ∧ p.readopen = true)
  | reading _ asleep =>
      p.readopen = true ∧ (asleep = true → p.writeopen = true ∧ (p.contents = [] ∨ aborted))

/-- A killed process has come back without what it asked for. -/
def PipeState.Aborted (s : PipeState T) : Prop := ∃ u, s.killed u = true ∧ s.proc u = .idle .failed

structure PipeInv (killable : T → Prop) (s : PipeState T) : Prop where
  stream : s.sent = s.got ++ s.pipe.contents
  points : ∀ t, (s.proc t).At s.pipe s.Aborted
  apart : ∀ t u n m l, s.proc t = .writing n l true → s.proc u ≠ .reading m true
  killable : ∀ t, s.killed t = true → killable t

section Points

variable {p p' : Pipe} {ab ab' : Prop} {q : PipeProc}

theorem PipeProc.At.mono (h : q.At p ab) (hab : ab → ab') : q.At p ab' := by
  rcases q with (- | - | - | ⟨- | n, - | ⟨c, l⟩⟩) | ⟨n, left, asleep⟩ | ⟨n, asleep⟩ <;>
    try exact trivial
  · exact h
  · exact h
  · exact ⟨h.1, fun ha => ⟨(h.2 ha).1, (h.2 ha).2.imp_right hab⟩⟩

/-- More bytes in the pipe: those who sleep for bytes do so because of a killed writer. -/
theorem PipeProc.At.more {l : List UInt8} (h : q.At p ab) (hq : ∀ n, q = .reading n true → ab)
    (hw : p.writeopen = true) (hc : p'.contents = p.contents ++ l) (hr' : p'.readopen = p.readopen)
    (hw' : p'.writeopen = p.writeopen) : q.At p' ab := by
  rcases q with (- | - | - | ⟨- | n, - | ⟨c, l⟩⟩) | ⟨n, left, asleep⟩ | ⟨n, - | -⟩ <;>
    try exact trivial
  · -- nobody has been told the end of the stream
    have hfalse := h.1
    rw [hw] at hfalse
    cases hfalse
  · refine ⟨hw'.trans h.1, fun ha => ⟨?_, hr'.trans (h.2 ha).2⟩⟩
    have hfull := Pipe.full_iff_length.mp (h.2 ha).1
    have hle := p'.count_le
    rw [← Pipe.length_contents, hc, List.length_append] at hle
    rw [Pipe.full_iff_length, hc, List.length_append]
    omega
  · exact ⟨hr'.trans h.1, fun ha => by cases ha⟩
  · exact ⟨hr'.trans h.1, fun _ => ⟨hw'.trans hw, Or.inr (hq n rfl)⟩⟩

/-- Fewer bytes in the pipe: nothing changes for those who do not sleep for room. -/
theorem PipeProc.At.fewer {k : Nat} (h : q.At p ab) (hq : ∀ n l, q ≠ .writing n l true)
    (hc : p'.contents = p.contents.drop k) (hr' : p'.readopen = p.readopen)
    (hw' : p'.writeopen = p.writeopen) : q.At p' ab := by
  have hnil (e : p.contents = []) : p'.contents = [] := by rw [hc, e, List.drop_nil]
  rcases q with (- | - | - | ⟨- | n, - | ⟨c, l⟩⟩) | ⟨n, left, - | -⟩ | ⟨n, asleep⟩ <;>
    try exact trivial
  · exact ⟨hw'.trans h.1, hnil h.2⟩
  · exact ⟨hw'.trans h.1, fun ha => by cases ha⟩
  · exact absurd rfl (hq n left)
  · exact ⟨hr'.trans h.1, fun ha => ⟨hw'.trans (h.2 ha).1, (h.2 ha).2.imp_left hnil⟩⟩

theorem PipeProc.At.wakeNread (h : q.At p ab) : q.wakeNread.At p ab := by
  rcases q with r | ⟨n, left, asleep⟩ | ⟨n, asleep⟩
  · exact h
  · exact h
  · exact ⟨h.1, fun ha => by cases ha⟩

theorem PipeProc.At.wakeNwrite (h : q.At p ab) : q.wakeNwrite.At p ab := by
  rcases q with r | ⟨n, left, asleep⟩ | ⟨n, asleep⟩
  · exact h
  · exact ⟨h.1, fun ha => by cases ha⟩
  · exact h

theorem PipeProc.At.wake (h : q.At p ab) : q.wake.At p ab := by
  rcases q with r | ⟨n, left, asleep⟩ | ⟨n, asleep⟩
  · exact h
  · exact ⟨h.1, fun ha => by cases ha⟩
  · exact ⟨h.1, fun ha => by cases ha⟩

theorem PipeProc.wakeNread_ne_reading (q : PipeProc) (n : Nat) : q.wakeNread ≠ .reading n true := by
  rcases q with r | ⟨m, left, asleep⟩ | ⟨m, asleep⟩ <;> exact fun e => by cases e

theorem PipeProc.wakeNwrite_ne_writing (q : PipeProc) (n : Nat) (l : List UInt8) :
    q.wakeNwrite ≠ .writing n l true := by
  rcases q with r | ⟨m, left, asleep⟩ | ⟨m, asleep⟩ <;> exact fun e => by cases e

end Points

/-! ### Every step -/

variable {killable : T → Prop} {s s' : PipeState T} {t : T}

/-- A process that was not one of those who came back early leaves them as they are. -/
theorem PipeState.Aborted.goto (h : s.Aborted) {q : PipeProc}
    (ht : s.killed t = true → s.proc t ≠ .idle .failed) : (s.goto t q).Aborted := by
  obtain ⟨u, hk, hu⟩ := h
  have hne : u ≠ t := by
    rintro rfl
    exact ht hk hu
  exact ⟨u, hk, (Function.update_of_ne hne ..).trans hu⟩

omit [DecidableEq T] in
theorem PipeState.Aborted.wakeNread (h : s.Aborted) : s.wakeNread.Aborted := by
  obtain ⟨u, hk, hu⟩ := h
  exact ⟨u, hk, congrArg PipeProc.wakeNread hu⟩

omit [DecidableEq T] in
theorem PipeState.Aborted.wakeNwrite (h : s.Aborted) : s.wakeNwrite.Aborted := by
  obtain ⟨u, hk, hu⟩ := h
  exact ⟨u, hk, congrArg PipeProc.wakeNwrite hu⟩

/-- A process goes on at `q` and nothing else changes. -/
theorem PipeInv.goto (h : PipeInv killable s) {q : PipeProc}
    (ht : s.killed t = true → s.proc t ≠ .idle .failed) (hq : q.At s.pipe (s.goto t q).Aborted)
    (hw : ∀ n l, q = .writing n l true → ∀ u m, s.proc u ≠ .reading m true)
    (hr : ∀ m, q = .reading m true → ∀ u n l, s.proc u ≠ .writing n l true) :
    PipeInv killable (s.goto t q) where
  stream := h.stream
  points u := by
    show (Function.update s.proc t q u).At s.pipe _
    rcases eq_or_ne u t with rfl | hu
    · rw [Function.update_self]
      exact hq
    · rw [Function.update_of_ne hu]
      exact (h.points u).mono fun ha => ha.goto ht
  apart u v n m l hu hv := by
    rw [PipeState.goto] at hu hv
    dsimp only at hu hv
    rcases eq_or_ne u t with rfl | hut
    · rw [Function.update_self] at hu
      rcases eq_or_ne v u with rfl | hvt
      · rw [Function.update_self, hu] at hv
        cases hv
      · rw [Function.update_of_ne hvt] at hv
        exact hw n l hu v m hv
    · rw [Function.update_of_ne hut] at hu
      rcases eq_or_ne v t with rfl | hvt
      · rw [Function.update_self] at hv
        exact hr m hv u n l hu
      · rw [Function.update_of_ne hvt] at hv
        exact h.apart u v n m l hu hv
  killable := h.killable

omit [DecidableEq T] in
theorem PipeInv.wakeNread (h : PipeInv killable s) : PipeInv killable s.wakeNread where
  stream := h.stream
  points u := ((h.points u).wakeNread).mono fun ha => ha.wakeNread
  apart _ u _ m _ _ := (s.proc u).wakeNread_ne_reading m
  killable := h.killable

omit [DecidableEq T] in
theorem PipeInv.wakeNwrite (h : PipeInv killable s) : PipeInv killable s.wakeNwrite where
  stream := h.stream
  points u := ((h.points u).wakeNwrite).mono fun ha => ha.wakeNwrite
  apart t _ n _ l ht := absurd ht ((s.proc t).wakeNwrite_ne_writing n l)
  killable := h.killable

omit [DecidableEq T] in
theorem filled_spec (s : PipeState T) (l : List UInt8) :
    ∃ done, (s.filled l).pipe.contents = s.pipe.contents ++ done ∧ (s.filled l).sent = s.sent ++ done ∧
      ((s.pipe.fill l).2 ≠ [] → (s.filled l).pipe.Full) ∧
      (s.filled l).pipe.readopen = s.pipe.readopen ∧ (s.filled l).pipe.writeopen = s.pipe.writeopen := by
  obtain ⟨done, h₁, h₂, h₃, h₄, h₅⟩ := s.pipe.fill_spec l
  refine ⟨done, h₂, ?_, h₃, h₄, h₅⟩
  have hlen : l.length - (s.pipe.fill l).2.length = done.length := by
    have := congrArg List.length h₁
    rw [List.length_append] at this
    omega
  have htake : l.take done.length = done := by
    conv_lhs => rw [h₁]
    exact List.take_left ..
  rw [PipeState.filled, hlen, htake]

omit [DecidableEq T] in
theorem PipeInv.filled {l : List UInt8} (h : PipeInv killable s) (hw : s.pipe.writeopen = true)
    (hr : ∀ u m, s.proc u = .reading m true → s.Aborted) : PipeInv killable (s.filled l) := by
  obtain ⟨done, hc, hs, -, hro, hwo⟩ := filled_spec s l
  refine ⟨?_, fun u => (h.points u).more (hr u) hw hc hro hwo, h.apart, h.killable⟩
  rw [hs, hc, h.stream, List.append_assoc]
  rfl

omit [DecidableEq T] in
theorem PipeInv.drained {n : Nat} (h : PipeInv killable s) (hw : ∀ u m l, s.proc u ≠ .writing m l true) :
    PipeInv killable (s.drained n) := by
  obtain ⟨h₁, h₂, hro, hwo⟩ := s.pipe.drain_spec n
  refine ⟨?_, fun u => (h.points u).fewer (hw u) h₂ hro hwo, h.apart, h.killable⟩
  show s.sent = (s.got ++ (s.pipe.drain n).1) ++ (s.pipe.drain n).2.contents
  rw [h₁, h₂, List.append_assoc, List.take_append_drop, h.stream]

theorem PipeInv.pipewrite {n : Nat} {l : List UInt8} (h : PipeInv killable s)
    (ht : s.proc t = .writing n l false) : PipeInv killable (s.pipewrite t n l) := by
  have hw : s.pipe.writeopen = true := by
    have hp := h.points t
    rw [ht] at hp
    exact hp.1
  -- with all readers awake the loop does no harm
  have hfilled : PipeInv killable (s.wakeNread.filled l) :=
    h.wakeNread.filled hw fun u m hu => absurd hu ((s.proc u).wakeNread_ne_reading m)
  have hin : (s.wakeNread.filled l).proc t ≠ .idle .failed := by
    intro e
    rw [show (s.wakeNread.filled l).proc t = (s.proc t).wakeNread from rfl, ht] at e
    cases e
  rw [PipeState.pipewrite]
  split_ifs with hdone hback
  · exact hfilled.goto (fun _ => hin) trivial (fun _ _ e => by cases e)
      (fun _ e => by cases e)
  · -- the process leaves first: the readers that sleep on are the ones it leaves behind
    have hleft : PipeInv killable (s.goto t (.idle .failed)) := by
      refine h.goto (fun _ e => ?_) trivial (fun _ _ e => by cases e) (fun _ e => by cases e)
      rw [ht] at e
      cases e
    refine hleft.filled hw fun u m hu => ?_
    have hopen := hleft.points u
    rw [hu] at hopen
    rcases hback with hro | hk
    · rw [show (s.goto t (.idle .failed)).pipe = s.pipe from rfl] at hopen
      have htrue := hopen.1
      rw [hro] at htrue
      cases htrue
    · exact ⟨t, hk, Function.update_self ..⟩
  · obtain ⟨hro, -⟩ := not_or.mp hback
    obtain ⟨-, -, -, hfull, hro', hwo'⟩ := filled_spec s.wakeNread l
    refine hfilled.goto (fun _ => hin) ?_ ?_ (fun _ e => by cases e)
    · exact ⟨hwo'.trans hw, fun _ => ⟨hfull hdone, hro'.trans (Bool.not_eq_false _ ▸ hro)⟩⟩
    · exact fun _ _ _ u m => (s.proc u).wakeNread_ne_reading m

theorem PipeInv.piperead {n : Nat} (h : PipeInv killable s) (ht : s.proc t = .reading n false) :
    PipeInv killable (s.piperead t n) := by
  have hin : s.proc t ≠ .idle .failed := by
    intro e
    rw [ht] at e
    cases e
  have hro : s.pipe.readopen = true := by
    have hp := h.points t
    rw [ht] at hp
    exact hp.1
  rw [PipeState.piperead]
  split_ifs with hwait hk
  · exact h.goto (fun _ => hin) trivial (fun _ _ e => by cases e) (fun _ e => by cases e)
  · have hnil := Pipe.contents_eq_nil.mpr hwait.1
    refine h.goto (fun _ => hin) ⟨hro, fun _ => ⟨hwait.2, Or.inl hnil⟩⟩ (fun _ _ e => by cases e) ?_
    -- an empty pipe is not full, so no writer sleeps
    intro m _ u k l hu
    have hp := h.points u
    rw [hu] at hp
    have hfull := Pipe.full_iff_length.mp (hp.2 rfl).1
    rw [hnil] at hfull
    exact absurd hfull (by decide)
  · have hdrained : PipeInv killable (s.wakeNwrite.drained n) :=
      h.wakeNwrite.drained fun u => (s.proc u).wakeNwrite_ne_writing
    refine hdrained.goto (fun _ e => ?_) ?_ (fun _ _ e => by cases e) (fun _ e => by cases e)
    · rw [show (s.wakeNwrite.drained n).proc t = (s.proc t).wakeNwrite from rfl, ht] at e
      cases e
    · -- nothing read means nothing there, and then the write end is closed
      obtain ⟨htake, hdrop, -, hwo⟩ := s.pipe.drain_spec n
      rcases n with - | n
      · exact trivial
      · rcases hl : (s.pipe.drain (n + 1)).1 with - | ⟨c, l⟩
        · have hnil : s.pipe.contents = [] := by
            rw [hl] at htake
            rcases hc : s.pipe.contents with - | ⟨c, l⟩
            · rfl
            · rw [hc] at htake
              cases htake
          refine ⟨?_, ?_⟩
          · refine hwo.trans (Bool.not_eq_true _ ▸ fun hopen => hwait ⟨?_, hopen⟩)
            exact Pipe.contents_eq_nil.mp hnil
          · show (s.pipe.drain (n + 1)).2.contents = []
            rw [hdrop, hnil, List.drop_nil]
        · exact trivial

omit [DecidableEq T] in
theorem PipeInv.closeWrite (h : PipeInv killable s) (hno : ∀ t n l a, s.proc t ≠ .writing n l a) :
    PipeInv killable s.closeWrite where
  stream := h.stream
  points u := by
    show ((s.proc u).wakeNread).At { s.pipe with writeopen := false } _
    have hu := h.points u
    rcases hq : s.proc u with (- | - | - | ⟨- | n, - | ⟨c, l⟩⟩) | ⟨n, left, asleep⟩ | ⟨n, asleep⟩ <;>
      try exact trivial
    · rw [hq] at hu
      exact ⟨rfl, hu.2⟩
    · exact absurd hq (hno u n left asleep)
    · rw [hq] at hu
      exact ⟨hu.1, fun ha => by cases ha⟩
  apart _ u _ m _ _ := (s.proc u).wakeNread_ne_reading m
  killable := h.killable

omit [DecidableEq T] in
theorem PipeInv.closeRead (h : PipeInv killable s) (hno : ∀ t n a, s.proc t ≠ .reading n a) :
    PipeInv killable s.closeRead where
  stream := h.stream
  points u := by
    show ((s.proc u).wakeNwrite).At { s.pipe with readopen := false } _
    have hu := h.points u
    rcases hq : s.proc u with (- | - | - | ⟨- | n, - | ⟨c, l⟩⟩) | ⟨n, left, asleep⟩ | ⟨n, asleep⟩ <;>
      try exact trivial
    · rw [hq] at hu
      exact hu
    · rw [hq] at hu
      exact ⟨hu.1, fun ha => by cases ha⟩
    · exact absurd hq (hno u n asleep)
  apart t _ n _ l ht := absurd ht ((s.proc t).wakeNwrite_ne_writing n l)
  killable := h.killable

/-- Whoever sleeps may be killed: nothing relies on the flag of a process in a call. -/
theorem PipeInv.setKilled (h : PipeInv killable s) (ht : killable t) :
    PipeInv killable (s.setKilled t) where
  stream := h.stream
  points u := by
    refine (h.points u).mono ?_
    rintro ⟨v, hk, hv⟩
    refine ⟨v, ?_, hv⟩
    show Function.update s.killed t true v = true
    rcases eq_or_ne v t with rfl | hne
    · exact Function.update_self ..
    · rwa [Function.update_of_ne hne]
  apart := h.apart
  killable u hu := by
    rcases eq_or_ne u t with rfl | hne
    · exact ht
    · exact h.killable u ((Function.update_of_ne hne ..).symm.trans hu)

/-- A process that is made runnable looks again by itself. -/
theorem PipeInv.wake (h : PipeInv killable s) : PipeInv killable (s.goto t (s.proc t).wake) where
  stream := h.stream
  points u := by
    have hab (ha : s.Aborted) : (s.goto t (s.proc t).wake).Aborted := by
      obtain ⟨v, hk, hv⟩ := ha
      refine ⟨v, hk, ?_⟩
      rcases eq_or_ne v t with rfl | hne
      · refine (Function.update_self ..).trans ?_
        rw [hv]
        rfl
      · exact (Function.update_of_ne hne ..).trans hv
    show (Function.update s.proc t (s.proc t).wake u).At s.pipe _
    rcases eq_or_ne u t with rfl | hu
    · rw [Function.update_self]
      exact (h.points u).wake.mono hab
    · rw [Function.update_of_ne hu]
      exact (h.points u).mono hab
  apart u v n m l hu hv := by
    -- nobody has gone to sleep
    have hback {w : T} {q : PipeProc} (hq : ∀ r : PipeProc, r.wake ≠ q)
        (hw : Function.update s.proc t (s.proc t).wake w = q) : s.proc w = q := by
      rcases eq_or_ne w t with rfl | hne
      · rw [Function.update_self] at hw
        exact absurd hw (hq _)
      · rwa [Function.update_of_ne hne] at hw
    refine h.apart u v n m l (hback ?_ hu) (hback ?_ hv) <;> rintro (r | ⟨k, l, a⟩ | ⟨k, a⟩) e <;> cases e
  killable := h.killable

theorem PipeInv.next (h : PipeInv killable s) (hs : PipeStep killable s s') : PipeInv killable s' := by
  cases hs with
  | callWrite t r l ht hk hw =>
      refine h.goto (fun e => ?_) ⟨hw, fun ha => by cases ha⟩ (fun _ _ e => by cases e)
        (fun _ e => by cases e)
      rw [hk] at e
      cases e
  | callRead t r n ht hk hr =>
      refine h.goto (fun e => ?_) ⟨hr, fun ha => by cases ha⟩ (fun _ _ e => by cases e)
        (fun _ e => by cases e)
      rw [hk] at e
      cases e
  | pipewrite t n l ht => exact h.pipewrite ht
  | piperead t n ht => exact h.piperead ht
  | pipewriteKill t n l ht hk => exact (h.pipewrite ht).setKilled hk
  | pipereadKill t n ht hk => exact (h.piperead ht).setKilled hk
  | closeWrite hw hno => exact h.closeWrite hno
  | closeRead hr hno => exact h.closeRead hno
  | kill t ht => exact h.wake.setKilled ht

theorem pipeInv_of_reachable (h : (pipeSystem killable).Reachable s) : PipeInv killable s := by
  refine h.invariant (fun s hs => ?_) fun s s' _ hi hs => hi.next hs
  obtain ⟨hp, hproc, hk, hsent, hgot⟩ := hs
  refine ⟨?_, fun t => ?_, fun t _ n _ l ht => ?_, fun t ht => ?_⟩
  · rw [hsent, hgot, hp, Pipe.contents_pipealloc]
    rfl
  · rw [hproc t]
    exact trivial
  · rw [hproc t] at ht
    cases ht
  · rw [hk t] at ht
    cases ht

/-! ### Every run -/

/-- A new pipe. -/
def pipeStart (T : Type) : PipeState T := ⟨Pipe.pipealloc, fun _ => .idle .none, fun _ => false, [], []⟩

theorem pipeStart_init : (pipeSystem killable).init (pipeStart T) :=
  ⟨rfl, fun _ => rfl, fun _ => rfl, rfl, rfl⟩

/-- One byte more than the pipe can take. -/
theorem fill_too_many (p : Pipe) {l : List UInt8} (hlen : l.length = pipeSize + 1) :
    (p.fill l).2 ≠ [] ∧ (p.fill l).1.Full := by
  obtain ⟨done, hl, hc, hfull, -, -⟩ := p.fill_spec l
  have hleft : (p.fill l).2 ≠ [] := by
    intro e
    rw [e, List.append_nil] at hl
    have hle := (p.fill l).1.count_le
    rw [← Pipe.length_contents, hc, List.length_append, ← hl, hlen] at hle
    omega
  exact ⟨hleft, hfull hleft⟩

/-- **The bytes come through.**  What has been put in is what has been taken out and then what is in
the pipe, at most `PIPESIZE` bytes; a reader that got nothing has seen everything there ever is. -/
theorem pipe_stream (h : (pipeSystem killable).Reachable s) :
    s.sent = s.got ++ s.pipe.contents ∧ s.pipe.contents.length ≤ pipeSize ∧
      ∀ t n, s.proc t = .idle (.read (n + 1) []) → s.pipe.writeopen = false ∧ s.got = s.sent := by
  have hi := pipeInv_of_reachable h
  refine ⟨hi.stream, ?_, fun t n ht => ?_⟩
  · rw [Pipe.length_contents]
    exact s.pipe.count_le
  · have hp := hi.points t
    rw [ht] at hp
    refine ⟨hp.1, ?_⟩
    rw [hi.stream, hp.2, List.append_nil]

/-- A byte is written and read, the write end is closed, and the reader reads again. -/
theorem pipe_stream_end : ∃ s : PipeState Bool, (pipeSystem fun _ => True).Reachable s ∧
    s.proc false = .idle (.read 1 []) ∧ s.sent = [7] ∧ s.got = s.sent := by
  have h₀ : (pipeSystem fun _ : Bool => True).Reachable (pipeStart Bool) := .start pipeStart_init
  have h₁ := (h₀.next (.callWrite _ true .none [7] rfl rfl rfl)).next (.pipewrite _ true 1 [7] rfl)
  have h₂ := (h₁.next (.callRead _ false .none 1 rfl rfl rfl)).next (.piperead _ false 1 rfl)
  have h₃ := h₂.next (.closeWrite _ rfl (by rintro (- | -) n l a e <;> cases e))
  have h₄ := (h₃.next (.callRead _ false _ 1 rfl rfl rfl)).next (.piperead _ false 1 rfl)
  exact ⟨_, h₄, rfl, rfl, ((pipe_stream h₄).2.2 false 0 rfl).2⟩

/-- A writer sleeps only on a full pipe that can be read, and then no reader sleeps, whoever has been
killed: one of the two sides can always go on. -/
theorem pipe_no_deadlock {n : Nat} {l : List UInt8} (h : (pipeSystem killable).Reachable s)
    (ht : s.proc t = .writing n l true) :
    s.pipe.Full ∧ s.pipe.readopen = true ∧ ∀ u m, s.proc u ≠ .reading m true := by
  have hi := pipeInv_of_reachable h
  have hp := hi.points t
  rw [ht] at hp
  exact ⟨(hp.2 rfl).1, (hp.2 rfl).2, fun u m => hi.apart t u n m l ht⟩

theorem pipe_no_deadlock_full : ∃ (s : PipeState Bool) (n : Nat) (l : List UInt8),
    (pipeSystem fun _ => True).Reachable s ∧ s.proc true = .writing n l true ∧ s.pipe.Full := by
  obtain ⟨l, hlen⟩ : ∃ l : List UInt8, l.length = pipeSize + 1 :=
    ⟨List.replicate (pipeSize + 1) 0, List.length_replicate⟩
  have h₀ : (pipeSystem fun _ : Bool => True).Reachable (pipeStart Bool) := .start pipeStart_init
  have h₁ := h₀.next (.callWrite _ true .none l rfl rfl rfl)
  have h₂ := h₁.next (.pipewrite _ true l.length l rfl)
  obtain ⟨hleft, -⟩ :=
    fill_too_many ((pipeStart Bool).goto true (.writing l.length l false)).pipe hlen
  rw [PipeState.pipewrite, if_neg hleft, if_neg (by rintro (e | e) <;> cases e)] at h₂
  exact ⟨_, _, _, h₂, rfl, (pipe_no_deadlock h₂ (t := true) rfl).1⟩

/-- A reader sleeps, and a writer of more than the pipe can take is killed before it begins. -/
theorem exists_sleeping_reader {r w : T} (hne : w ≠ r) (hw : killable w) :
    ∃ s, (pipeSystem killable).Reachable s ∧ s.proc r = .reading 1 true ∧ s.pipe.Full := by
  obtain ⟨l, hlen⟩ : ∃ l : List UInt8, l.length = pipeSize + 1 :=
    ⟨List.replicate (pipeSize + 1) 0, List.length_replicate⟩
  have h₀ : (pipeSystem killable).Reachable (pipeStart T) := .start pipeStart_init
  have h₁ := h₀.next (.callRead _ r .none 1 rfl rfl rfl)
  have h₂ := h₁.next (.piperead _ r 1 (Function.update_self ..))
  rw [PipeState.piperead, if_pos ⟨rfl, rfl⟩, if_neg (fun e => by cases e)] at h₂
  have hidle : (((pipeStart T).goto r (.reading 1 false)).goto r (.reading 1 true)).proc w =
      .idle .none :=
    (Function.update_of_ne hne ..).trans (Function.update_of_ne hne ..)
  have h₃ := (h₂.next (.callWrite _ w .none l hidle rfl rfl)).next (.kill _ w hw)
  set s₃ := ((((pipeStart T).goto r (.reading 1 false)).goto r (.reading 1 true)).goto w
    (.writing l.length l false)).kill w with hs₃
  have hproc : s₃.proc w = .writing l.length l false := by
    rw [hs₃]
    refine (Function.update_self ..).trans ?_
    rw [show ((((pipeStart T).goto r (.reading 1 false)).goto r (.reading 1 true)).goto w
      (.writing l.length l false)).proc w = _ from Function.update_self ..]
    rfl
  have hkilled : s₃.killed w = true := Function.update_self ..
  have h₄ := h₃.next (.pipewrite s₃ w _ l hproc)
  obtain ⟨hleft, hfull⟩ := fill_too_many s₃.pipe hlen
  rw [PipeState.pipewrite, if_neg hleft, if_pos (Or.inr hkilled)] at h₄
  refine ⟨_, h₄, ?_, hfull⟩
  refine (Function.update_of_ne hne.symm ..).trans ((Function.update_of_ne hne.symm ..).trans ?_)
  exact (Function.update_of_ne hne.symm ..).trans (Function.update_self ..)

/-- **Readers are woken for every byte exactly if nobody can be killed.**  A killed writer leaves the
pipe full and the readers asleep. -/
theorem pipe_wakeups_iff [Nontrivial T] :
    (∀ s, (pipeSystem killable).Reachable s → ∀ t n, s.proc t = .reading n true →
      s.pipe.contents = []) ↔ ∀ t, ¬ killable t := by
  refine ⟨fun hall w hw => ?_, fun hno s h t n ht => ?_⟩
  · obtain ⟨r, hne⟩ := exists_ne w
    obtain ⟨s, hs, hr, hfull⟩ := exists_sleeping_reader hne.symm hw
    have hnil := hall s hs r 1 hr
    rw [Pipe.full_iff_length, hnil] at hfull
    exact absurd hfull (by decide)
  · have hi := pipeInv_of_reachable h
    have hp := hi.points t
    rw [ht] at hp
    rcases (hp.2 rfl).2 with hnil | ⟨u, hk, -⟩
    · exact hnil
    · exact absurd (hi.killable u hk) (hno u)

theorem pipe_wakeups_killed : ∃ s : PipeState Bool, (pipeSystem fun _ => True).Reachable s ∧
    ∃ t n, s.proc t = .reading n true ∧ s.pipe.contents ≠ [] := by
  by_contra hno
  have hall : ∀ s : PipeState Bool, (pipeSystem fun _ => True).Reachable s → ∀ t n,
      s.proc t = .reading n true → s.pipe.contents = [] := by
    intro s hs t n ht
    by_contra hne
    exact hno ⟨s, hs, t, n, ht, hne⟩
  exact pipe_wakeups_iff.mp hall true trivial

theorem pipewrite_unread (s : PipeState T) (t : T) (n : Nat) (l : List UInt8) :
    (s.pipewrite t n l).pipe.readopen = s.pipe.readopen ∧ (s.pipewrite t n l).got = s.got := by
  obtain ⟨-, -, -, -, hro, -⟩ := filled_spec s l
  rw [PipeState.pipewrite]
  split_ifs <;> exact ⟨hro, rfl⟩

/-- Once the read end is closed nothing is taken out, and it stays closed. -/
theorem PipeStep.unread (h : (pipeSystem killable).Reachable s) (hs : PipeStep killable s s')
    (hro : s.pipe.readopen = false) : s'.pipe.readopen = false ∧ s'.got = s.got := by
  have hno (t : T) (n : Nat) (a : Bool) : s.proc t ≠ .reading n a := by
    intro ht
    have hp := (pipeInv_of_reachable h).points t
    rw [ht] at hp
    have htrue := hp.1
    rw [hro] at htrue
    cases htrue
  cases hs with
  | callWrite t r l ht hk hw => exact ⟨hro, rfl⟩
  | callRead t r n ht hk hr => exact ⟨hro, rfl⟩
  | pipewrite t n l ht =>
      exact ⟨(pipewrite_unread s t n l).1.trans hro, (pipewrite_unread s t n l).2⟩
  | piperead t n ht => exact absurd ht (hno t n false)
  | pipewriteKill t n l ht hk =>
      exact ⟨(pipewrite_unread s t n l).1.trans hro, (pipewrite_unread s t n l).2⟩
  | pipereadKill t n ht hk => exact absurd ht (hno t n false)
  | closeWrite hw hno => exact ⟨hro, rfl⟩
  | closeRead hr hno => exact ⟨rfl, rfl⟩
  | kill t ht => exact ⟨hro, rfl⟩

/-- Writers are not told that the read end is closed while there is room: after that the pipe still
takes the bytes it has room for, and none beyond them. -/
theorem pipe_unread_bound (h : (pipeSystem killable).Reachable s) (hro : s.pipe.readopen = false)
    (hrun : Relation.ReflTransGen (PipeStep killable) s s') :
    s'.got = s.got ∧ s'.sent.length + s.pipe.contents.length ≤ s.sent.length + pipeSize := by
  have hall : (pipeSystem killable).Reachable s' ∧ s'.pipe.readopen = false ∧ s'.got = s.got := by
    induction hrun with
    | refl => exact ⟨h, hro, rfl⟩
    | tail _ hs ih =>
        obtain ⟨hr, hro', hgot⟩ := ih
        obtain ⟨hro'', hgot'⟩ := PipeStep.unread hr hs hro'
        exact ⟨hr.next hs, hro'', hgot'.trans hgot⟩
  obtain ⟨hreach, -, hgot⟩ := hall
  refine ⟨hgot, ?_⟩
  have hle := s'.pipe.count_le
  rw [(pipeInv_of_reachable h).stream, (pipeInv_of_reachable hreach).stream, hgot, List.length_append,
    List.length_append, s'.pipe.length_contents]
  omega

theorem pipe_unread_bound_one : ∃ s s' : PipeState Bool, (pipeSystem fun _ => True).Reachable s ∧
    s.pipe.readopen = false ∧ s'.sent = [7] ∧
    s'.got = s.got ∧ s'.sent.length + s.pipe.contents.length ≤ s.sent.length + pipeSize := by
  have h₀ : (pipeSystem fun _ : Bool => True).Reachable (pipeStart Bool) := .start pipeStart_init
  have h₁ := h₀.next (.closeRead _ rfl (fun _ _ _ e => by cases e))
  exact ⟨_, _, h₁, rfl, rfl, pipe_unread_bound h₁ rfl
    ((Relation.ReflTransGen.single (.callWrite _ true .none [7] rfl rfl rfl)).tail
      (.pipewrite _ true 1 [7] rfl))⟩

end SystemsPortfolio.Xv6
