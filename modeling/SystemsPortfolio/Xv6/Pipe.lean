/-
SystemsPortfolio/Xv6/Pipe.lean

The pipe of `pipe.c`: a ring of 512 bytes under a spin lock, with two counters that only
go up and wrap around at 2^32.  The ring is full when they are 512 apart, and since 512
divides 2^32 the wrap-around can be seen neither in the distance nor in the slots.

`pipewrite` puts bytes in until it is done or the ring is full, `piperead` takes them out
until it has as many as it wants or the ring is empty.  Both sleep inside, on the counter
that the other side moves, and look again when they are woken; what happens between two
sleeps happens under the lock and is one step here.
-/
import SystemsPortfolio.Lib.Channel

namespace SystemsPortfolio.Xv6

open Channel

/-! ### The ring -/

/-- `PIPESIZE` -/
def pipeSize : Nat := 512

/-- `struct pipe`, its lock apart.  Never more than `PIPESIZE` bytes are in it. -/
structure Pipe where
  data : Nat → UInt8
  nread : UInt32
  nwrite : UInt32
  readopen : Bool
  writeopen : Bool
  fits : (nwrite - nread).toNat ≤ pipeSize

namespace Pipe

variable {p : Pipe} {c : UInt8} {l : List UInt8}

/-- The pipe that `pipealloc` makes. -/
def pipealloc : Pipe where
  data := fun _ => 0
  nread := 0
  nwrite := 0
  readopen := true
  writeopen := true
  fits := by decide

/-- `p->nread == p->nwrite` -/
def Empty (p : Pipe) : Prop := p.nread = p.nwrite

/-- `p->nwrite == p->nread + PIPESIZE` -/
def Full (p : Pipe) : Prop := p.nwrite = p.nread + 512

instance : DecidablePred Empty := fun p => inferInstanceAs (Decidable (p.nread = p.nwrite))

instance : DecidablePred Full := fun p => inferInstanceAs (Decidable (p.nwrite = p.nread + 512))

/-- The number of bytes in the pipe. -/
def count (p : Pipe) : Nat := (p.nwrite - p.nread).toNat

theorem count_eq (p : Pipe) : p.count = (4294967296 - p.nread.toNat + p.nwrite.toNat) % 4294967296 :=
  UInt32.toNat_sub ..

theorem count_le (p : Pipe) : p.count ≤ pipeSize := p.fits

theorem empty_iff : p.Empty ↔ p.count = 0 := by
  have hr := p.nread.toNat_lt
  have hw := p.nwrite.toNat_lt
  rw [Empty, count_eq, ← UInt32.toNat_inj]
  omega

theorem full_iff : p.Full ↔ p.count = pipeSize := by
  have hr := p.nread.toNat_lt
  have hw := p.nwrite.toNat_lt
  rw [Full, count_eq, ← UInt32.toNat_inj, UInt32.toNat_add, pipeSize]
  change p.nwrite.toNat = (p.nread.toNat + 512) % 4294967296 ↔ _
  omega

/-- `p->data[p->nwrite++ % PIPESIZE] = c` in a pipe that is not full. -/
def put (p : Pipe) (c : UInt8) (h : ¬ p.Full) : Pipe where
  data := Function.update p.data (p.nwrite % 512).toNat c
  nread := p.nread
  nwrite := p.nwrite + 1
  readopen := p.readopen
  writeopen := p.writeopen
  fits := by
    rw [full_iff, count_eq] at h
    have hle := p.count_le
    rw [count_eq] at hle
    have hw := p.nwrite.toNat_lt
    have hr := p.nread.toNat_lt
    rw [pipeSize] at h hle ⊢
    rw [UInt32.toNat_sub, UInt32.toNat_add]
    change (4294967296 - p.nread.toNat + (p.nwrite.toNat + 1) % 4294967296) % 4294967296 ≤ 512
    omega

/-- The byte `p->data[p->nread % PIPESIZE]`. -/
def front (p : Pipe) : UInt8 := p.data (p.nread % 512).toNat

/-- `p->nread++` in a pipe that is not empty. -/
def advance (p : Pipe) (h : ¬ p.Empty) : Pipe where
  data := p.data
  nread := p.nread + 1
  nwrite := p.nwrite
  readopen := p.readopen
  writeopen := p.writeopen
  fits := by
    rw [empty_iff, count_eq] at h
    have hle := p.count_le
    rw [count_eq] at hle
    have hw := p.nwrite.toNat_lt
    have hr := p.nread.toNat_lt
    rw [pipeSize] at hle ⊢
    rw [UInt32.toNat_sub, UInt32.toNat_add]
    change (4294967296 - (p.nread.toNat + 1) % 4294967296 + p.nwrite.toNat) % 4294967296 ≤ 512
    omega

/-- The loop of `pipewrite`, up to its end or to a full pipe: the bytes that are left. -/
def fill (p : Pipe) : List UInt8 → Pipe × List UInt8
  | [] => (p, [])
  | c :: l => if h : p.Full then (p, c :: l) else (p.put c h).fill l

/-- The loop of `piperead`: at most `n` bytes. -/
def drain (p : Pipe) : Nat → List UInt8 × Pipe
  | 0 => ([], p)
  | n + 1 =>
      if h : p.Empty then ([], p)
      else (p.front :: ((p.advance h).drain n).1, ((p.advance h).drain n).2)

/-! ### The ring as a queue -/

/-- The bytes in the pipe, in the order in which they are read. -/
def contents (p : Pipe) : List UInt8 :=
  (window p.data pipeSize (p.nread.toNat % pipeSize) p.count).map Prod.snd

theorem length_contents (p : Pipe) : p.contents.length = p.count := by
  rw [contents, List.length_map, window_length]

theorem contents_eq_nil : p.contents = [] ↔ p.Empty := by
  rw [← List.length_eq_zero_iff, length_contents, empty_iff]

theorem full_iff_length : p.Full ↔ p.contents.length = pipeSize := by
  rw [length_contents, full_iff]

theorem contents_pipealloc : pipealloc.contents = [] := by
  rw [contents_eq_nil]
  rfl

theorem count_put (h : ¬ p.Full) : (p.put c h).count = p.count + 1 := by
  have hle := p.count_le
  rw [full_iff] at h
  rw [count_eq] at h hle ⊢
  have hw := p.nwrite.toNat_lt
  have hr := p.nread.toNat_lt
  rw [pipeSize] at h hle
  rw [count_eq, put, UInt32.toNat_add]
  change (4294967296 - p.nread.toNat + (p.nwrite.toNat + 1) % 4294967296) % 4294967296 = _
  omega

theorem count_advance (h : ¬ p.Empty) : (p.advance h).count + 1 = p.count := by
  have hle := p.count_le
  rw [empty_iff] at h
  rw [count_eq] at h hle ⊢
  have hw := p.nwrite.toNat_lt
  have hr := p.nread.toNat_lt
  rw [pipeSize] at hle
  rw [count_eq, advance, UInt32.toNat_add]
  change (4294967296 - (p.nread.toNat + 1) % 4294967296 + p.nwrite.toNat) % 4294967296 + 1 = _
  omega

/-- The slot behind the bytes is the one that `nwrite` names, also after a wrap-around. -/
theorem slot_nwrite (p : Pipe) :
    (p.nwrite % 512).toNat = (p.nread.toNat % pipeSize + p.count) % pipeSize := by
  have hle := p.count_le
  have hw := p.nwrite.toNat_lt
  have hr := p.nread.toNat_lt
  rw [count_eq, pipeSize] at hle ⊢
  rw [UInt32.toNat_mod]
  change p.nwrite.toNat % 512 = _
  omega

theorem contents_put (h : ¬ p.Full) : (p.put c h).contents = p.contents ++ [c] := by
  have hlt : p.count < pipeSize := Nat.lt_of_le_of_ne p.count_le (full_iff.not.mp h)
  rw [contents, count_put, contents]
  show (window (Function.update p.data (p.nwrite % 512).toNat c) pipeSize (p.nread.toNat % pipeSize)
    (p.count + 1)).map Prod.snd = _
  rw [slot_nwrite, window_put hlt, List.map_append]
  rfl

theorem contents_advance (h : ¬ p.Empty) : p.contents = p.front :: (p.advance h).contents := by
  have hhead : p.nread.toNat % pipeSize < pipeSize := Nat.mod_lt _ (by decide)
  have hnext : (p.nread.toNat % pipeSize + 1) % pipeSize = (p.nread + 1).toNat % pipeSize := by
    have hr := p.nread.toNat_lt
    rw [UInt32.toNat_add, pipeSize]
    change _ = (p.nread.toNat + 1) % 4294967296 % 512
    omega
  have hfront : p.front = p.data (p.nread.toNat % pipeSize) := by
    rw [front, UInt32.toNat_mod]
    rfl
  rw [contents, ← count_advance h, window_take hhead, List.map_cons, hnext, hfront]
  rfl

/-- What the loop of `pipewrite` does: the bytes that are not left are in the pipe, and bytes are
left only in a full pipe. -/
theorem fill_spec (p : Pipe) (l : List UInt8) :
    ∃ done, l = done ++ (p.fill l).2 ∧ (p.fill l).1.contents = p.contents ++ done ∧
      ((p.fill l).2 ≠ [] → (p.fill l).1.Full) ∧
      (p.fill l).1.readopen = p.readopen ∧ (p.fill l).1.writeopen = p.writeopen := by
  induction l generalizing p with
  | nil => exact ⟨[], rfl, (List.append_nil _).symm, fun h => absurd rfl h, rfl, rfl⟩
  | cons c l ih =>
      rw [fill]
      split_ifs with h
      · exact ⟨[], rfl, (List.append_nil _).symm, fun _ => h, rfl, rfl⟩
      · obtain ⟨done, h₁, h₂, h₃, h₄, h₅⟩ := ih (p.put c h)
        refine ⟨c :: done, ?_, ?_, h₃, h₄, h₅⟩
        · rw [List.cons_append, ← h₁]
        · rw [h₂, contents_put, List.append_assoc, List.singleton_append]

/-- What the loop of `piperead` does: it takes the first `n` bytes, or all there are. -/
theorem drain_spec (p : Pipe) (n : Nat) :
    (p.drain n).1 = p.contents.take n ∧ (p.drain n).2.contents = p.contents.drop n ∧
      (p.drain n).2.readopen = p.readopen ∧ (p.drain n).2.writeopen = p.writeopen := by
  induction n generalizing p with
  | zero => exact ⟨rfl, rfl, rfl, rfl⟩
  | succ n ih =>
      rw [drain]
      split_ifs with h
      · have hnil := contents_eq_nil.mpr h
        exact ⟨by rw [hnil]; rfl, by rw [hnil]; rfl, rfl, rfl⟩
      · obtain ⟨h₁, h₂, h₃, h₄⟩ := ih (p.advance h)
        refine ⟨?_, ?_, h₃, h₄⟩
        · rw [contents_advance h, List.take_succ_cons, h₁]
        · rw [contents_advance h, List.drop_succ_cons, h₂]

end Pipe

end SystemsPortfolio.Xv6
