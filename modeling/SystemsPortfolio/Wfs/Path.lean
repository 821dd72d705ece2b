/-
SystemsPortfolio/Wfs/Path.lean

Path strings: the cleaning and splitting helpers of `wfs.c` and the libc
functions they call.

A C string is the list of its bytes before the terminating NUL.  `CString`
carries the fact that none of them is NUL; the helpers work on the bare
lists, and the lemmas of the last section say that they keep the bytes
NUL-free and that a leaf name is never empty.

`dirname`, `basename` and `strtok_r` follow POSIX.  Where POSIX leaves
`dirname` the choice between "/" and "//" the model takes "/"; the two
resolve alike, as `get_inode_from_path` skips slashes.
-/
import Mathlib.Data.List.TakeWhile
import SystemsPortfolio.Wfs.Disk

namespace SystemsPortfolio.Wfs

/-- A NUL-terminated string, without its terminator. -/
structure CString where
  bytes : List UInt8
  nul_free : ∀ c ∈ bytes, c ≠ 0

instance : DecidableEq CString := fun s t =>
  decidable_of_iff (s.bytes = t.bytes) ⟨fun h => by cases s; cases t; cases h; rfl, congrArg _⟩

/-- The byte `/`. -/
abbrev slash : UInt8 := 47

/-! ### `strip_ansi_codes` and `clean_path` -/

/-- The two loops of `strip_ansi_codes`.  The flag tells whether we are inside
an escape sequence, and `room` is how many bytes the output may still take. -/
def stripLoop : Bool → List UInt8 → Nat → List UInt8
  | false, [], _ => []
  | false, _ :: _, 0 => []
  | false, 27 :: 91 :: rest, room + 1 => stripLoop true rest (room + 1)
  | false, c :: rest, room + 1 => c :: stripLoop false rest room
  | true, [], _ => []
  | true, c :: rest, room =>
      -- the escape sequence ends at, and includes, the first `m`
      if c = 109 then stripLoop false rest room else stripLoop true rest room

/-- `strip_ansi_codes(in, out, out_len)`, for `out_len > 0`. -/
def stripAnsiCodes (inp : List UInt8) (outLen : Nat) : List UInt8 :=
  stripLoop false inp (outLen - 1)

/-- `clean_path` into a buffer of `PATH_MAX` bytes. -/
def cleanPath (path : List UInt8) : List UInt8 :=
  let clean := stripAnsiCodes path 4096
  if clean = [] then [slash] else clean

/-! ### libc -/

/-- The string without its trailing slashes, reversed. -/
def revTrimmed (p : List UInt8) : List UInt8 := p.reverse.dropWhile (· = slash)

/-- `basename`. -/
def basename (p : List UInt8) : List UInt8 :=
  if p = [] then [46]
  else if revTrimmed p = [] then [slash]
  else ((revTrimmed p).takeWhile (· ≠ slash)).reverse

/-- `dirname`. -/
def dirname (p : List UInt8) : List UInt8 :=
  let parent := (revTrimmed p).dropWhile (· ≠ slash)
  if p ≠ [] ∧ revTrimmed p = [] then [slash]
  else if parent = [] then [46]
  else if parent.dropWhile (· = slash) = [] then [slash]
  else (parent.dropWhile (· = slash)).reverse

/-- The tokens `strtok_r(p, "/", ..)` delivers one after another. -/
def strtok (p : List UInt8) : List (List UInt8) := (p.splitOn slash).filter (· ≠ [])

/-- `strncmp(a, b, n) == 0`; past its end a string reads as NUL. -/
def strncmpEq : Nat → List UInt8 → List UInt8 → Bool
  | 0, _, _ => true
  | n + 1, a, b =>
      if a.headD 0 ≠ b.headD 0 then false
      else if a.headD 0 = 0 then true
      else strncmpEq n a.tail b.tail

/-! ### `split_path` -/

/-- `split_path`: the parent path and the leaf name, or a negative error. -/
def splitPath (path : List UInt8) : Except Int (List UInt8 × List UInt8) :=
  if path.head? ≠ some slash then .error (-ENOENT)
  else if path = [slash] then .error (-EINVAL)
  else .ok (dirname path, basename path)

/-! ### What the helpers keep -/

theorem mem_of_mem_stripLoop {c : UInt8} (inEsc : Bool) (inp : List UInt8) (room : Nat)
    (h : c ∈ stripLoop inEsc inp room) : c ∈ inp := by
  fun_induction stripLoop inEsc inp room with
  | case1 => exact h
  | case2 => cases h
  | case3 rest room ih => exact List.mem_cons_of_mem _ (List.mem_cons_of_mem _ (ih h))
  | case4 d rest room _ ih =>
      rcases List.mem_cons.mp h with rfl | h
      · exact List.mem_cons_self
      · exact List.mem_cons_of_mem _ (ih h)
  | case5 => exact h
  | case6 rest room ih => exact List.mem_cons_of_mem _ (ih h)
  | case7 d rest room _ ih => exact List.mem_cons_of_mem _ (ih h)

theorem mem_of_mem_cleanPath {c : UInt8} {p : List UInt8} (h : c ∈ cleanPath p) :
    c = slash ∨ c ∈ p := by
  rw [cleanPath] at h
  split at h
  · exact Or.inl (List.mem_singleton.mp h)
  · exact Or.inr (mem_of_mem_stripLoop _ _ _ h)

theorem cleanPath_nul_free {p : List UInt8} (h : ∀ c ∈ p, c ≠ 0) : ∀ c ∈ cleanPath p, c ≠ 0 := by
  intro c hc
  rcases mem_of_mem_cleanPath hc with rfl | hc
  · decide
  · exact h c hc

theorem mem_of_mem_strtok {c : UInt8} {p comp : List UInt8} (hcomp : comp ∈ strtok p) (hc : c ∈ comp) :
    c ∈ p := by
  have hsplit : comp ∈ p.splitOn slash := (List.mem_filter.mp hcomp).1
  clear hcomp
  induction p generalizing comp with
  | nil =>
      rw [List.splitOn_nil, List.mem_singleton] at hsplit
      rw [hsplit] at hc
      exact hc
  | cons x p ih =>
      rw [List.splitOn_cons_eq_if_modifyHead] at hsplit
      rcases e : p.splitOn slash with - | ⟨head, rest⟩
      · exact absurd e (List.splitOn_ne_nil slash p)
      rw [e] at hsplit ih
      split_ifs at hsplit
      · rcases List.mem_cons.mp hsplit with rfl | hmem
        · cases hc
        · exact List.mem_cons_of_mem _ (ih hc hmem)
      · -- the first piece gets the byte, the others are as before
        rcases List.mem_cons.mp hsplit with rfl | hmem
        · rcases List.mem_cons.mp hc with rfl | hc
          · exact List.mem_cons_self
          · exact List.mem_cons_of_mem _ (ih hc List.mem_cons_self)
        · exact List.mem_cons_of_mem _ (ih hc (List.mem_cons_of_mem _ hmem))

theorem mem_of_mem_revTrimmed {c : UInt8} {p : List UInt8} (h : c ∈ revTrimmed p) : c ∈ p :=
  List.mem_reverse.mp ((List.dropWhile_sublist _).subset h)

theorem basename_nul_free {p : List UInt8} (h : ∀ c ∈ p, c ≠ 0) : ∀ c ∈ basename p, c ≠ 0 := by
  intro c hc
  rw [basename] at hc
  split_ifs at hc with h₁ h₂
  · rw [List.mem_singleton.mp hc]
    decide
  · rw [List.mem_singleton.mp hc]
    decide
  · have hc' := (List.takeWhile_sublist _).subset (List.mem_reverse.mp hc)
    exact h c (mem_of_mem_revTrimmed hc')

/-- A leaf name is never empty: what is left of the path after the trailing
slashes does not end in a slash. -/
theorem basename_ne_nil (p : List UInt8) : basename p ≠ [] := by
  rw [basename]
  split_ifs with h₁ h₂
  · simp
  · simp
  · intro h
    rcases e : revTrimmed p with - | ⟨c, rest⟩
    · exact h₂ e
    · have hc : ¬ (decide (c = slash) = true) := by
        have := List.head?_dropWhile_not (fun x => decide (x = slash)) p.reverse
        rw [show p.reverse.dropWhile (fun x => decide (x = slash)) = c :: rest from e] at this
        simpa using this
      rw [e] at h
      simp [show c ≠ slash by simpa using hc] at h

/-! ### The tokens of a path -/

theorem strtok_append (a b : List UInt8) : strtok (a ++ slash :: b) = strtok a ++ strtok b := by
  have hsplit : (a ++ slash :: b).splitOn slash = a.splitOn slash ++ b.splitOn slash :=
    List.splitOnP_append_cons a b (beq_self_eq_true slash)
  rw [strtok, strtok, strtok, hsplit, List.filter_append]

theorem strtok_name {a : List UInt8} (hne : a ≠ []) (ha : slash ∉ a) : strtok a = [a] := by
  rw [strtok, List.splitOn_eq_singleton ha]
  simp [hne]

theorem strtok_slashes_append {l : List UInt8} (hl : ∀ c ∈ l, c = slash) (b : List UInt8) :
    strtok (l ++ b) = strtok b := by
  induction l with
  | nil => rfl
  | cons c l ih =>
      rw [hl c List.mem_cons_self]
      exact (strtok_append [] (l ++ b)).trans (ih fun x hx => hl x (List.mem_cons_of_mem _ hx))

theorem strtok_append_slashes {l : List UInt8} (hl : ∀ c ∈ l, c = slash) (hne : l ≠ [])
    (a b : List UInt8) : strtok (a ++ (l ++ b)) = strtok a ++ strtok b := by
  rcases l with - | ⟨c, l⟩
  · exact absurd rfl hne
  · rw [hl c List.mem_cons_self]
    refine (strtok_append a (l ++ b)).trans ?_
    rw [strtok_slashes_append fun x hx => hl x (List.mem_cons_of_mem _ hx)]

theorem strtok_append_end {l : List UInt8} (hl : ∀ c ∈ l, c = slash) (a : List UInt8) :
    strtok (a ++ l) = strtok a := by
  rcases eq_or_ne l [] with rfl | hne
  · rw [List.append_nil]
  · have h := strtok_append_slashes hl hne a []
    rwa [List.append_nil, show strtok [] = [] from rfl, List.append_nil] at h

/-- A path in pieces: what `dirname` keeps, slashes, the leaf name, trailing slashes. -/
theorem path_pieces {p : List UInt8} (hhead : p.head? = some slash) (htrim : revTrimmed p ≠ []) :
    ∃ q l l', p = q ++ (l ++ (basename p ++ l')) ∧ l ≠ [] ∧ (∀ c ∈ l, c = slash) ∧
      (∀ c ∈ l', c = slash) ∧ slash ∉ basename p ∧ dirname p = if q = [] then [slash] else q := by
  have hne : p ≠ [] := by
    rintro rfl
    cases hhead
  generalize hr : revTrimmed p = r at htrim
  generalize hparent : r.dropWhile (· ≠ slash) = parent
  have hbase : basename p = (r.takeWhile (· ≠ slash)).reverse := by
    rw [basename, if_neg hne, hr, if_neg htrim]
  have hsplit : r.reverse = (parent.dropWhile (· = slash)).reverse ++
      ((parent.takeWhile (· = slash)).reverse ++ basename p) := by
    rw [hbase, ← List.append_assoc, ← List.reverse_append, List.takeWhile_append_dropWhile,
      ← List.reverse_append, ← hparent, List.takeWhile_append_dropWhile]
  have hp : p = r.reverse ++ (p.reverse.takeWhile (· = slash)).reverse := by
    rw [← hr, revTrimmed, ← List.reverse_append, List.takeWhile_append_dropWhile, List.reverse_reverse]
  -- the path starts with a slash, so there is one before the leaf name
  have hpar : parent ≠ [] := by
    intro hnil
    have hmem : slash ∈ r := by
      rw [hp, List.head?_append_of_ne_nil _ (by simpa using htrim)] at hhead
      exact List.mem_reverse.mp (List.mem_of_mem_head? hhead)
    rw [hnil, List.dropWhile_eq_nil_iff] at hparent
    simpa using hparent slash hmem
  refine ⟨(parent.dropWhile (· = slash)).reverse, (parent.takeWhile (· = slash)).reverse,
    (p.reverse.takeWhile (· = slash)).reverse, ?_, ?_, fun c hc => ?_, fun c hc => ?_, ?_, ?_⟩
  · rw [← List.append_assoc, ← List.append_assoc, List.append_assoc _ _ (basename p), ← hsplit]
    exact hp
  · rcases e : parent with - | ⟨c, rest⟩
    · exact absurd e hpar
    · have hc := List.head?_dropWhile_not (fun x => decide (x ≠ slash)) r
      rw [hparent, e] at hc
      have hc' : c = slash := by simpa using hc
      simp [hc']
  · simpa using List.mem_takeWhile_imp (List.mem_reverse.mp hc)
  · simpa using List.mem_takeWhile_imp (List.mem_reverse.mp hc)
  · rw [hbase, List.mem_reverse]
    intro hc
    simpa using List.mem_takeWhile_imp hc
  · rw [dirname, hr, hparent]
    simp [htrim, hpar]

/-- The tokens of an absolute path that is not all slashes: those of its parent, then
its leaf name. -/
theorem strtok_eq_dirname_basename {p : List UInt8} (hhead : p.head? = some slash)
    (htrim : revTrimmed p ≠ []) : strtok p = strtok (dirname p) ++ [basename p] := by
  obtain ⟨q, l, l', hp, hne, hl, hl', hbase, hdir⟩ := path_pieces hhead htrim
  have htok : strtok p = strtok q ++ [basename p] := by
    rw [← strtok_name (basename_ne_nil p) hbase, ← strtok_append_end hl' (basename p),
      ← strtok_append_slashes hl hne, ← hp]
  rw [htok, hdir]
  split_ifs with hq
  · rw [hq]
    rfl
  · rfl

theorem splitPath_ok {p dir name : List UInt8} (h : splitPath p = .ok (dir, name)) :
    dir = dirname p ∧ name = basename p := by
  rw [splitPath] at h
  split_ifs at h
  cases h
  exact ⟨rfl, rfl⟩

theorem strtok_of_slashes {p : List UInt8} (h : ∀ c ∈ p, c = slash) : strtok p = [] :=
  strtok_append_end h []

/-- The tokens of a path that can be split: those of its parent, then its leaf name, unless it
is all slashes. -/
theorem splitPath_strtok {p dir name : List UInt8} (h : splitPath p = .ok (dir, name)) :
    ((∀ c ∈ p, c = slash) ∧ strtok dir = []) ∨
      ((∃ c ∈ p, c ≠ slash) ∧ strtok p = strtok dir ++ [name]) := by
  obtain ⟨hdir, hname⟩ := splitPath_ok h
  have hhead : p.head? = some slash := by
    by_contra hhead
    rw [splitPath, if_pos hhead] at h
    cases h
  have hne : p ≠ [] := by
    rintro rfl
    cases hhead
  by_cases htrim : revTrimmed p = []
  · left
    refine ⟨fun c hc => ?_, ?_⟩
    · rw [revTrimmed, List.dropWhile_eq_nil_iff] at htrim
      simpa using htrim c (List.mem_reverse.mpr hc)
    · rw [hdir, dirname, if_pos ⟨hne, htrim⟩]
      exact strtok_of_slashes (by simp)
  · right
    refine ⟨?_, by rw [hdir, hname]; exact strtok_eq_dirname_basename hhead htrim⟩
    rw [revTrimmed, List.dropWhile_eq_nil_iff] at htrim
    simpa using htrim

end SystemsPortfolio.Wfs
