/-
SystemsPortfolio/Wsh/Strings.lean

C strings and the libc functions that the shell `wsh` calls on them.

A string is the list of its bytes before the terminating NUL.  `strchr` is used to cut a
string at a byte and `strtok_r` to read off the parts between bytes, so these are what is
modelled; `strtol` follows the C standard in the C locale, with a 64-bit `long`.
-/
import Mathlib.Data.List.Basic

namespace SystemsPortfolio.Wsh

/-- A NUL-terminated string, without its terminator. -/
abbrev Str := List UInt8

/-- A string literal of the source. -/
def ascii (s : String) : Str :=
  s.toList.map fun c => UInt8.ofNat c.toNat

/-- The byte `'`. -/
abbrev quote : UInt8 := 39

/-- The byte `|`. -/
abbrev bar : UInt8 := 124

abbrev space : UInt8 := 32

abbrev newline : UInt8 := 10

/-- What stands before and after the byte that `strchr(s, c)` finds. -/
def cut (c : UInt8) : Str → Option (Str × Str)
  | [] => none
  | b :: s => if b = c then some ([], s) else (cut c s).map fun (u, v) => (b :: u, v)

/-- The byte found is the first one. -/
theorem cut_append {c : UInt8} {u : Str} (h : c ∉ u) (v : Str) :
    cut c (u ++ c :: v) = some (u, v) := by
  induction u with
  | nil => simp [cut]
  | cons b u ih =>
      rw [List.mem_cons, not_or] at h
      rw [List.cons_append, cut, if_neg (Ne.symm h.1), ih h.2]
      rfl

theorem cut_eq_none {c : UInt8} {s : Str} : cut c s = none ↔ c ∉ s := by
  induction s with
  | nil => simp [cut]
  | cons b s ih =>
      by_cases hb : b = c
      · simp [cut, hb]
      · simp [cut, hb, ih, Ne.symm hb]

theorem cut_eq_some {c : UInt8} {s u v : Str} :
    cut c s = some (u, v) ↔ s = u ++ c :: v ∧ c ∉ u := by
  constructor
  · intro h
    have hc : c ∈ s := by
      by_contra hc
      rw [cut_eq_none.2 hc] at h
      cases h
    obtain ⟨u', v', rfl, hu'⟩ := List.eq_append_cons_of_mem hc
    rw [cut_append hu'] at h
    cases h
    exact ⟨rfl, hu'⟩
  · rintro ⟨rfl, hu⟩
    exact cut_append hu v

/-- The tokens `strtok_r(s, c, ..)` delivers one after another. -/
def strtok (c : UInt8) (s : Str) : List Str :=
  (s.splitOn c).filter (· ≠ [])

/-- `strcmp(a, b) <= 0`. -/
def strcmpLe : Str → Str → Bool
  | [], _ => true
  | _ :: _, [] => false
  | a :: s, b :: t => a < b || (a == b && strcmpLe s t)

/-- A place in a list with one more element is the last one, or a place before it. -/
theorem append_singleton_eq_iff {α : Type*} {s u v : List α} {a b : α} :
    s ++ [b] = u ++ a :: v ↔
      (v = [] ∧ s = u ∧ b = a) ∨ ∃ v', v = v' ++ [b] ∧ s = u ++ a :: v' := by
  constructor
  · intro h
    rcases List.eq_nil_or_concat v with rfl | ⟨v', c, rfl⟩
    · obtain ⟨hs, hb⟩ := List.append_inj' h rfl
      exact .inl ⟨rfl, hs, List.singleton_inj.1 hb⟩
    · rw [List.concat_eq_append] at h ⊢
      rw [← List.cons_append, ← List.append_assoc] at h
      obtain ⟨hs, hb⟩ := List.append_inj' h rfl
      exact .inr ⟨v', by rw [List.singleton_inj.1 hb], hs⟩
  · rintro (⟨rfl, rfl, rfl⟩ | ⟨v', rfl, rfl⟩)
    · rfl
    · simp

/-! ### `strtol` -/

def isSpace (c : UInt8) : Bool :=
  c = 32 || (9 ≤ c && c ≤ 13)

def isDigit (c : UInt8) : Bool :=
  48 ≤ c && c ≤ 57

/-- The number that a row of digits denotes. -/
def digitsVal (ds : Str) : Nat :=
  ds.foldl (fun n c => 10 * n + (c.toNat - 48)) 0

/-- `LONG_MAX`. -/
def longMax : Int := 9223372036854775807

/-- `LONG_MIN`. -/
def longMin : Int := -9223372036854775808

/-- The sign in front of the digits, if any, and what follows it. -/
def signOf : Str → Bool × Str
  | [] => (false, [])
  | c :: s => if c = 45 then (true, s) else if c = 43 then (false, s) else (false, c :: s)

/-- `strtol(s, &endp, 10)`: the value, and the string at `endp`. -/
def strtol (s : Str) : Int × Str :=
  let (neg, t) := signOf (s.dropWhile isSpace)
  let digits := t.takeWhile isDigit
  if digits = [] then (0, s)
  else
    let v : Int := if neg then -(digitsVal digits : Int) else digitsVal digits
    (max longMin (min longMax v), t.dropWhile isDigit)

/-- A number with blanks before it is read to its end; one with text after it is not. -/
example : strtol (ascii " +12") = (12, []) ∧ strtol (ascii "3x") = (3, ascii "x") := by
  decide +kernel

end SystemsPortfolio.Wsh
