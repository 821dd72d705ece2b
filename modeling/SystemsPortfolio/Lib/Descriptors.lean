/-
SystemsPortfolio/Lib/Descriptors.lean

Descriptor tables of processes.

A table maps descriptors to open files.  A new descriptor is always the lowest one that is
free, `dup2` copies an entry over another one, and `close` clears one.  The library has
what these do to a table, and what is left after closing a list of descriptors.
-/
import Mathlib.Data.List.Basic
import Mathlib.Logic.Function.Basic

namespace Descriptors

variable {φ : Type*}

/-- The open files of a process. -/
abbrev Table (φ : Type*) := Nat → Option φ

variable {t t' : Table φ} {limit fd src dst : Nat} {f : φ} {l : List Nat}

/-- The lowest free descriptor below `limit`. -/
def lowest (limit : Nat) (t : Table φ) : Option Nat := (List.range limit).find? fun fd => (t fd).isNone

def close (t : Table φ) (fd : Nat) : Table φ := Function.update t fd none

/-- `dup2`, which fails for a descriptor that is not open. -/
def dup2 (t : Table φ) (src dst : Nat) : Option (Table φ) :=
  (t src).map fun f => Function.update t dst (some f)

def closeAll (t : Table φ) (l : List Nat) : Table φ := l.foldl close t

theorem lowest_eq_some : lowest limit t = some fd ↔
    fd < limit ∧ t fd = none ∧ ∀ k < fd, t k ≠ none := by
  rw [lowest, List.find?_range_eq_some]
  simp only [Option.isNone_iff_eq_none, List.mem_range, Bool.not_eq_eq_eq_not, Bool.not_true,
    Option.isNone_eq_false_iff, Option.isSome_iff_ne_none]
  exact ⟨fun ⟨h₁, h₂, h₃⟩ => ⟨h₂, h₁, h₃⟩, fun ⟨h₁, h₂, h₃⟩ => ⟨h₂, h₁, h₃⟩⟩

theorem lowest_eq_none : lowest limit t = none ↔ ∀ fd < limit, t fd ≠ none := by
  rw [lowest, List.find?_eq_none]
  simp [Option.isNone_iff_eq_none]

theorem dup2_of_open (h : t src = some f) :
    dup2 t src dst = some (Function.update t dst (some f)) := by
  rw [dup2, h]
  rfl

theorem closeAll_apply (t : Table φ) (l : List Nat) (fd : Nat) :
    closeAll t l fd = if fd ∈ l then none else t fd := by
  induction l generalizing t with
  | nil => simp [closeAll]
  | cons k l ih =>
      show closeAll (close t k) l fd = _
      rw [ih, close]
      by_cases hl : fd ∈ l
      · rw [if_pos hl, if_pos (List.mem_cons_of_mem k hl)]
      · rcases eq_or_ne fd k with rfl | hk
        · rw [if_neg hl, Function.update_self, if_pos List.mem_cons_self]
        · rw [if_neg hl, Function.update_of_ne hk, if_neg]
          rintro hmem
          rcases List.mem_cons.mp hmem with e | e
          · exact hk e
          · exact hl e

end Descriptors
