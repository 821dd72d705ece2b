/-
SystemsPortfolio/Lib/RedoLog.lean

Redo logs on a disk of numbered blocks.

A log occupies the blocks from `start` on: a header, and behind it one copy for
each home block that the header lists.  `replay` is the disk that recovery produces:
a listed block gets its copy, the others stay.  What a crash leaves behind is judged
by its replay only, so the lemmas of this library say what the elementary writes of a
commit do to it:

* while the header lists nothing, copies can be written freely (`replay_nil`);
* installing a copy changes nothing (`replay_install`), so it can be repeated;
* once all copies are installed the header can be cleared (`replay_installed`).
-/
import Mathlib.Data.List.Nodup
import Mathlib.Logic.Function.Basic

namespace RedoLog

variable {β : Type*} {start size b c : Nat} {disk disk' : Nat → β} {lh : List Nat} {j : Nat}

/-- The blocks of the log itself. -/
def Region (start size b : Nat) : Prop := start ≤ b ∧ b < start + size

instance : Decidable (Region start size b) := inferInstanceAs (Decidable (_ ∧ _))

/-- A header that fits its log: distinct home blocks, with room for their copies. -/
structure Fits (start size : Nat) (lh : List Nat) : Prop where
  nodup : lh.Nodup
  home : ∀ b ∈ lh, ¬ Region start size b
  room : lh.length < size

/-- What recovery makes of a block. -/
def replay (start : Nat) (lh : List Nat) (disk : Nat → β) (b : Nat) : β :=
  if b ∈ lh then disk (start + lh.idxOf b + 1) else disk b

theorem replay_nil : replay start [] disk = disk := by
  funext b
  simp [replay]

theorem replay_of_not_mem (h : b ∉ lh) : replay start lh disk b = disk b := if_neg h

theorem replay_getElem (h : lh.Nodup) (hj : j < lh.length) :
    replay start lh disk lh[j] = disk (start + j + 1) := by
  rw [replay, if_pos (List.getElem_mem hj), h.idxOf_getElem j hj]

theorem Fits.copy_region (h : Fits start size lh) (hj : j < lh.length) :
    Region start size (start + j + 1) := by
  have := h.room
  exact ⟨by omega, by omega⟩

theorem Fits.getElem_ne_copy {k : Nat} (h : Fits start size lh) (hj : j < lh.length)
    (hk : k < lh.length) : lh[j] ≠ start + k + 1 := by
  intro e
  exact h.home _ (List.getElem_mem hj) (e ▸ h.copy_region hk)

/-- A home block that no header lists is as it was when only the log was written. -/
theorem replay_congr (h : Fits start size lh)
    (hcopy : ∀ j < lh.length, disk' (start + j + 1) = disk (start + j + 1))
    (hrest : b ∉ lh → disk' b = disk b) : replay start lh disk' b = replay start lh disk b := by
  by_cases hb : b ∈ lh
  · obtain ⟨j, hj, rfl⟩ := List.getElem_of_mem hb
    rw [replay_getElem h.nodup hj, replay_getElem h.nodup hj, hcopy j hj]
  · rw [replay_of_not_mem hb, replay_of_not_mem hb, hrest hb]

/-- Installing a copy at its home changes nothing. -/
theorem replay_install (h : Fits start size lh) (hj : j < lh.length) (b : Nat) :
    replay start lh (Function.update disk lh[j] (disk (start + j + 1))) b =
      replay start lh disk b := by
  refine replay_congr h (fun k hk => ?_) fun hb => ?_
  · rw [Function.update_of_ne (h.getElem_ne_copy hj hk).symm]
  · refine Function.update_of_ne ?_ ..
    rintro rfl
    exact hb (List.getElem_mem hj)

/-- When every copy is at its home, the header says nothing new. -/
theorem replay_installed (h : lh.Nodup)
    (hall : ∀ j (hj : j < lh.length), disk lh[j] = disk (start + j + 1)) :
    replay start lh disk = disk := by
  funext b
  by_cases hb : b ∈ lh
  · obtain ⟨j, hj, rfl⟩ := List.getElem_of_mem hb
    rw [replay_getElem h hj, hall j hj]
  · exact replay_of_not_mem hb

/-- The copies of a version `m` of the listed blocks, together with the other blocks of `m`,
replay to `m`. -/
theorem replay_copies {m : Nat → β} (h : lh.Nodup)
    (hcopy : ∀ j (hj : j < lh.length), disk (start + j + 1) = m lh[j])
    (hrest : b ∉ lh → disk b = m b) : replay start lh disk b = m b := by
  by_cases hb : b ∈ lh
  · obtain ⟨j, hj, rfl⟩ := List.getElem_of_mem hb
    rw [replay_getElem h hj, hcopy j hj]
  · rw [replay_of_not_mem hb, hrest hb]

/-- Adding a block to a header, unless it is there already. -/
def absorb (lh : List Nat) (b : Nat) : List Nat := if b ∈ lh then lh else lh ++ [b]

theorem mem_absorb : c ∈ absorb lh b ↔ c ∈ lh ∨ c = b := by
  rw [absorb]
  split_ifs with hb
  · refine ⟨Or.inl, ?_⟩
    rintro (hc | rfl)
    · exact hc
    · exact hb
  · simp

theorem length_absorb_le : (absorb lh b).length ≤ lh.length + 1 := by
  rw [absorb]
  split_ifs <;> simp

theorem absorb_of_mem (h : b ∈ lh) : absorb lh b = lh := if_pos h

theorem Fits.absorb (h : Fits start size lh) (hb : ¬ Region start size b)
    (hroom : (absorb lh b).length < size) : Fits start size (absorb lh b) := by
  refine ⟨?_, fun c hc => ?_, hroom⟩
  · rw [RedoLog.absorb]
    split_ifs with hmem
    · exact h.nodup
    · exact List.nodup_append.mpr ⟨h.nodup, List.nodup_singleton b, by
        rintro a ha _ hb' rfl
        exact hmem (List.mem_singleton.mp hb' ▸ ha)⟩
  · rcases mem_absorb.mp hc with hc | rfl
    · exact h.home c hc
    · exact hb

end RedoLog
