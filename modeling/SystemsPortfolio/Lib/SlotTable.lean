/-
SystemsPortfolio/Lib/SlotTable.lean

A finite map kept in a row of slots.

Each of the first `n` slots of a table is empty or holds a key with its value.  Where no
key stands in two slots, the table is a map from keys to values (`Holds`), and it takes `n`
keys exactly when no slot is empty.  Filling an empty slot with a new key and emptying a
slot change the map at one key (`Holds.put`, `Holds.clear`).
-/
import Mathlib.Data.Set.Card
import Mathlib.Logic.Function.Basic

namespace SlotTable

variable {K V : Type*}

/-- The first `n` slots of `t` are the map `m`. -/
structure Holds (t : Nat → Option (K × V)) (n : Nat) (m : K → Option V) : Prop where
  inj : ∀ {i j k v w}, i < n → j < n → t i = some (k, v) → t j = some (k, w) → i = j
  mem : ∀ k v, m k = some v ↔ ∃ i < n, t i = some (k, v)

variable {t t' : Nat → Option (K × V)} {n i : Nat} {m : K → Option V} {k : K} {v : V}

open Classical in
/-- A table that uses no key twice holds a map. -/
theorem exists_holds
    (hinj : ∀ {i j k v w}, i < n → j < n → t i = some (k, v) → t j = some (k, w) → i = j) :
    ∃ m, Holds t n m := by
  refine ⟨fun k => if h : ∃ v, ∃ i < n, t i = some (k, v) then some h.choose else none,
    hinj, fun k v => ?_⟩
  constructor
  · intro hv
    split_ifs at hv with h
    obtain rfl := Option.some.inj hv
    exact h.choose_spec
  · rintro ⟨i, hi, e⟩
    have h : ∃ v, ∃ i < n, t i = some (k, v) := ⟨v, i, hi, e⟩
    obtain ⟨j, hj, e'⟩ := h.choose_spec
    obtain rfl := hinj hi hj e e'
    rw [dif_pos h, (Prod.mk.inj (Option.some.inj (e'.symm.trans e))).2]

theorem Holds.ne_none_iff (h : Holds t n m) : m k ≠ none ↔ ∃ i < n, ∃ v, t i = some (k, v) := by
  rw [Option.ne_none_iff_exists']
  constructor
  · rintro ⟨v, hv⟩
    obtain ⟨i, hi, e⟩ := (h.mem k v).1 hv
    exact ⟨i, hi, v, e⟩
  · rintro ⟨i, hi, v, e⟩
    exact ⟨v, (h.mem k v).2 ⟨i, hi, e⟩⟩

theorem Holds.congr (h : Holds t n m) (he : ∀ i < n, t' i = t i) : Holds t' n m where
  inj hi hj e e' := h.inj hi hj ((he _ hi).symm.trans e) ((he _ hj).symm.trans e')
  mem k v := by
    rw [h.mem]
    refine exists_congr fun i => and_congr_right fun hi => ?_
    rw [he i hi]

theorem holds_empty (h : ∀ i < n, t i = none) : Holds t n fun _ => none where
  inj hi _ e _ := by
    rw [h _ hi] at e
    cases e
  mem k v := by
    constructor
    · intro e
      cases e
    · rintro ⟨i, hi, e⟩
      rw [h i hi] at e
      cases e

/-! ### Changing one slot -/

/-- Only slot `i` differs. -/
def SameBut (t t' : Nat → Option (K × V)) (n i : Nat) : Prop := ∀ j < n, j ≠ i → t' j = t j

/-- A new key is put into an empty slot. -/
theorem Holds.put [DecidableEq K] (h : Holds t n m) (hi : i < n) (hempty : t i = none)
    (hnew : m k = none) (hs : SameBut t t' n i) (hput : t' i = some (k, v)) :
    Holds t' n (Function.update m k (some v)) := by
  -- where the new table holds another key, the old one does too
  have hold : ∀ {j a b}, j < n → j ≠ i → t' j = some (a, b) → t j = some (a, b) ∧ a ≠ k := by
    intro j a b hj hji e
    rw [hs j hj hji] at e
    refine ⟨e, ?_⟩
    rintro rfl
    rw [(h.mem a b).2 ⟨j, hj, e⟩] at hnew
    cases hnew
  constructor
  · intro j l a b c hj hl e e'
    rcases eq_or_ne j i with rfl | hji
    · rcases eq_or_ne l j with rfl | hlj
      · rfl
      · obtain ⟨rfl, -⟩ := Prod.mk.inj (Option.some.inj (hput.symm.trans e))
        exact absurd rfl (hold hl hlj e').2
    · rcases eq_or_ne l i with rfl | hli
      · obtain ⟨rfl, -⟩ := Prod.mk.inj (Option.some.inj (hput.symm.trans e'))
        exact absurd rfl (hold hj hji e).2
      · exact h.inj hj hl (hold hj hji e).1 (hold hl hli e').1
  · intro a b
    rcases eq_or_ne a k with rfl | hak
    · rw [Function.update_self]
      constructor
      · rintro ⟨⟩
        exact ⟨i, hi, hput⟩
      · rintro ⟨j, hj, e⟩
        rcases eq_or_ne j i with rfl | hji
        · exact congrArg some (Prod.mk.inj (Option.some.inj (hput.symm.trans e))).2
        · exact absurd rfl (hold hj hji e).2
    · rw [Function.update_of_ne hak, h.mem]
      constructor
      · rintro ⟨j, hj, e⟩
        refine ⟨j, hj, ?_⟩
        rw [hs j hj, e]
        rintro rfl
        rw [hempty] at e
        cases e
      · rintro ⟨j, hj, e⟩
        rcases eq_or_ne j i with rfl | hji
        · exact absurd (Prod.mk.inj (Option.some.inj (hput.symm.trans e))).1.symm hak
        · exact ⟨j, hj, (hold hj hji e).1⟩

/-- A slot is emptied. -/
theorem Holds.clear [DecidableEq K] (h : Holds t n m) (hi : i < n) (hused : t i = some (k, v))
    (hs : SameBut t t' n i) (hclear : t' i = none) : Holds t' n (Function.update m k none) := by
  have hold : ∀ {j e}, j < n → t' j = some e → j ≠ i ∧ t j = some e := by
    intro j e hj he
    have hji : j ≠ i := by
      rintro rfl
      rw [hclear] at he
      cases he
    exact ⟨hji, (hs j hj hji).symm.trans he⟩
  constructor
  · intro j l a b c hj hl e e'
    exact h.inj hj hl (hold hj e).2 (hold hl e').2
  · intro a b
    rcases eq_or_ne a k with rfl | hak
    · rw [Function.update_self]
      constructor
      · intro e
        cases e
      · rintro ⟨j, hj, e⟩
        -- the key stood in slot `i` only
        obtain ⟨hji, e⟩ := hold hj e
        exact absurd (h.inj hj hi e hused) hji
    · rw [Function.update_of_ne hak, h.mem]
      constructor
      · rintro ⟨j, hj, e⟩
        refine ⟨j, hj, ?_⟩
        rw [hs j hj, e]
        rintro rfl
        exact hak (Prod.mk.inj (Option.some.inj (e.symm.trans hused))).1
      · rintro ⟨j, hj, e⟩
        exact ⟨j, hj, (hold hj e).2⟩

/-! ### Listing the keys -/

/-- The keys in the order of their slots. -/
def keys (t : Nat → Option (K × V)) (n : Nat) : List K :=
  (List.range n).filterMap fun i => (t i).map Prod.fst

theorem Holds.mem_keys (h : Holds t n m) : k ∈ keys t n ↔ m k ≠ none := by
  rw [h.ne_none_iff, keys, List.mem_filterMap]
  simp only [List.mem_range, Option.map_eq_some_iff, Prod.exists, exists_and_right, exists_eq_right]

theorem Holds.nodup_keys (h : Holds t n m) : (keys t n).Nodup := by
  rw [keys, List.Nodup, List.pairwise_filterMap]
  refine List.nodup_range.imp_of_mem ?_
  intro i j hi hj hij k hk k' hk' e
  rw [Option.map_eq_some_iff] at hk hk'
  obtain ⟨⟨a, v⟩, ei, rfl⟩ := hk
  obtain ⟨⟨b, w⟩, ej, rfl⟩ := hk'
  obtain rfl : a = b := e
  exact hij (h.inj (List.mem_range.1 hi) (List.mem_range.1 hj) ei ej)

theorem length_keys_eq_iff : (keys t n).length = n ↔ ∀ i < n, t i ≠ none := by
  have hcount : (keys t n).length = (List.range n).countP fun i => (t i).isSome := by
    rw [keys, List.length_filterMap_eq_countP]
    simp
  have hall := @List.countP_eq_length _ (List.range n) fun i => (t i).isSome
  rw [List.length_range] at hall
  rw [hcount, hall]
  simp [Option.isSome_iff_ne_none]

theorem Holds.domain_eq [DecidableEq K] (h : Holds t n m) :
    {k | m k ≠ none} = ((keys t n).toFinset : Set K) := by
  ext k
  simp [h.mem_keys]

theorem Holds.finite [DecidableEq K] (h : Holds t n m) : {k | m k ≠ none}.Finite := by
  rw [h.domain_eq]
  exact Finset.finite_toSet _

/-- The map has as many keys as are listed. -/
theorem Holds.ncard_eq [DecidableEq K] (h : Holds t n m) :
    {k | m k ≠ none}.ncard = (keys t n).length := by
  rw [h.domain_eq, Set.ncard_coe_finset, List.toFinset_card_of_nodup h.nodup_keys]

theorem Holds.ncard_le [DecidableEq K] (h : Holds t n m) : {k | m k ≠ none}.ncard ≤ n := by
  rw [h.ncard_eq, keys]
  exact (List.length_filterMap_le ..).trans (by rw [List.length_range])

/-- The map is full when no slot is empty. -/
theorem Holds.full_iff [DecidableEq K] (h : Holds t n m) :
    {k | m k ≠ none}.ncard = n ↔ ∀ i < n, t i ≠ none := by
  rw [h.ncard_eq, length_keys_eq_iff]

end SlotTable
