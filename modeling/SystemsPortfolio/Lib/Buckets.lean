/-
SystemsPortfolio/Lib/Buckets.lean

Chained hash tables: a row of entries for each value of a hash function.

A table is *sound* when every entry stands in the chain its key hashes to, and no chain has
two entries of one key; then no key occurs twice in the whole table.  An operation on one
key edits one chain, and what it does to the table follows from what it does to the chain
(`Sound.edit`, `get_edit`).
-/
import Mathlib.Data.List.Nodup
import Mathlib.Logic.Function.Basic

namespace Buckets

variable {I K E : Type*} [DecidableEq I] [DecidableEq K]

/-- The first entry of a chain with the key `k`. -/
def lookup (key : E → K) (k : K) (chain : List E) : Option E :=
  chain.find? fun e => key e = k

/-- The entry that a table holds under `k`. -/
def get (hash : K → I) (key : E → K) (t : I → List E) (k : K) : Option E :=
  lookup key k (t (hash k))

structure Sound (hash : K → I) (key : E → K) (t : I → List E) : Prop where
  placed : ∀ i, ∀ e ∈ t i, hash (key e) = i
  nodup : ∀ i, ((t i).map key).Nodup

/-- `chain'` is `chain` with `o` as the entry under `k`. -/
structure Edit (key : E → K) (k : K) (o : Option E) (chain chain' : List E) : Prop where
  here : lookup key k chain' = o
  other : ∀ k', k' ≠ k → lookup key k' chain' = lookup key k' chain
  mem : ∀ e ∈ chain', e ∈ chain ∨ key e = k
  nodup : (chain'.map key).Nodup

variable {hash : K → I} {key : E → K} {t : I → List E} {k : K} {o : Option E}
variable {chain chain' : List E}

@[simp] theorem lookup_nil : lookup key k [] = none := rfl

theorem lookup_cons_self {e : E} (h : key e = k) : lookup key k (e :: chain) = some e := by
  simp [lookup, h]

theorem lookup_cons_of_ne {e : E} (h : key e ≠ k) :
    lookup key k (e :: chain) = lookup key k chain := by
  simp [lookup, h]

theorem lookup_eq_none : lookup key k chain = none ↔ k ∉ chain.map key := by
  simp [lookup]

/-- Without a key that occurs twice every entry is found. -/
theorem lookup_of_mem {e : E} (hnodup : (chain.map key).Nodup) (he : e ∈ chain) :
    lookup key (key e) chain = some e := by
  induction chain with
  | nil => cases he
  | cons a chain ih =>
      rw [List.map_cons, List.nodup_cons] at hnodup
      rcases List.mem_cons.1 he with rfl | hmem
      · exact lookup_cons_self rfl
      · have hne : key a ≠ key e := by
          intro h
          exact hnodup.1 (h ▸ List.mem_map_of_mem hmem)
        rw [lookup_cons_of_ne hne]
        exact ih hnodup.2 hmem

/-- An entry in front of the edited part stays where it is. -/
theorem Edit.cons {e : E} (h : Edit key k o chain chain') (hk : key e ≠ k)
    (hnodup : ((e :: chain).map key).Nodup) : Edit key k o (e :: chain) (e :: chain') where
  here := by
    rw [lookup_cons_of_ne hk]
    exact h.here
  other := by
    intro k' hk'
    by_cases he : key e = k'
    · rw [lookup_cons_self he, lookup_cons_self he]
    · rw [lookup_cons_of_ne he, lookup_cons_of_ne he]
      exact h.other k' hk'
  mem := by
    intro e' he'
    rcases List.mem_cons.1 he' with rfl | hmem
    · exact .inl (by simp)
    · rcases h.mem e' hmem with hm | hm
      · exact .inl (by simp [hm])
      · exact .inr hm
  nodup := by
    rw [List.map_cons, List.nodup_cons] at hnodup ⊢
    refine ⟨?_, h.nodup⟩
    intro hmem
    obtain ⟨e', he', heq⟩ := List.mem_map.1 hmem
    rcases h.mem e' he' with hm | hm
    · exact hnodup.1 (heq ▸ List.mem_map_of_mem hm)
    · exact hk (heq.symm.trans hm)

omit [DecidableEq I] [DecidableEq K] in
theorem sound_empty : Sound hash key fun _ => [] where
  placed := by simp
  nodup := by simp

/-- An edit of the chain of `k` keeps the table sound. -/
theorem Sound.edit (h : Sound hash key t) (he : Edit key k o (t (hash k)) chain') :
    Sound hash key (Function.update t (hash k) chain') where
  placed := by
    intro i e hmem
    by_cases hi : i = hash k
    · subst hi
      rw [Function.update_self] at hmem
      rcases he.mem e hmem with hm | hm
      · exact h.placed _ e hm
      · rw [hm]
    · rw [Function.update_of_ne hi] at hmem
      exact h.placed i e hmem
  nodup := by
    intro i
    by_cases hi : i = hash k
    · subst hi
      rw [Function.update_self]
      exact he.nodup
    · rw [Function.update_of_ne hi]
      exact h.nodup i

/-- The edited table is the old one but for `k`. -/
theorem get_edit (he : Edit key k o (t (hash k)) chain') :
    get hash key (Function.update t (hash k) chain')
      = Function.update (get hash key t) k o := by
  funext k'
  by_cases hk : k' = k
  · subst hk
    rw [Function.update_self, get, Function.update_self]
    exact he.here
  · rw [Function.update_of_ne hk, get, get]
    by_cases hi : hash k' = hash k
    · rw [hi, Function.update_self]
      exact he.other k' hk
    · rw [Function.update_of_ne hi]

omit [DecidableEq I] [DecidableEq K] in
/-- No key occurs twice in chains of different indices. -/
theorem Sound.nodup_keys (h : Sound hash key t) {is : List I} (his : is.Nodup) :
    (is.flatMap fun i => (t i).map key).Nodup := by
  rw [List.nodup_flatMap]
  refine ⟨fun i _ => h.nodup i, his.imp ?_⟩
  intro i j hij k hi hj
  obtain ⟨e, he, rfl⟩ := List.mem_map.1 hi
  obtain ⟨e', he', heq⟩ := List.mem_map.1 hj
  apply hij
  rw [← h.placed i e he, ← heq, h.placed j e' he']

omit [DecidableEq I] in
theorem Sound.get_of_mem (h : Sound hash key t) {i : I} {e : E} (he : e ∈ t i) :
    get hash key t (key e) = some e := by
  obtain rfl := h.placed i e he
  exact lookup_of_mem (h.nodup _) he

end Buckets
