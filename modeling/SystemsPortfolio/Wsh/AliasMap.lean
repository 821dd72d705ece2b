/-
SystemsPortfolio/Wsh/AliasMap.lean

The hash map of `hash_map.c` is a finite map.

`hm_put` and `hm_delete` walk the chain of the key's bucket; each is an edit of that chain,
so the table stays sound and is read as before under any other key.  `hm_delete` unlinks
only the first entry it meets, which is enough because a chain has no key twice.
-/
import SystemsPortfolio.Lib.Buckets
import SystemsPortfolio.Wsh.HashMap
import Mathlib.Data.List.Induction

namespace SystemsPortfolio.Wsh

open Buckets

/-- Every entry is in the bucket of its key, and no bucket has a key twice. -/
def HashMap.Sound (hm : HashMap) : Prop :=
  Buckets.Sound hash Entry.key hm.buckets

theorem hmGet_eq (hm : HashMap) (key : Str) :
    hmGet hm key = (Buckets.get hash Entry.key hm.buckets key).map Entry.value := rfl

/-! ### The walks along a chain -/

theorem chainPut_eq_none {key value : Str} {chain : List Entry}
    (h : chainPut key value chain = none) : key ∉ chain.map Entry.key := by
  induction chain with
  | nil => simp
  | cons e chain ih =>
      rw [chainPut] at h
      split at h
      · cases h
      · next hk =>
          rw [List.map_cons, List.mem_cons, not_or]
          exact ⟨Ne.symm hk, ih (Option.map_eq_none_iff.1 h)⟩

theorem chainPut_edit {key value : Str} {chain chain' : List Entry}
    (hnodup : (chain.map Entry.key).Nodup) (h : chainPut key value chain = some chain') :
    Edit Entry.key key (some ⟨key, value⟩) chain chain' := by
  induction chain generalizing chain' with
  | nil => cases h
  | cons e chain ih =>
      rw [chainPut] at h
      split at h
      · next hk =>
          obtain rfl := Option.some.inj h
          subst hk
          refine ⟨lookup_cons_self rfl, ?_, ?_, hnodup⟩
          · intro k' hk'
            rw [lookup_cons_of_ne (Ne.symm hk')]
            exact lookup_cons_of_ne (Ne.symm hk')
          · intro e' he'
            rcases List.mem_cons.1 he' with rfl | hmem
            · exact .inr rfl
            · exact .inl (by simp [hmem])
      · next hk =>
          obtain ⟨rest, hrest, rfl⟩ := Option.map_eq_some_iff.1 h
          exact (ih (List.nodup_cons.1 hnodup).2 hrest).cons hk hnodup

/-- A new entry at the head of a chain without its key. -/
theorem cons_edit {e : Entry} {chain : List Entry} (hnodup : (chain.map Entry.key).Nodup)
    (hnew : e.key ∉ chain.map Entry.key) : Edit Entry.key e.key (some e) chain (e :: chain) where
  here := lookup_cons_self rfl
  other := by
    intro k' hk'
    exact lookup_cons_of_ne (Ne.symm hk')
  mem := by
    intro e' he'
    rcases List.mem_cons.1 he' with rfl | hmem
    · exact .inr rfl
    · exact .inl hmem
  nodup := List.nodup_cons.2 ⟨hnew, hnodup⟩

theorem chainDelete_edit {key : Str} {chain : List Entry}
    (hnodup : (chain.map Entry.key).Nodup) :
    Edit Entry.key key none chain (chainDelete key chain) := by
  induction chain with
  | nil => exact ⟨rfl, fun _ _ => rfl, by simp [chainDelete], by simp [chainDelete]⟩
  | cons e chain ih =>
      have hrest := List.nodup_cons.1 hnodup
      rw [chainDelete]
      split
      · next hk =>
          subst hk
          -- the entry behind it has another key
          refine ⟨lookup_eq_none.2 hrest.1, ?_, ?_, hrest.2⟩
          · intro k' hk'
            rw [lookup_cons_of_ne (Ne.symm hk')]
          · intro e' he'
            exact .inl (by simp [he'])
      · next hk => exact (ih hrest.2).cons hk hnodup

/-! ### The operations -/

variable {hm : HashMap}

theorem put_edit (h : hm.Sound) (key value : Str) :
    Edit Entry.key key (some ⟨key, value⟩) (hm.buckets (hash key))
      ((chainPut key value (hm.buckets (hash key))).getD
        (⟨key, value⟩ :: hm.buckets (hash key))) := by
  have hnodup := h.nodup (hash key)
  rcases hput : chainPut key value (hm.buckets (hash key)) with - | chain
  · exact cons_edit (e := ⟨key, value⟩) hnodup (chainPut_eq_none hput)
  · exact chainPut_edit hnodup hput

theorem sound_create : hmCreate.Sound :=
  sound_empty

theorem HashMap.Sound.put (h : hm.Sound) (key value : Str) : (hmPut hm key value).Sound :=
  Buckets.Sound.edit h (put_edit h key value)

theorem HashMap.Sound.delete (h : hm.Sound) (key : Str) : (hmDelete hm key).Sound :=
  Buckets.Sound.edit h (chainDelete_edit (h.nodup (hash key)))

/-- An edit of a bucket, read through `hm_get`. -/
theorem hmGet_edit {key : Str} {o : Option Entry} {chain : List Entry}
    (he : Edit Entry.key key o (hm.buckets (hash key)) chain) :
    hmGet { buckets := Function.update hm.buckets (hash key) chain }
      = Function.update (hmGet hm) key (o.map Entry.value) := by
  funext k
  rw [hmGet_eq, get_edit he]
  by_cases hk : k = key
  · subst hk
    rw [Function.update_self, Function.update_self]
  · rw [Function.update_of_ne hk, Function.update_of_ne hk, hmGet_eq]

/-- `hm_put` changes the map at its key only. -/
theorem hmGet_put (h : hm.Sound) (key value : Str) :
    hmGet (hmPut hm key value) = Function.update (hmGet hm) key (some value) :=
  hmGet_edit (put_edit h key value)

/-- `hm_delete` changes the map at its key only. -/
theorem hmGet_delete (h : hm.Sound) (key : Str) :
    hmGet (hmDelete hm key) = Function.update (hmGet hm) key none :=
  hmGet_edit (chainDelete_edit (h.nodup (hash key)))

/-- Every entry of the table is the one found under its key. -/
theorem HashMap.Sound.hmGet_of_mem (h : hm.Sound) {i : Fin tableSize} {e : Entry}
    (he : e ∈ hm.buckets i) : hmGet hm e.key = some e.value := by
  rw [hmGet_eq, Buckets.Sound.get_of_mem h he]
  rfl

theorem HashMap.Sound.nodup_keys (h : hm.Sound) : (hmKeys hm).Nodup :=
  Buckets.Sound.nodup_keys h (List.nodup_finRange _)

/-! ### Runs of operations -/

/-- A call of `hm_put` or `hm_delete`. -/
inductive MapOp
  | put (key value : Str)
  | delete (key : Str)
  deriving DecidableEq

def MapOp.key : MapOp → Str
  | .put key _ => key
  | .delete key => key

/-- What is stored under its key after a call. -/
def MapOp.stored : MapOp → Option Str
  | .put _ value => some value
  | .delete _ => none

def MapOp.exec (hm : HashMap) : MapOp → HashMap
  | .put key value => hmPut hm key value
  | .delete key => hmDelete hm key

/-- The map after a row of calls, from `hm_create`. -/
def mapRun (ops : List MapOp) : HashMap :=
  ops.foldl MapOp.exec hmCreate

theorem mapRun_append (ops : List MapOp) (op : MapOp) :
    mapRun (ops ++ [op]) = op.exec (mapRun ops) := by
  simp [mapRun]

theorem HashMap.Sound.exec (h : hm.Sound) (op : MapOp) : (op.exec hm).Sound := by
  cases op with
  | put key value => exact h.put key value
  | delete key => exact h.delete key

theorem sound_run (ops : List MapOp) : (mapRun ops).Sound := by
  induction ops using List.reverseRecOn with
  | nil => exact sound_create
  | append_singleton ops op ih =>
      rw [mapRun_append]
      exact ih.exec op

/-- A call changes the map at its key only. -/
theorem hmGet_exec (h : hm.Sound) (op : MapOp) :
    hmGet (op.exec hm) = Function.update (hmGet hm) op.key op.stored := by
  cases op with
  | put key value => exact hmGet_put h key value
  | delete key => exact hmGet_delete h key

/-- The value under `k` is that of the last put, if nothing was done to `k` since. -/
theorem hmGet_run_iff (ops : List MapOp) (k v : Str) :
    hmGet (mapRun ops) k = some v ↔
      ∃ before after, ops = before ++ .put k v :: after ∧ ∀ op ∈ after, op.key ≠ k := by
  induction ops using List.reverseRecOn with
  | nil => simp [mapRun, hmCreate, hmGet]
  | append_singleton ops op ih =>
      rw [mapRun_append, hmGet_exec (sound_run ops)]
      by_cases hk : k = op.key
      · -- the last call decides
        subst hk
        have hput : op.stored = some v ↔ op = .put op.key v := by
          cases op <;> simp [MapOp.stored, MapOp.key]
        rw [Function.update_self, hput]
        constructor
        · intro e
          refine ⟨ops, [], ?_, by simp⟩
          rw [← e]
        · rintro ⟨before, after, e, hafter⟩
          rcases append_singleton_eq_iff.1 e with ⟨-, -, hop⟩ | ⟨after', rfl, -⟩
          · exact hop
          · exact absurd rfl (hafter op (by simp))
      · rw [Function.update_of_ne hk, ih]
        constructor
        · rintro ⟨before, after, rfl, hafter⟩
          refine ⟨before, after ++ [op], by simp, ?_⟩
          intro op' hop'
          rcases List.mem_append.1 hop' with hmem | hmem
          · exact hafter op' hmem
          · rw [List.mem_singleton.1 hmem]
            exact Ne.symm hk
        · rintro ⟨before, after, e, hafter⟩
          rcases append_singleton_eq_iff.1 e with ⟨-, -, rfl⟩ | ⟨after', rfl, hops⟩
          · exact absurd rfl hk
          · refine ⟨before, after', hops, ?_⟩
            intro op' hop'
            exact hafter op' (by simp [hop'])

/-- After any row of calls the table holds under each key what was last put there and not
deleted since, each entry is in the bucket of its key, no key occurs twice, and a further
call changes the value of no other key. -/
theorem hashMap_is_map (ops : List MapOp) :
    (∀ k v, hmGet (mapRun ops) k = some v ↔
      ∃ before after, ops = before ++ .put k v :: after ∧ ∀ op ∈ after, op.key ≠ k)
    ∧ (∀ i, ∀ e ∈ (mapRun ops).buckets i, hash e.key = i)
    ∧ (hmKeys (mapRun ops)).Nodup
    ∧ ∀ (op : MapOp) (k : Str), k ≠ op.key → hmGet (op.exec (mapRun ops)) k = hmGet (mapRun ops) k := by
  have hsound := sound_run ops
  refine ⟨hmGet_run_iff ops, hsound.placed, hsound.nodup_keys, ?_⟩
  intro op k hk
  rw [hmGet_exec hsound, Function.update_of_ne hk]

end SystemsPortfolio.Wsh
