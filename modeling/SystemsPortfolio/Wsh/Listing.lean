/-
SystemsPortfolio/Wsh/Listing.lean

The alias listing: what `hm_print_sorted` prints is a function of the bindings.

`strcmp` compares byte strings in the lexicographic order of unsigned bytes, which is the
order of lists of bytes.  The keys are collected bucket by bucket, so their order before the
sort depends on the history of the table; but no key is collected twice, and a list without
duplicates has one sorted arrangement, whatever algorithm `qsort` uses.
-/
import SystemsPortfolio.Wsh.AliasMap

namespace SystemsPortfolio.Wsh

theorem strcmpLe_iff (s t : Str) : strcmpLe s t = true ↔ s ≤ t := by
  induction s generalizing t with
  | nil => simp [strcmpLe]
  | cons a s ih =>
      cases t with
      | nil => simp [strcmpLe]
      | cons b t => simp [strcmpLe, List.cons_le_cons_iff, ih]

/-! ### The keys of a table -/

variable {hm hm' : HashMap}

/-- The keys collected are those under which something is found. -/
theorem HashMap.Sound.mem_keys (h : hm.Sound) {key : Str} :
    key ∈ hmKeys hm ↔ ∃ value, hmGet hm key = some value := by
  rw [hmKeys, List.mem_flatMap]
  constructor
  · rintro ⟨i, -, hmem⟩
    obtain ⟨e, he, rfl⟩ := List.mem_map.1 hmem
    exact ⟨e.value, h.hmGet_of_mem he⟩
  · rintro ⟨value, hget⟩
    obtain ⟨e, he, -⟩ := Option.map_eq_some_iff.1 hget
    refine ⟨hash key, List.mem_finRange _, List.mem_map.2 ⟨e, List.mem_of_find?_eq_some he, ?_⟩⟩
    simpa using List.find?_some he

/-- Tables with the same bindings have the same keys, in some order. -/
theorem keys_perm (h : hm.Sound) (h' : hm'.Sound) (hget : hmGet hm = hmGet hm') :
    (hmKeys hm).Perm (hmKeys hm') := by
  rw [List.perm_ext_iff_of_nodup h.nodup_keys h'.nodup_keys]
  intro key
  rw [h.mem_keys, h'.mem_keys, hget]

/-! ### The sorted keys -/

/-- The keys in the order in which `hm_print_sorted` prints them. -/
def sortedKeys (hm : HashMap) : List Str :=
  (hmKeys hm).mergeSort strcmpLe

theorem sortedKeys_perm (hm : HashMap) : (sortedKeys hm).Perm (hmKeys hm) :=
  List.mergeSort_perm _ _

theorem sortedKeys_pairwise (hm : HashMap) :
    (sortedKeys hm).Pairwise fun s t => strcmpLe s t = true := by
  apply List.pairwise_mergeSort
  · intro s t u hst htu
    rw [strcmpLe_iff] at hst htu ⊢
    exact List.le_trans hst htu
  · intro s t
    rw [Bool.or_eq_true, strcmpLe_iff, strcmpLe_iff]
    exact List.le_total s t

/-- Two sorted arrangements of the same keys are equal. -/
theorem eq_of_sorted {keys keys' : List Str} (hperm : keys.Perm keys')
    (h : keys.Pairwise fun s t => strcmpLe s t = true)
    (h' : keys'.Pairwise fun s t => strcmpLe s t = true) : keys = keys' := by
  refine List.Perm.eq_of_pairwise ?_ h h' hperm
  intro s t _ _ hst hts
  exact List.le_antisymm ((strcmpLe_iff s t).1 hst) ((strcmpLe_iff t s).1 hts)

theorem HashMap.Sound.sortedKeys_lt (h : hm.Sound) : (sortedKeys hm).Pairwise (· < ·) := by
  have hnodup : (sortedKeys hm).Nodup := (sortedKeys_perm hm).nodup_iff.2 h.nodup_keys
  refine (sortedKeys_pairwise hm).imp₂ ?_ hnodup
  intro s t hle hne
  exact Std.lt_iff_le_and_ne.2 ⟨(strcmpLe_iff s t).1 hle, hne⟩

/-! ### The listing -/

/-- The line printed for a binding. -/
def bindingLine (binding : Str × Str) : Str :=
  binding.1 ++ ascii " = '" ++ binding.2 ++ ascii "'\n"

/-- The bindings in the order of their keys, each value as the second lookup finds it. -/
def sortedBindings (hm : HashMap) : List (Str × Str) :=
  (sortedKeys hm).map fun key => (key, (hmGet hm key).getD (ascii "(null)"))

theorem hmPrintSorted_eq (hm : HashMap) :
    hmPrintSorted hm = (sortedBindings hm).flatMap bindingLine := by
  rw [sortedBindings, List.flatMap_map]
  rfl

theorem sortedBindings_keys (hm : HashMap) : (sortedBindings hm).map Prod.fst = sortedKeys hm := by
  simp [sortedBindings, Function.comp_def]

theorem HashMap.Sound.mem_sortedBindings (h : hm.Sound) (key value : Str) :
    (key, value) ∈ sortedBindings hm ↔ hmGet hm key = some value := by
  rw [sortedBindings, List.mem_map]
  constructor
  · rintro ⟨key', hmem, heq⟩
    obtain ⟨rfl, hvalue⟩ := Prod.mk.inj heq
    obtain ⟨v, hv⟩ := h.mem_keys.1 ((sortedKeys_perm hm).mem_iff.1 hmem)
    rw [hv, Option.getD_some] at hvalue
    rw [hv, hvalue]
  · intro hget
    refine ⟨key, (sortedKeys_perm hm).mem_iff.2 (h.mem_keys.2 ⟨value, hget⟩), ?_⟩
    rw [hget, Option.getD_some]

/-- The listing depends on the bindings only. -/
theorem hmPrintSorted_congr (h : hm.Sound) (h' : hm'.Sound) (hget : hmGet hm = hmGet hm') :
    hmPrintSorted hm = hmPrintSorted hm' := by
  have hperm : (sortedKeys hm).Perm (sortedKeys hm') :=
    ((sortedKeys_perm hm).trans (keys_perm h h' hget)).trans (sortedKeys_perm hm').symm
  have hkeys := eq_of_sorted hperm (sortedKeys_pairwise hm) (sortedKeys_pairwise hm')
  rw [hmPrintSorted_eq, hmPrintSorted_eq, sortedBindings, sortedBindings, hkeys, hget]

/-- After any row of calls the listing has one line for each binding, in strictly increasing
order of the keys, with the value that `hm_get` returns; the order is the one that any sorting
of the collected keys gives; and two tables with the same bindings are listed alike, whatever
calls made them. -/
theorem listing_sorted (ops : List MapOp) :
    (∃ bindings : List (Str × Str),
      hmPrintSorted (mapRun ops) = bindings.flatMap bindingLine
      ∧ (bindings.map Prod.fst).Pairwise (· < ·)
      ∧ (∀ key value, (key, value) ∈ bindings ↔ hmGet (mapRun ops) key = some value)
      ∧ ∀ keys : List Str, keys.Perm (hmKeys (mapRun ops)) →
          keys.Pairwise (fun s t => strcmpLe s t = true) → keys = bindings.map Prod.fst)
    ∧ ∀ ops', hmGet (mapRun ops') = hmGet (mapRun ops) →
        hmPrintSorted (mapRun ops') = hmPrintSorted (mapRun ops) := by
  have hsound := sound_run ops
  refine ⟨⟨sortedBindings (mapRun ops), hmPrintSorted_eq _, ?_, hsound.mem_sortedBindings, ?_⟩, ?_⟩
  · rw [sortedBindings_keys]
    exact hsound.sortedKeys_lt
  · intro keys hperm hsorted
    rw [sortedBindings_keys]
    exact eq_of_sorted (hperm.trans (sortedKeys_perm _).symm) hsorted (sortedKeys_pairwise _)
  · intro ops' hget
    exact hmPrintSorted_congr (sound_run ops') hsound hget

/-- Two keys of one bucket, put in either order. -/
theorem listing_sorted_one_bucket :
    let first : MapOp := .put (ascii "ab") (ascii "1")
    let second : MapOp := .put (ascii "bA") (ascii "2")
    hmKeys (mapRun [first, second]) ≠ hmKeys (mapRun [second, first])
    ∧ hmPrintSorted (mapRun [first, second]) = hmPrintSorted (mapRun [second, first]) := by
  intro first second
  refine ⟨by decide +kernel, (listing_sorted [second, first]).2 [first, second] ?_⟩
  have hrun (op op' : MapOp) : hmGet (mapRun [op, op'])
      = Function.update (Function.update (hmGet hmCreate) op.key op.stored) op'.key op'.stored := by
    rw [← hmGet_exec sound_create, ← hmGet_exec (sound_create.exec op)]
    rfl
  rw [hrun, hrun]
  exact Function.update_comm (by decide) ..

end SystemsPortfolio.Wsh
