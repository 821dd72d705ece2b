/-
SystemsPortfolio/Lib/RefCount.lean

Reference counts that are made only for what is shared.

Users hold keys, at most one each.  A table has room for one entry a user, and an entry,
while it is valid, gives a key and the number of its users.  A key with a single user may
do without an entry: it gets one, with the count 2, when a second user joins.  After that
every user that joins or leaves is counted, and the entry goes with the last one.

`Counts` is the relation between the table and the users.  It survives each of these
changes, and there is always room for the entry that a second user needs.  `Returned` is
about the keys themselves, how often each has been given out and taken back: what has users
is out, and nothing else is.
-/
import SystemsPortfolio.Lib.Threads
import Mathlib.Data.Fintype.Card

namespace RefCount

open Threads

variable {ι S A : Type*} [Fintype S] [DecidableEq A]

/-- An entry of the table; the count -1 marks one that is not valid. -/
structure Entry (A : Type*) where
  refcount : Int
  key : Option A
  deriving DecidableEq

def Entry.Valid (e : Entry A) : Prop :=
  e.refcount ≠ -1

instance (e : Entry A) : Decidable e.Valid :=
  inferInstanceAs (Decidable (_ ≠ _))

/-- The number of users of `a`. -/
def users (use : S → Option A) (a : A) : Nat :=
  numAt (fun o => o = some a) use

/-- Every valid entry counts the users of its key, no key has two, and a key with several
users has one. -/
structure Counts (t : ι → Entry A) (use : S → Option A) : Prop where
  counted : ∀ i, (t i).Valid →
    ∃ a, (t i).key = some a ∧ (t i).refcount = users use a ∧ 0 < users use a
  inj : ∀ i j, (t i).Valid → (t j).Valid → (t i).key = (t j).key → i = j
  shared : ∀ a, 1 < users use a → ∃ i, (t i).Valid ∧ (t i).key = some a

variable {t t' : ι → Entry A} {use use' : S → Option A} {a : A} {s : S} {i : ι}

/-! ### Users -/

theorem users_pos : 0 < users use a ↔ ∃ s, use s = some a :=
  numAt_pos _

section Update

variable [DecidableEq S]

theorem users_update (use : S → Option A) (s : S) (o : Option A) (a : A) :
    users (Function.update use s o) a + (if use s = some a then 1 else 0)
      = users use a + (if o = some a then 1 else 0) :=
  numAt_update _ use s o

theorem users_join (h : use s = none) :
    users (Function.update use s (some a)) a = users use a + 1 := by
  simpa [h] using users_update use s (some a) a

theorem users_join_of_ne (h : use s = none) {b : A} (hb : b ≠ a) :
    users (Function.update use s (some a)) b = users use b := by
  simpa [h, hb.symm] using users_update use s (some a) b

theorem users_leave (h : use s = some a) :
    users (Function.update use s none) a + 1 = users use a := by
  simpa [h] using users_update use s none a

theorem users_leave_of_ne (h : use s = some a) {b : A} (hb : b ≠ a) :
    users (Function.update use s none) b = users use b := by
  simpa [h, hb.symm] using users_update use s none b

end Update

/-! ### Changes at one key -/

/-- The count of `a` changes, and so does its entry. -/
theorem Counts.change (h : Counts t use) (ht : ∀ j, j ≠ i → t' j = t j)
    (hother : ∀ b, b ≠ a → users use' b = users use b)
    (hno : ∀ j, j ≠ i → (t j).Valid → (t j).key ≠ some a)
    (hold : (t i).Valid → (t i).key = some a)
    (hnew : (t' i).Valid →
      (t' i).key = some a ∧ (t' i).refcount = users use' a ∧ 0 < users use' a)
    (hshared : 1 < users use' a → (t' i).Valid) : Counts t' use' := by
  refine ⟨fun j hj => ?_, fun j l hj hl e => ?_, fun b hb => ?_⟩
  · rcases eq_or_ne j i with rfl | hne
    · exact ⟨a, hnew hj⟩
    · rw [ht j hne] at hj ⊢
      obtain ⟨b, hkey, hb⟩ := h.counted j hj
      have hba : b ≠ a := by
        rintro rfl
        exact hno j hne hj hkey
      exact ⟨b, hkey, by rwa [hother b hba]⟩
  · by_cases hj' : j = i <;> by_cases hl' : l = i
    · exact hj'.trans hl'.symm
    · subst hj'
      rw [ht l hl'] at hl e
      exact absurd (e.symm.trans (hnew hj).1) (hno l hl' hl)
    · subst hl'
      rw [ht j hj'] at hj e
      exact absurd (e.trans (hnew hl).1) (hno j hj' hj)
    · rw [ht j hj', ht l hl'] at e
      rw [ht j hj'] at hj
      rw [ht l hl'] at hl
      exact h.inj j l hj hl e
  · rcases eq_or_ne b a with rfl | hba
    · exact ⟨i, hshared hb, (hnew (hshared hb)).1⟩
    · obtain ⟨j, hj, hkey⟩ := h.shared b (hother b hba ▸ hb)
      have hne : j ≠ i := by
        rintro rfl
        exact hba (Option.some.inj (hkey.symm.trans (hold hj)))
      exact ⟨j, by rwa [ht j hne], by rwa [ht j hne]⟩

/-- The count of `a` changes, and it needs no entry before or after. -/
theorem Counts.keep (h : Counts t use) (hother : ∀ b, b ≠ a → users use' b = users use b)
    (hno : ∀ j, (t j).Valid → (t j).key ≠ some a) (hle : users use' a ≤ 1) :
    Counts t use' := by
  refine ⟨fun j hj => ?_, h.inj, fun b hb => ?_⟩
  · obtain ⟨b, hkey, hb⟩ := h.counted j hj
    have hba : b ≠ a := by
      rintro rfl
      exact hno j hj hkey
    exact ⟨b, hkey, by rwa [hother b hba]⟩
  · have hba : b ≠ a := by
      rintro rfl
      omega
    exact h.shared b (hother b hba ▸ hb)

theorem Counts.other (h : Counts t use) (hi : (t i).Valid) (hkey : (t i).key = some a) (j : ι)
    (hj : j ≠ i) (hv : (t j).Valid) : (t j).key ≠ some a :=
  fun e => hj (h.inj j i hv hi (e.trans hkey.symm))

theorem Counts.refcount_eq (h : Counts t use) (hi : (t i).Valid) (hkey : (t i).key = some a) :
    (t i).refcount = users use a ∧ 0 < users use a := by
  obtain ⟨b, hb, hcount⟩ := h.counted i hi
  obtain rfl : b = a := Option.some.inj (hb.symm.trans hkey)
  exact hcount

/-- Without an entry there is at most one user. -/
theorem Counts.users_le_one (h : Counts t use) (hno : ∀ j, (t j).Valid → (t j).key ≠ some a) :
    users use a ≤ 1 := by
  by_contra hlt
  obtain ⟨i, hi, hkey⟩ := h.shared a (by omega)
  exact hno i hi hkey

/-! ### Joining and leaving -/

section Moves

variable [DecidableEq ι] [DecidableEq S]

/-- A user joins a key with an entry. -/
theorem Counts.join_counted (h : Counts t use) (hs : use s = none) (hi : (t i).Valid)
    (hkey : (t i).key = some a) :
    Counts (Function.update t i { t i with refcount := (t i).refcount + 1 })
      (Function.update use s (some a)) := by
  obtain ⟨hcount, hpos⟩ := h.refcount_eq hi hkey
  have hjoin := users_join (a := a) hs
  refine h.change (i := i) (a := a) (fun j hj => Function.update_of_ne hj ..)
    (fun b hb => users_join_of_ne hs hb) (h.other hi hkey) (fun _ => hkey) ?_ ?_
  · rw [Function.update_self]
    exact fun _ => ⟨hkey, by dsimp only; omega, by omega⟩
  · rw [Function.update_self, Entry.Valid]
    dsimp only
    omega

/-- A second user joins a key, and its entry is made. -/
theorem Counts.join_new (h : Counts t use) (hs : use s = none) (ha : 0 < users use a)
    (hno : ∀ j, (t j).Valid → (t j).key ≠ some a) (hi : ¬ (t i).Valid) :
    Counts (Function.update t i ⟨2, some a⟩) (Function.update use s (some a)) := by
  have hjoin := users_join (a := a) hs
  have hone := h.users_le_one hno
  refine h.change (i := i) (a := a) (fun j hj => Function.update_of_ne hj ..)
    (fun b hb => users_join_of_ne hs hb) (fun j _ => hno j) (fun hv => absurd hv hi) ?_ ?_
  · rw [Function.update_self]
    exact fun _ => ⟨rfl, by dsimp only; omega, by omega⟩
  · rw [Function.update_self]
    exact fun _ => show (2 : Int) ≠ -1 by decide

omit [DecidableEq ι] in
/-- A user joins a key that nobody has. -/
theorem Counts.join_fresh (h : Counts t use) (hs : use s = none) (ha : users use a = 0) :
    Counts t (Function.update use s (some a)) := by
  have hjoin := users_join (a := a) hs
  refine h.keep (fun b hb => users_join_of_ne hs hb) (fun j hj hkey => ?_) (by omega)
  have := (h.refcount_eq hj hkey).2
  omega

/-- A user leaves a key that others keep. -/
theorem Counts.leave_counted (h : Counts t use) (hs : use s = some a) (hi : (t i).Valid)
    (hkey : (t i).key = some a) (hmany : (t i).refcount - 1 ≠ 0) :
    Counts (Function.update t i { t i with refcount := (t i).refcount - 1 })
      (Function.update use s none) := by
  obtain ⟨hcount, -⟩ := h.refcount_eq hi hkey
  have hleave := users_leave hs
  refine h.change (i := i) (a := a) (fun j hj => Function.update_of_ne hj ..)
    (fun b hb => users_leave_of_ne hs hb) (h.other hi hkey) (fun _ => hkey) ?_ ?_
  · rw [Function.update_self]
    exact fun _ => ⟨hkey, by dsimp only; omega, by omega⟩
  · rw [Function.update_self, Entry.Valid]
    dsimp only
    omega

/-- The last user leaves a key with an entry. -/
theorem Counts.leave_last (h : Counts t use) (hs : use s = some a) (hi : (t i).Valid)
    (hkey : (t i).key = some a) (hlast : (t i).refcount - 1 = 0) :
    users (Function.update use s none) a = 0
      ∧ Counts (Function.update t i { t i with refcount := -1 })
        (Function.update use s none) := by
  obtain ⟨hcount, -⟩ := h.refcount_eq hi hkey
  have hleave := users_leave hs
  refine ⟨by omega, ?_⟩
  refine h.change (i := i) (a := a) (fun j hj => Function.update_of_ne hj ..)
    (fun b hb => users_leave_of_ne hs hb) (h.other hi hkey) (fun _ => hkey) ?_ (by omega)
  rw [Function.update_self]
  exact fun hv => absurd rfl hv

omit [DecidableEq ι] in
/-- The only user leaves a key without an entry. -/
theorem Counts.leave_single (h : Counts t use) (hs : use s = some a)
    (hno : ∀ j, (t j).Valid → (t j).key ≠ some a) :
    users (Function.update use s none) a = 0 ∧ Counts t (Function.update use s none) := by
  have hleave := users_leave hs
  have hone := h.users_le_one hno
  exact ⟨by omega, h.keep (fun b hb => users_leave_of_ne hs hb) hno (by omega)⟩

end Moves

/-- There is room for the entry of a key that has a user and no entry. -/
theorem Counts.exists_free [Fintype ι] (h : Counts t use)
    (hcard : Fintype.card S ≤ Fintype.card ι) (hs : use s = some a)
    (hno : ∀ j, (t j).Valid → (t j).key ≠ some a) : ∃ i, ¬ (t i).Valid := by
  by_contra hall
  rw [not_exists] at hall
  -- give each entry one of its users: none of them is `s`
  have huser : ∀ i, ∃ u, use u = (t i).key := fun i => by
    obtain ⟨b, hkey, -, hpos⟩ := h.counted i (not_not.1 (hall i))
    obtain ⟨u, hu⟩ := users_pos.1 hpos
    exact ⟨u, hu.trans hkey.symm⟩
  choose f hf using huser
  have hinj : Function.Injective f := fun i j e => by
    refine h.inj i j (not_not.1 (hall i)) (not_not.1 (hall j)) ?_
    rw [← hf i, ← hf j, e]
  have hsurj : ¬ Function.Surjective f := fun hsurj => by
    obtain ⟨i, hi⟩ := hsurj s
    exact hno i (not_not.1 (hall i)) (by rw [← hf i, hi, hs])
  exact absurd (Fintype.card_lt_of_injective_not_surjective f hinj hsurj) (by omega)

/-! ### Keys given out and taken back -/

/-- A key has been taken back as often as it was given out, but for once while it has
users. -/
def Returned (given taken : A → Nat) (use : S → Option A) : Prop :=
  ∀ a, given a = taken a + if 0 < users use a then 1 else 0

variable {given taken : A → Nat}

/-- What can be given out has no users. -/
theorem Returned.users_eq_zero (h : Returned given taken use) (ha : given a ≤ taken a) :
    users use a = 0 := by
  have := h a
  split at this <;> omega

/-- A key is given out and taken back at once. -/
theorem Returned.bounce (h : Returned given taken use) (a : A) :
    Returned (Function.update given a (given a + 1)) (Function.update taken a (taken a + 1))
      use := by
  intro b
  have hb := h b
  rcases eq_or_ne b a with rfl | hne
  · rw [Function.update_self, Function.update_self]
    omega
  · rwa [Function.update_of_ne hne, Function.update_of_ne hne]

/-- A user joins: a key without users is given out. -/
theorem Returned.join [DecidableEq S] (h : Returned given taken use) (hs : use s = none)
    (ha : users use a = 0) :
    Returned (Function.update given a (given a + 1)) taken (Function.update use s (some a)) := by
  intro b
  have hb := h b
  rcases eq_or_ne b a with rfl | hne
  · rw [Function.update_self, users_join hs]
    simp only [ha, lt_irrefl, if_false, Nat.zero_add, Nat.zero_lt_one, if_true] at hb ⊢
    omega
  · rwa [Function.update_of_ne hne, users_join_of_ne hs hne]

/-- A user joins a key that is out. -/
theorem Returned.share [DecidableEq S] (h : Returned given taken use) (hs : use s = none)
    (ha : 0 < users use a) : Returned given taken (Function.update use s (some a)) := by
  intro b
  have hb := h b
  rcases eq_or_ne b a with rfl | hne
  · rw [users_join hs, if_pos (Nat.succ_pos _)]
    rwa [if_pos ha] at hb
  · rwa [users_join_of_ne hs hne]

/-- A user leaves: the key is taken back from the last one. -/
theorem Returned.leave [DecidableEq S] (h : Returned given taken use) (hs : use s = some a) :
    Returned given
      (if users (Function.update use s none) a = 0 then Function.update taken a (taken a + 1)
        else taken)
      (Function.update use s none) := by
  intro b
  have hb := h b
  have hleave := users_leave hs
  rcases eq_or_ne b a with rfl | hne
  · rw [if_pos (by omega)] at hb
    by_cases hlast : users (Function.update use s none) b = 0
    · rw [if_pos hlast, if_neg (by omega), Function.update_self]
      omega
    · rw [if_neg hlast, if_pos (by omega)]
      exact hb
  · rw [users_leave_of_ne hs hne]
    split
    · rwa [Function.update_of_ne hne]
    · exact hb

end RefCount
