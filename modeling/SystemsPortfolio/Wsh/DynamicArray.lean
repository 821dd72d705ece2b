/-
SystemsPortfolio/Wsh/DynamicArray.lean

The growing array of strings of `dynamic_array.c`.

The array has `capacity` slots of which the first `size` are in use, and doubles its
capacity when one more is needed.  Allocations are taken to succeed.  Seen from outside it
is the list of the slots in use: `da_put` appends to it, whether the array grows or not,
and `da_get` reads from it.
-/
import SystemsPortfolio.Wsh.Strings

namespace SystemsPortfolio.Wsh

/-- `DynamicArray`: the slots, those in use first.  A null pointer is `none`, and what a
slot that is not in use holds is never read. -/
structure DynamicArray where
  data : List (Option Str)
  size : Nat
  capacity : Nat
  room : data.length = capacity
  fits : size ≤ capacity

/-- `da_create`. -/
def daCreate (initCapacity : Nat) : DynamicArray :=
  let capacity := if initCapacity = 0 then 8 else initCapacity
  { data := List.replicate capacity none, size := 0, capacity := capacity
    room := List.length_replicate, fits := Nat.zero_le _ }

/-- The capacity after `da_ensure_capacity`. -/
def DynamicArray.newCapacity (da : DynamicArray) : Nat :=
  if da.size < da.capacity then da.capacity
  else if da.capacity = 0 then 8 else da.capacity * 2

theorem DynamicArray.size_lt_newCapacity (da : DynamicArray) : da.size < da.newCapacity := by
  have := da.fits
  rw [DynamicArray.newCapacity]
  split
  · assumption
  · split <;> omega

theorem DynamicArray.capacity_le_newCapacity (da : DynamicArray) :
    da.capacity ≤ da.newCapacity := by
  rw [DynamicArray.newCapacity]
  split
  · exact Nat.le_refl _
  · split <;> omega

/-- `da_ensure_capacity`: `realloc` keeps the slots there are. -/
def daEnsureCapacity (da : DynamicArray) : DynamicArray :=
  { data := da.data ++ List.replicate (da.newCapacity - da.capacity) none
    size := da.size
    capacity := da.newCapacity
    room := by
      have := da.room
      have := da.capacity_le_newCapacity
      rw [List.length_append, List.length_replicate]
      omega
    fits := Nat.le_of_lt da.size_lt_newCapacity }

/-- `da_put`. -/
def daPut (da : DynamicArray) (val : Option Str) : DynamicArray :=
  let da' := daEnsureCapacity da
  { data := da'.data.set da'.size val
    size := da'.size + 1
    capacity := da'.capacity
    room := by
      rw [List.length_set]
      exact da'.room
    fits := da.size_lt_newCapacity }

/-- `da_get`. -/
def daGet (da : DynamicArray) (ind : Nat) : Option Str :=
  if ind ≥ da.size then none else (da.data[ind]?).join

/-! ### The array as a list -/

/-- The slots in use. -/
def DynamicArray.toList (da : DynamicArray) : List (Option Str) :=
  da.data.take da.size

theorem daPut_toList (da : DynamicArray) (val : Option Str) :
    (daPut da val).toList = da.toList ++ [val] := by
  have hsize : da.size < (daEnsureCapacity da).data.length := by
    rw [(daEnsureCapacity da).room]
    exact da.size_lt_newCapacity
  -- the slots in use are those of the old array, also when it has grown
  have hold : (daEnsureCapacity da).data.take da.size = da.data.take da.size := by
    refine List.take_append_of_le_length ?_
    rw [da.room]
    exact da.fits
  show ((daEnsureCapacity da).data.set da.size val).take (da.size + 1) = _
  rw [List.take_add_one, List.take_set_of_le (Nat.le_refl _), hold, List.getElem?_set_self hsize]
  rfl

theorem length_toList (da : DynamicArray) : da.toList.length = da.size := by
  rw [DynamicArray.toList, List.length_take, da.room]
  exact Nat.min_eq_left da.fits

theorem daGet_eq (da : DynamicArray) (ind : Nat) : daGet da ind = (da.toList[ind]?).join := by
  rw [daGet, DynamicArray.toList, List.getElem?_take]
  split
  · rw [if_neg (by omega)]
    rfl
  · rw [if_pos (by omega)]

end SystemsPortfolio.Wsh
