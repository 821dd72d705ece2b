/-
SystemsPortfolio/Lib/ByteStore.lean

A flat store of bytes with integer addresses, and fixed-width little-endian
integers kept in it.

The store is a total function, so the library has no bounds of its own: a
client that wants to know that two accesses do not meet proves that their
address ranges are disjoint and uses the frame lemmas below.

* `load` / `store` / `fill` move runs of bytes, with one lemma for the same
  range and one for a disjoint range;
* `encode` / `decode` are the little-endian codec on lists of bytes, first
  for naturals and then (`encodeInt` / `decodeInt`) for two's complement;
* `loadInt` / `storeInt` are the typed accesses built from the two;
* `EqOff W` relates two stores that agree outside a set of addresses.
-/
import Mathlib.Data.Nat.Basic
import Mathlib.Data.List.Basic
import Mathlib.Tactic.Positivity

namespace ByteStore

/-- A byte at every address. -/
abbrev Store := Int → UInt8

/-! ### Runs of bytes -/

/-- The `n` bytes from address `a` on. -/
def load (m : Store) (a : Int) (n : Nat) : List UInt8 :=
  (List.range n).map fun j : Nat => m (a + (j : Int))

/-- Overwrite the bytes from address `a` on with `bs`. -/
def store (m : Store) (a : Int) (bs : List UInt8) : Store := fun x =>
  if a ≤ x ∧ x < a + bs.length then bs.getD (x - a).toNat 0 else m x

/-- Overwrite `n` bytes from address `a` on with the byte `b`. -/
def fill (m : Store) (a : Int) (n : Nat) (b : UInt8) : Store := fun x =>
  if a ≤ x ∧ x < a + n then b else m x

variable {m m' : Store} {a b x : Int} {n : Nat} {bs : List UInt8}

@[simp] theorem length_load (m : Store) (a : Int) (n : Nat) : (load m a n).length = n := by
  simp [load]

theorem load_congr (h : ∀ j : Nat, j < n → m (a + j) = m' (a + j)) :
    load m a n = load m' a n := by
  apply List.map_congr_left
  intro j hj
  exact h j (List.mem_range.mp hj)

theorem store_of_lt (h : x < a) : store m a bs x = m x := by
  unfold store
  rw [if_neg (by omega)]

theorem store_of_ge (h : a + bs.length ≤ x) : store m a bs x = m x := by
  unfold store
  rw [if_neg (by omega)]

theorem store_of_disjoint (h : x < a ∨ a + bs.length ≤ x) : store m a bs x = m x := by
  rcases h with h | h
  · exact store_of_lt h
  · exact store_of_ge h

theorem store_of_mem {j : Nat} (h : j < bs.length) : store m a bs (a + j) = bs.getD j 0 := by
  unfold store
  rw [if_pos (by omega)]
  congr 1
  omega

theorem fill_of_disjoint {v : UInt8} (h : x < a ∨ a + n ≤ x) : fill m a n v x = m x := by
  unfold fill
  rw [if_neg (by omega)]

theorem fill_of_mem {v : UInt8} (h₁ : a ≤ x) (h₂ : x < a + n) : fill m a n v x = v := by
  unfold fill
  rw [if_pos ⟨h₁, h₂⟩]

/-- Filling a range twice with one byte is filling it once. -/
@[simp] theorem fill_fill {v : UInt8} : fill (fill m a n v) a n v = fill m a n v := by
  funext x
  by_cases h : a ≤ x ∧ x < a + n
  · simp [fill, h]
  · simp [fill, h]

theorem load_store_same : load (store m a bs) a bs.length = bs := by
  apply List.ext_getElem
  · simp
  · intro j h₁ h₂
    simp only [load, List.getElem_map, List.getElem_range]
    rw [store_of_mem h₂]
    simp [h₂]

theorem load_store_disjoint (h : b + n ≤ a ∨ a + bs.length ≤ b) :
    load (store m a bs) b n = load m b n := by
  apply load_congr
  intro j hj
  apply store_of_disjoint
  omega

/-! ### The little-endian codec -/

/-- The `w` little-endian bytes of `v`; higher bits are dropped. -/
def encode : Nat → Nat → List UInt8
  | 0, _ => []
  | w + 1, v => UInt8.ofNat (v % 256) :: encode w (v / 256)

/-- The natural number with the given little-endian bytes. -/
def decode : List UInt8 → Nat
  | [] => 0
  | c :: cs => c.toNat + 256 * decode cs

@[simp] theorem length_encode (w v : Nat) : (encode w v).length = w := by
  induction w generalizing v with
  | zero => rfl
  | succ w ih => simp [encode, ih]

theorem decode_encode (w v : Nat) : decode (encode w v) = v % 256 ^ w := by
  induction w generalizing v with
  | zero => simp [encode, decode, Nat.mod_one]
  | succ w ih =>
      have hbyte : (UInt8.ofNat (v % 256)).toNat = v % 256 := by
        rw [UInt8.toNat_ofNat']
        exact Nat.mod_eq_of_lt (by omega)
      rw [encode, decode, ih, hbyte, Nat.pow_succ', Nat.mod_mul]

theorem decode_eq_zero {cs : List UInt8} (h : ∀ c ∈ cs, c = 0) : decode cs = 0 := by
  induction cs with
  | nil => rfl
  | cons c cs ih =>
      have hc : c = 0 := h c (by simp)
      have hcs : decode cs = 0 := ih fun d hd => h d (by simp [hd])
      rw [decode, hc, hcs]
      rfl

/-- The `w` bytes of `v` in two's complement. -/
def encodeInt (w : Nat) (v : Int) : List UInt8 :=
  encode w (v % (256 ^ w : Nat)).toNat

/-- The integer with the given two's complement bytes. -/
def decodeInt (cs : List UInt8) : Int :=
  Int.bmod (decode cs) (256 ^ cs.length)

@[simp] theorem length_encodeInt (w : Nat) (v : Int) : (encodeInt w v).length = w :=
  length_encode w _

theorem decodeInt_encodeInt (w : Nat) (v : Int) :
    decodeInt (encodeInt w v) = Int.bmod v (256 ^ w) := by
  have hpos : (0 : Int) < (256 ^ w : Nat) := by positivity
  have hnn : 0 ≤ v % (256 ^ w : Nat) := Int.emod_nonneg v (by omega)
  unfold decodeInt
  rw [length_encodeInt, encodeInt, decode_encode, Int.natCast_mod, Int.toNat_of_nonneg hnn,
    Int.emod_emod_of_dvd v (dvd_refl _), Int.emod_bmod]

/-! ### Typed accesses -/

/-- Read a `w`-byte two's complement integer at address `a`. -/
def loadInt (m : Store) (a : Int) (w : Nat) : Int := decodeInt (load m a w)

/-- Write the `w`-byte two's complement representation of `v` at address `a`. -/
def storeInt (m : Store) (a : Int) (w : Nat) (v : Int) : Store := store m a (encodeInt w v)

theorem loadInt_congr {w : Nat} (h : ∀ j : Nat, j < w → m (a + j) = m' (a + j)) :
    loadInt m a w = loadInt m' a w := by
  unfold loadInt
  rw [load_congr h]

theorem loadInt_storeInt_same (w : Nat) (v : Int) :
    loadInt (storeInt m a w v) a w = Int.bmod v (256 ^ w) := by
  have h : load (store m a (encodeInt w v)) a w = encodeInt w v := by
    simpa using @load_store_same m a (encodeInt w v)
  unfold loadInt storeInt
  rw [h, decodeInt_encodeInt]

theorem storeInt_of_disjoint {w : Nat} {v : Int} (h : x < a ∨ a + w ≤ x) :
    storeInt m a w v x = m x := by
  apply store_of_disjoint
  rw [length_encodeInt]
  exact h

theorem loadInt_storeInt_disjoint {w w' : Nat} {v : Int} (h : b + w' ≤ a ∨ a + w ≤ b) :
    loadInt (storeInt m a w v) b w' = loadInt m b w' := by
  apply loadInt_congr
  intro j hj
  apply storeInt_of_disjoint
  omega

theorem loadInt_eq_zero {w : Nat} (h : ∀ j : Nat, j < w → m (a + j) = 0) : loadInt m a w = 0 := by
  have hz : decode (load m a w) = 0 := by
    apply decode_eq_zero
    intro c hc
    obtain ⟨j, hj, rfl⟩ := List.mem_map.mp hc
    exact h j (List.mem_range.mp hj)
  unfold loadInt decodeInt
  rw [hz]
  simp

/-! ### Stores that differ on a set of addresses only -/

/-- The stores agree outside `W`. -/
def EqOff (W : Int → Prop) (m m' : Store) : Prop := ∀ x, ¬ W x → m' x = m x

section EqOff

variable {W V : Int → Prop}

theorem EqOff.mono (h : EqOff W m m') (hWV : ∀ x, W x → V x) : EqOff V m m' :=
  fun x hx => h x fun hW => hx (hWV x hW)

theorem EqOff.store (h : EqOff W m m') (a : Int) (bs : List UInt8) :
    EqOff W (store m a bs) (store m' a bs) := by
  intro x hx
  rw [ByteStore.store, ByteStore.store, h x hx]

/-- Writing different bytes of one length adds their range. -/
theorem EqOff.store_of_length {bs' : List UInt8} (h : EqOff W m m') (hlen : bs'.length = bs.length)
    (hV : ∀ x, a ≤ x → x < a + bs.length → W x) :
    EqOff W (ByteStore.store m a bs) (ByteStore.store m' a bs') := by
  intro x hx
  have hout : x < a ∨ a + bs.length ≤ x := by
    by_contra hin
    exact hx (hV x (by omega) (by omega))
  rw [store_of_disjoint hout, store_of_disjoint (by rw [hlen]; exact hout), h x hx]

theorem EqOff.storeInt (h : EqOff W m m') (a : Int) (w : Nat) (v : Int) :
    EqOff W (storeInt m a w v) (storeInt m' a w v) :=
  h.store a _

/-- Filling a range makes the stores agree on it. -/
theorem EqOff.fill_inside (h : EqOff W m m') (a : Int) (n : Nat) (v : UInt8) :
    EqOff (fun x => W x ∧ (x < a ∨ a + n ≤ x)) (fill m a n v) (fill m' a n v) := by
  intro x hx
  unfold fill
  split_ifs with hin
  · rfl
  · exact h x fun hW => hx ⟨hW, by omega⟩

theorem EqOff.fill (h : EqOff W m m') (a : Int) (n : Nat) (v : UInt8) :
    EqOff W (fill m a n v) (fill m' a n v) :=
  (h.fill_inside a n v).mono fun _ hx => hx.1

end EqOff

end ByteStore
