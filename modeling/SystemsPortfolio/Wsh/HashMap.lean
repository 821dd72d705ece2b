/-
SystemsPortfolio/Wsh/HashMap.lean

The chained hash map of `hash_map.c`, in which the shell keeps its aliases.

A bucket is the chain of its entries from the head.  `hash` is djb2 on a 64-bit unsigned
word, with the bytes of the key sign-extended as the plain `char` they are read through.
Allocations are taken to succeed, and `qsort` is a sort.
-/
import SystemsPortfolio.Wsh.Strings
import Mathlib.Data.List.FinRange
import Mathlib.Logic.Function.Basic

namespace SystemsPortfolio.Wsh

/-- `TABLE_SIZE`. -/
abbrev tableSize : Nat := 101

/-- The loop of `hash`. -/
def hashLoop (h : BitVec 64) : Str → BitVec 64
  | [] => h
  | c :: key => hashLoop ((h <<< 5) + h + c.toBitVec.signExtend 64) key

/-- `hash`. -/
def hash (key : Str) : Fin tableSize :=
  ⟨(hashLoop 5381 key).toNat % tableSize, Nat.mod_lt _ (by decide)⟩

/-- `Entry`, without its link. -/
structure Entry where
  key : Str
  value : Str
  deriving DecidableEq

/-- `HashMap`. -/
structure HashMap where
  buckets : Fin tableSize → List Entry

/-- `hm_create`. -/
def hmCreate : HashMap :=
  { buckets := fun _ => [] }

/-- The walk of `hm_put` along a chain; `none` when the key is not in it. -/
def chainPut (key value : Str) : List Entry → Option (List Entry)
  | [] => none
  | e :: chain =>
      if e.key = key then some ({ e with value := value } :: chain)
      else (chainPut key value chain).map (e :: ·)

/-- `hm_put`: an update in place, or a new entry at the head. -/
def hmPut (hm : HashMap) (key value : Str) : HashMap :=
  let idx := hash key
  let chain := hm.buckets idx
  { buckets := Function.update hm.buckets idx
      ((chainPut key value chain).getD (⟨key, value⟩ :: chain)) }

/-- `hm_get`. -/
def hmGet (hm : HashMap) (key : Str) : Option Str :=
  ((hm.buckets (hash key)).find? fun e => e.key = key).map Entry.value

/-- The walk of `hm_delete`, which unlinks the first entry with the key. -/
def chainDelete (key : Str) : List Entry → List Entry
  | [] => []
  | e :: chain => if e.key = key then chain else e :: chainDelete key chain

/-- `hm_delete`. -/
def hmDelete (hm : HashMap) (key : Str) : HashMap :=
  let idx := hash key
  { buckets := Function.update hm.buckets idx (chainDelete key (hm.buckets idx)) }

/-- The keys in the order in which `hm_print_sorted` collects them. -/
def hmKeys (hm : HashMap) : List Str :=
  (List.finRange tableSize).flatMap fun i => (hm.buckets i).map Entry.key

/-- What `hm_print_sorted` prints. -/
def hmPrintSorted (hm : HashMap) : Str :=
  ((hmKeys hm).mergeSort strcmpLe).flatMap fun key =>
    key ++ ascii " = '" ++ (hmGet hm key).getD (ascii "(null)") ++ ascii "'\n"

/-- Two keys of one bucket: the second is found behind the first, and stays when it goes. -/
example : hash (ascii "ab") = hash (ascii "bA")
    ∧ hmGet (hmDelete (hmPut (hmPut hmCreate (ascii "ab") [49]) (ascii "bA") [50]) (ascii "bA"))
      (ascii "ab") = some [49] := by
  decide +kernel

end SystemsPortfolio.Wsh
