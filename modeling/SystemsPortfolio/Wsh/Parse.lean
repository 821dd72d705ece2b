/-
SystemsPortfolio/Wsh/Parse.lean

The two scanners of `wsh.c`: `split_pipeline`, which cuts a line at its bars, and
`parseline_no_subst`, which cuts a segment into arguments.

Both know single quotes, but not in the same way: the first counts every quote, the second
opens one only where an argument starts.  The loop of the tokenizer takes at least one byte
a round, which its fuel counts (`parseLoop_fuel`).
-/
import SystemsPortfolio.Wsh.Strings

namespace SystemsPortfolio.Wsh

/-! ### `split_pipeline` -/

/-- The loop of `split_pipeline` at a byte of the line, with the quote flag, the bytes since
`start` and the segments so far. -/
def splitLoop (maxSegs : Nat) : Str → Bool → Str → List Str → Option (List Str)
  | [], _, seg, segs => if segs.length < maxSegs then some (segs ++ [seg]) else none
  | c :: line, inSingle, seg, segs =>
      if c = quote then splitLoop maxSegs line (!inSingle) (seg ++ [c]) segs
      else if c = bar ∧ inSingle = false then
        if segs.length < maxSegs then splitLoop maxSegs line inSingle [] (segs ++ [seg]) else none
      else splitLoop maxSegs line inSingle (seg ++ [c]) segs

/-- `split_pipeline`; `none` is the result -1. -/
def splitPipeline (line : Str) (maxSegs : Nat) : Option (List Str) :=
  splitLoop maxSegs line false [] []

/-! ### `parseline_no_subst` -/

/-- What `parseline_no_subst` has done: the arguments it has stored, and whether every quote
it has opened was closed. -/
structure Parsed where
  stored : List Str
  closed : Bool
  deriving DecidableEq

/-- The arguments the caller gets: none after a missing quote. -/
def Parsed.argv (r : Parsed) : List Str :=
  if r.closed then r.stored else []

/-- The last index of the caller's array that has been written, the null pointer behind the
arguments included. -/
def Parsed.top (r : Parsed) : Nat :=
  if r.closed then r.stored.length else r.stored.length - 1

def Parsed.cons (token : Str) (r : Parsed) : Parsed :=
  { r with stored := token :: r.stored }

def skipSpaces (p : Str) : Str :=
  p.dropWhile (· = space)

/-- The loop of `parseline_no_subst` at `p`. -/
def parseLoop : Nat → Str → Parsed
  | 0, _ => ⟨[], true⟩
  | _ + 1, [] => ⟨[], true⟩
  | fuel + 1, c :: p =>
      if c = quote then
        match cut quote p with
        | none => ⟨[], false⟩
        | some (token, p) => (parseLoop fuel (skipSpaces p)).cons token
      else
        match cut space (c :: p) with
        | none => ⟨[], true⟩
        | some (token, p) => (parseLoop fuel (skipSpaces p)).cons token

/-- The copy that is cut up: it ends in a space, in place of a newline if there is one. -/
def parseBuf (cmdline : Str) : Str :=
  if cmdline.getLast? = some newline then cmdline.dropLast ++ [space] else cmdline ++ [space]

/-- `parseline_no_subst`. -/
def parselineNoSubst (cmdline : Str) : Parsed :=
  let buf := parseBuf cmdline
  parseLoop (buf.length + 1) (skipSpaces buf)

/-! ### The fuel is enough -/

theorem length_of_cut {c : UInt8} {s u v : Str} (h : cut c s = some (u, v)) :
    v.length < s.length := by
  obtain ⟨rfl, -⟩ := cut_eq_some.1 h
  rw [List.length_append, List.length_cons]
  omega

theorem length_skipSpaces (p : Str) : (skipSpaces p).length ≤ p.length :=
  (List.dropWhile_sublist _).length_le

theorem parseLoop_fuel {fuel fuel' : Nat} {p : Str} (h : p.length < fuel) (h' : p.length < fuel') :
    parseLoop fuel p = parseLoop fuel' p := by
  induction fuel generalizing fuel' p with
  | zero => exact absurd h (Nat.not_lt_zero _)
  | succ fuel ih =>
      obtain ⟨fuel', rfl⟩ := Nat.exists_eq_succ_of_ne_zero (Nat.ne_zero_of_lt h')
      rcases p with - | ⟨c, p⟩
      · rfl
      · -- the rest after a token is shorter, so the two runs agree on it
        have hrest {b : UInt8} {s u v : Str} (hs : s.length ≤ p.length + 1)
            (e : cut b s = some (u, v)) :
            parseLoop fuel (skipSpaces v) = parseLoop fuel' (skipSpaces v) := by
          have h₁ := length_of_cut e
          have h₂ := length_skipSpaces v
          rw [List.length_cons] at h h'
          exact ih (by omega) (by omega)
        rw [parseLoop, parseLoop]
        split
        · rcases e : cut quote p with - | ⟨u, v⟩
          · rfl
          · dsimp only
            rw [hrest (Nat.le_succ _) e]
        · rcases e : cut space (c :: p) with - | ⟨u, v⟩
          · rfl
          · dsimp only
            rw [hrest (Nat.le_refl _) e]

/-- Quotes keep spaces, and an argument may follow a closing quote at once. -/
example : parselineNoSubst (ascii "alias ll = 'ls -l'x\n")
    = ⟨[ascii "alias", ascii "ll", ascii "=", ascii "ls -l", ascii "x"], true⟩ := by
  decide +kernel

end SystemsPortfolio.Wsh
