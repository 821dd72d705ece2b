/-
SystemsPortfolio/Wsh/Tokenizer.lean

`parseline_no_subst` as the shell calls it: exactly the grammar, and when the array of the
caller is long enough.

The callers hand over arrays of `MAX_ARGS + 1` pointers and nothing stops the loop at their
end.  An argument takes two bytes of the buffer at least, so only lines of more than 256
bytes can go wrong; but a line may have 1023.
-/
import SystemsPortfolio.Wsh.Grammar
import SystemsPortfolio.Wsh.Dispatch

namespace SystemsPortfolio.Wsh

open PrefixCode

variable {cmdline : Str}

/-! ### The grammar -/

theorem Reading.parseline_ok {items : List Item} (h : Reading cmdline items)
    (hfits : Fits cmdline) (s : Shell) : s.parseline cmdline = .ok (args items, s, []) := by
  rw [Shell.parseline, if_neg (Nat.not_lt.2 hfits.inBounds), h.parseline]
  rfl

/-- A line has one reading at most; if there is one, its arguments are returned, and a missing
quote is reported, with no arguments and `rc` set, exactly if there is none. -/
theorem parseline_grammar (h : Fits cmdline) (s : Shell) :
    (∀ items items', Reading cmdline items → Reading cmdline items' → items = items')
      ∧ (∀ items, Reading cmdline items → s.parseline cmdline = .ok (args items, s, []))
      ∧ (s.parseline cmdline = .ok ([], s.warn .missingClosingQuote) ↔
        ¬ ∃ items, Reading cmdline items) := by
  refine ⟨fun _ _ hr hr' => hr.unique hr', fun _ hr => hr.parseline_ok h s, ?_⟩
  constructor
  · rintro e ⟨items, hr⟩
    rw [hr.parseline_ok h s] at e
    simp [Shell.warn] at e
  · intro hno
    have hopen : (parselineNoSubst cmdline).closed = false := by
      rw [Bool.eq_false_iff, ne_eq, closed_iff]
      exact hno
    rw [Shell.parseline, if_neg (Nat.not_lt.2 h.inBounds), Parsed.argv, hopen]
    rfl

/-- A quoted argument directly before a word with a quote in it. -/
theorem parseline_grammar_echo :
    startShell.parseline (ascii "echo 'a b'c' \n")
      = .ok ([ascii "echo", ascii "a b", ascii "c'"], startShell, []) :=
  (@parseline_grammar (ascii "echo 'a b'c' \n") (by decide +kernel) startShell).2.1
    [.word (ascii "echo"), .quoted (ascii "a b"), .word (ascii "c'"), .gap] (by decide +kernel)

/-! ### The array -/

/-- At most `MAX_ARGS` arguments, or one more in front of a quote that is not closed. -/
def Short (cmdline : Str) : Prop :=
  ∀ items rest, Reads Item.text Item.Valid (parseBuf cmdline) items rest →
    (args items).length ≤ if rest = [] then maxArgs else maxArgs + 1

theorem inBounds_iff : InBounds cmdline ↔ Short cmdline := by
  obtain ⟨items, rest, hr⟩ := exists_reads cmdline
  have hshort : Short cmdline ↔
      (args items).length ≤ if rest = [] then maxArgs else maxArgs + 1 := by
    constructor
    · intro h
      exact h items rest hr
    · intro h items' rest' hr'
      obtain ⟨rfl, rfl⟩ := hr.unique prefixFree_text hr'
      exact h
  rw [hshort, InBounds, parselineNoSubst_reads hr, Parsed.top]
  rcases rest with - | ⟨c, t⟩
  · simp
  · simp

/-- The tokenizer stays within an array of `MAX_ARGS + 1` pointers exactly on short strings;
and running a line goes wrong in this way exactly if one of its segments, or the value of an
alias that a segment begins with, is not short. -/
theorem tokenizer_in_bounds_iff (cmdline : Str) (s : Shell) (line : Str) :
    ((parselineNoSubst cmdline).top ≤ maxArgs ↔ Short cmdline)
      ∧ (s.prepare line = .undefined ↔
        ∃ segs, splitPipeline line maxSegs = some segs ∧ ∃ seg ∈ segs,
          ¬ (Short seg ∧ ∀ name ∈ (parselineNoSubst seg).argv.head?,
            ∀ aliasCmd ∈ hmGet s.aliasHm name, Short aliasCmd)) := by
  refine ⟨inBounds_iff, ?_⟩
  have hline : LineInBounds s.aliasHm line ↔
      ∀ segs, splitPipeline line maxSegs = some segs → ∀ seg ∈ segs,
        Short seg ∧ ∀ name ∈ (parselineNoSubst seg).argv.head?,
          ∀ aliasCmd ∈ hmGet s.aliasHm name, Short aliasCmd := by
    simp only [LineInBounds, SegmentInBounds, AliasInBounds, inBounds_iff]
  have hundefined : s.prepare line = .undefined ↔ ¬ LineInBounds s.aliasHm line := by
    constructor
    · intro e h
      obtain ⟨s', out, e', -⟩ := prepare_ok h
      rw [e] at e'
      cases e'
    · exact prepare_undefined
  rw [hundefined, hline]
  simp only [not_forall, exists_prop]

/-- A line of 129 words, well below the length of the buffer that lines are read into. -/
def manyWords : Str :=
  (List.replicate 129 (ascii "a ")).flatten

theorem tokenizer_overflows :
    manyWords.length ≤ 1023 ∧ maxArgs < (parselineNoSubst manyWords).top
      ∧ startShell.prepare manyWords = .undefined := by
  have htop : maxArgs < (parselineNoSubst manyWords).top := by decide +kernel
  have hsplit : splitPipeline manyWords maxSegs = some [manyWords] := by decide +kernel
  refine ⟨by decide +kernel, htop, prepare_undefined ?_⟩
  intro h
  exact absurd (h _ hsplit manyWords (by simp)).1 (Nat.not_le.2 htop)

end SystemsPortfolio.Wsh
