/-
SystemsPortfolio/Wsh/Grammar.lean

The grammar of a command line, and that `parseline_no_subst` reads it.

After its last byte has been made a space, a line is a row of spaces, quoted arguments and
words.  A quoted argument ends at its second quote and a word at the first space, so these
texts form a prefix code: a line has one reading at most.  Where the reading stops short,
the rest is a quote that is never closed.

Main results: the tokenizer stores the arguments of the reading in their order
(`parselineNoSubst_reads`), and every argument it stores is either free of quotes or a word
(`plain_of_stored`), which it accepts again (`closed_of_plain`).
-/
import SystemsPortfolio.Lib.PrefixCode
import SystemsPortfolio.Wsh.Parse

namespace SystemsPortfolio.Wsh

open PrefixCode

/-! ### The grammar -/

/-- What a line is made of. -/
inductive Item
  | gap
  | quoted (value : Str)
  | word (value : Str)
  deriving DecidableEq

/-- The bytes of an item; a word takes the space that ends it. -/
def Item.text : Item → Str
  | .gap => [space]
  | .quoted value => quote :: (value ++ [quote])
  | .word value => value ++ [space]

/-- Nothing in the value ends the item early, and a word does not begin like another item. -/
def Item.Valid : Item → Prop
  | .gap => True
  | .quoted value => quote ∉ value
  | .word value => value ≠ [] ∧ value.head? ≠ some quote ∧ space ∉ value

instance : DecidablePred Item.Valid
  | .gap => .isTrue trivial
  | .quoted value => inferInstanceAs (Decidable (quote ∉ value))
  | .word value =>
      inferInstanceAs (Decidable (value ≠ [] ∧ value.head? ≠ some quote ∧ space ∉ value))

/-- The argument that an item stands for. -/
def Item.arg : Item → Option Str
  | .gap => none
  | .quoted value => some value
  | .word value => some value

def args (items : List Item) : List Str :=
  items.filterMap Item.arg

@[simp] theorem args_gap (items : List Item) : args (.gap :: items) = args items := rfl

@[simp] theorem args_quoted (value : Str) (items : List Item) :
    args (.quoted value :: items) = value :: args items := rfl

@[simp] theorem args_word (value : Str) (items : List Item) :
    args (.word value :: items) = value :: args items := rfl

/-- A word begins with a byte that is neither a space nor a quote. -/
theorem Item.Valid.word_cons {value : Str} (h : (Item.word value).Valid) :
    ∃ c u, value = c :: u ∧ c ≠ quote ∧ c ≠ space := by
  obtain ⟨hne, hquote, hspace⟩ := h
  rcases value with - | ⟨c, u⟩
  · exact absurd rfl hne
  · refine ⟨c, u, rfl, ?_, ?_⟩
    · rintro rfl
      exact hquote rfl
    · rintro rfl
      exact hspace (by simp)

/-- What ends at the first `c` is told by any string that it begins. -/
theorem eq_of_delimited {c : UInt8} {u v : Str} (hu : c ∉ u) (hv : c ∉ v)
    (h : u ++ [c] <+: v ++ [c]) : u = v := by
  obtain ⟨t, e⟩ := h
  have hcut := congrArg (cut c) e
  rw [List.append_assoc, List.singleton_append, cut_append hu, cut_append hv] at hcut
  exact congrArg Prod.fst (Option.some.inj hcut)

theorem prefixFree_text : PrefixFree Item.text Item.Valid where
  ne_nil := by
    intro i hi
    cases i <;> simp [Item.text]
  eq_of_prefix := by
    intro i j hi hj h
    -- the first byte tells the kind of the item
    rcases i with - | u | u <;> rcases j with - | v | v
    · rfl
    · simp only [Item.text, List.cons_prefix_cons] at h
      exact absurd h.1 (by decide)
    · obtain ⟨c, t, rfl, -, hc⟩ := hj.word_cons
      simp [Item.text, Ne.symm hc] at h
    · simp [Item.text] at h
    · simp only [Item.text, List.cons_prefix_cons, true_and] at h
      rw [eq_of_delimited hi hj h]
    · obtain ⟨c, t, rfl, hc, -⟩ := hj.word_cons
      simp [Item.text, Ne.symm hc] at h
    · obtain ⟨c, t, rfl, -, hc⟩ := hi.word_cons
      simp [Item.text, hc] at h
    · obtain ⟨c, t, rfl, hc, -⟩ := hi.word_cons
      simp [Item.text, hc] at h
    · simp only [Item.text] at h
      rw [eq_of_delimited hi.2.2 hj.2.2 h]

/-! ### What the tokenizer reads -/

/-- A rest that the tokenizer can stop at: nothing, or a quote that is not closed. -/
def Unread (rest : Str) : Prop :=
  rest = [] ∨ ∃ t, rest = quote :: t ∧ quote ∉ t

/-- Where nothing fits there is no text, an open quote, or a word without its space. -/
theorem unread_or_endless {rest : Str} (h : Stuck Item.text Item.Valid rest) :
    Unread rest ∨ rest ≠ [] ∧ space ∉ rest := by
  rcases rest with - | ⟨c, t⟩
  · exact .inl (.inl rfl)
  · by_cases hq : c = quote
    · subst hq
      refine .inl (.inr ⟨t, rfl, ?_⟩)
      intro hmem
      obtain ⟨u, v, rfl, hu⟩ := List.eq_append_cons_of_mem hmem
      refine h (.quoted u) hu ⟨v, ?_⟩
      simp [Item.text]
    · refine .inr ⟨by simp, ?_⟩
      intro hmem
      obtain ⟨u, v, e, hu⟩ := List.eq_append_cons_of_mem hmem
      rcases u with - | ⟨b, u⟩
      · refine h .gap trivial ⟨v, ?_⟩
        simpa [Item.text] using e.symm
      · -- the bytes before the space are a word
        have hb : c = b := by
          simp only [List.cons_append, List.cons.injEq] at e
          exact e.1
        refine h (.word (b :: u)) ⟨by simp, ?_, hu⟩ ⟨v, ?_⟩
        · rw [List.head?_cons, ← hb]
          intro e'
          exact hq (Option.some.inj e')
        · rw [e]
          simp [Item.text]

/-- The buffer is the line, without a newline at its end, and a space. -/
theorem parseBuf_cases (cmdline : Str) :
    ∃ u, parseBuf cmdline = u ++ [space] ∧ (cmdline = u ∨ cmdline = u ++ [newline]) := by
  rw [parseBuf]
  split
  · next h =>
      refine ⟨_, rfl, .inr ?_⟩
      exact (List.dropLast_append_getLast? newline h).symm
  · exact ⟨_, rfl, .inl rfl⟩

/-- The last word of the buffer has its space. -/
theorem unread_of_reads {cmdline rest : Str} {items : List Item}
    (h : Reads Item.text Item.Valid (parseBuf cmdline) items rest) : Unread rest := by
  rcases unread_or_endless h.stuck with hr | ⟨hne, hspace⟩
  · exact hr
  · obtain ⟨u, e, -⟩ := parseBuf_cases cmdline
    have hlast := congrArg List.getLast? (h.eq.symm.trans e)
    rw [List.getLast?_append_of_ne_nil _ hne, List.getLast?_append_of_ne_nil _ (by simp)] at hlast
    exact absurd (List.mem_of_getLast? hlast) hspace

theorem skipSpaces_space (p : Str) : skipSpaces (space :: p) = skipSpaces p := by
  simp [skipSpaces]

theorem skipSpaces_of_ne {c : UInt8} (h : c ≠ space) (p : Str) :
    skipSpaces (c :: p) = c :: p := by
  simp [skipSpaces, h]

/-- The loop stores the arguments of the items one after another. -/
theorem parseLoop_reads (fuel : Nat) {items : List Item} {rest : Str}
    (hv : ∀ i ∈ items, i.Valid) (hr : Unread rest)
    (hf : (items.flatMap Item.text ++ rest).length < fuel) :
    parseLoop fuel (skipSpaces (items.flatMap Item.text ++ rest)) = ⟨args items, rest.isEmpty⟩ := by
  induction items generalizing fuel with
  | nil =>
      obtain ⟨fuel, rfl⟩ := Nat.exists_eq_succ_of_ne_zero (Nat.ne_zero_of_lt hf)
      rcases hr with rfl | ⟨t, rfl, ht⟩
      · rfl
      · rw [List.flatMap_nil, List.nil_append, skipSpaces_of_ne (by decide), parseLoop, if_pos rfl,
          cut_eq_none.2 ht]
        rfl
  | cons i items ih =>
      obtain ⟨fuel, rfl⟩ := Nat.exists_eq_succ_of_ne_zero (Nat.ne_zero_of_lt hf)
      have hi := hv i (by simp)
      have hnext := ih fuel (fun j hj => hv j (by simp [hj]))
      rw [List.flatMap_cons, List.append_assoc, List.length_append] at hf
      rw [List.flatMap_cons, List.append_assoc]
      rcases i with - | u | u
      · show parseLoop _ (skipSpaces (space :: _)) = _
        rw [skipSpaces_space, args_gap]
        exact ih _ (fun j hj => hv j (by simp [hj])) (by omega)
      · show parseLoop _ (skipSpaces (quote :: ((u ++ [quote]) ++ _))) = _
        rw [skipSpaces_of_ne (by decide), parseLoop, if_pos rfl, List.append_assoc,
          List.singleton_append, cut_append hi]
        simp only [Item.text, List.length_cons] at hf
        show (parseLoop fuel _).cons u = _
        rw [hnext (by omega)]
        rfl
      · obtain ⟨c, t, rfl, hq, hs⟩ := hi.word_cons
        show parseLoop _ (skipSpaces (c :: t ++ [space] ++ _)) = _
        rw [List.cons_append, List.cons_append, skipSpaces_of_ne hs, parseLoop, if_neg hq,
          ← List.cons_append, ← List.cons_append, List.append_assoc, List.singleton_append,
          cut_append hi.2.2]
        simp only [Item.text, List.length_cons, List.cons_append] at hf
        show (parseLoop fuel _).cons _ = _
        rw [hnext (by omega)]
        rfl

/-- The tokenizer stores the arguments of the reading, and misses a quote when the reading
stops short. -/
theorem parselineNoSubst_reads {cmdline rest : Str} {items : List Item}
    (h : Reads Item.text Item.Valid (parseBuf cmdline) items rest) :
    parselineNoSubst cmdline = ⟨args items, rest.isEmpty⟩ := by
  have hr := unread_of_reads h
  rw [parselineNoSubst, h.eq]
  exact parseLoop_reads _ h.words hr (Nat.lt_succ_self _)

theorem exists_reads (cmdline : Str) :
    ∃ items rest, Reads Item.text Item.Valid (parseBuf cmdline) items rest :=
  prefixFree_text.exists_reads _

/-- The line is read to its end: spaces, and arguments with any spaces between them. -/
def Reading (cmdline : Str) (items : List Item) : Prop :=
  (∀ i ∈ items, i.Valid) ∧ parseBuf cmdline = items.flatMap Item.text

instance (cmdline : Str) (items : List Item) : Decidable (Reading cmdline items) :=
  inferInstanceAs (Decidable (_ ∧ _))

theorem reads_nil_iff {cmdline : Str} {items : List Item} :
    Reads Item.text Item.Valid (parseBuf cmdline) items [] ↔ Reading cmdline items := by
  constructor
  · rintro ⟨hv, -, e⟩
    rw [List.append_nil] at e
    exact ⟨hv, e⟩
  · rintro ⟨hv, e⟩
    refine ⟨hv, prefixFree_text.stuck_nil, ?_⟩
    rw [List.append_nil]
    exact e

theorem Reading.unique {cmdline : Str} {items items' : List Item} (h : Reading cmdline items)
    (h' : Reading cmdline items') : items = items' :=
  ((reads_nil_iff.2 h).unique prefixFree_text (reads_nil_iff.2 h')).1

theorem Reading.parseline {cmdline : Str} {items : List Item} (h : Reading cmdline items) :
    parselineNoSubst cmdline = ⟨args items, true⟩ :=
  parselineNoSubst_reads (reads_nil_iff.2 h)

/-- No quote is missing exactly when there is a reading. -/
theorem closed_iff {cmdline : Str} :
    (parselineNoSubst cmdline).closed = true ↔ ∃ items, Reading cmdline items := by
  constructor
  · intro hc
    obtain ⟨items, rest, h⟩ := exists_reads cmdline
    rw [parselineNoSubst_reads h] at hc
    obtain rfl := List.isEmpty_iff.1 hc
    exact ⟨items, reads_nil_iff.1 h⟩
  · rintro ⟨items, h⟩
    rw [h.parseline]

/-! ### Arguments are accepted again -/

/-- Free of quotes, or a word. -/
def Plain (t : Str) : Prop :=
  quote ∉ t ∨ space ∉ t ∧ t.head? ≠ some quote

theorem Item.Valid.plain {i : Item} (h : i.Valid) : ∀ t ∈ i.arg, Plain t := by
  intro t ht
  rcases i with - | u | u
  · cases ht
  · obtain rfl := Option.some.inj ht
    exact .inl h
  · obtain rfl := Option.some.inj ht
    exact .inr ⟨h.2.2, h.2.1⟩

/-- Whatever is read, its arguments are plain. -/
theorem plain_of_stored {cmdline t : Str} (h : t ∈ (parselineNoSubst cmdline).stored) :
    Plain t := by
  obtain ⟨items, rest, hr⟩ := exists_reads cmdline
  rw [parselineNoSubst_reads hr] at h
  obtain ⟨i, hi, ht⟩ := List.mem_filterMap.1 h
  exact (hr.words i hi).plain t ht

theorem plain_of_argv {cmdline t : Str} (h : t ∈ (parselineNoSubst cmdline).argv) :
    Plain t := by
  rw [Parsed.argv] at h
  split at h
  · exact plain_of_stored h
  · cases h

/-- A plain string has no quote that is missing. -/
theorem closed_of_plain {t : Str} (h : Plain t) : (parselineNoSubst t).closed = true := by
  obtain ⟨u, hu, ht⟩ := parseBuf_cases t
  have hpre : u <+: t := by
    rcases ht with rfl | rfl
    · exact List.prefix_rfl
    · exact List.prefix_append ..
  rcases h with hq | ⟨hs, hhead⟩
  · -- there is no quote that could be left over
    obtain ⟨items, rest, hr⟩ := exists_reads t
    rw [parselineNoSubst_reads hr]
    rcases unread_of_reads hr with rfl | ⟨v, rfl, -⟩
    · rfl
    · have hmem : quote ∈ u ++ [space] := by
        rw [← hu, hr.eq]
        simp
      rcases List.mem_append.1 hmem with hmem | hmem
      · exact absurd (hpre.subset hmem) hq
      · exact absurd (List.mem_singleton.1 hmem) (by decide)
  · -- the whole of it is a word, unless nothing is left of it
    rw [closed_iff]
    have hs' : space ∉ u := fun hmem => hs (hpre.subset hmem)
    rcases u with - | ⟨c, u⟩
    · exact ⟨[.gap], by simp [Item.Valid], hu⟩
    · refine ⟨[.word (c :: u)], ?_, ?_⟩
      · simp only [List.mem_singleton, forall_eq]
        refine ⟨by simp, ?_, hs'⟩
        obtain ⟨v, rfl⟩ := hpre
        exact hhead
      · rw [hu]
        simp [Item.text]

end SystemsPortfolio.Wsh
