/-
SystemsPortfolio/Wsh/Aliases.lean

The alias table over any lines given to the shell.

Values enter the table as arguments, and every argument comes from the tokenizer, at first
hand or out of another alias; so whatever lines were run, the table is the result of calls
that store plain strings (`table_run`), and tokenizing a value again misses no quote.  It
may give no argument at all, though: `alias x =` is legal, and a command that consists of
`x` alone is then dispatched without a name.
-/
import SystemsPortfolio.Wsh.Grammar
import SystemsPortfolio.Wsh.Dispatch

namespace SystemsPortfolio.Wsh

variable {w : World} {s s' : Shell} {hm : HashMap} {line : Str}

/-! ### Arguments are plain -/

theorem plain_expansion {argv : List Str} (h : ∀ t ∈ argv, Plain t) :
    ∀ t ∈ expansion hm argv, Plain t := by
  rcases argv with - | ⟨name, args⟩
  · simp [expansion]
  · rw [expansion]
    split
    · exact h
    · intro t ht
      rcases List.mem_append.1 ht with hmem | hmem
      · exact plain_of_argv hmem
      · exact h t (by simp [hmem])

theorem plain_builtinArgs : ∀ t ∈ (command hm line).builtinArgs, Plain t := by
  intro t ht
  have hseg (seg : Str) : ∀ t ∈ expansion hm (parselineNoSubst seg).argv, Plain t :=
    plain_expansion fun _ => plain_of_argv
  rw [command] at ht
  split at ht
  · cases ht
  · split at ht
    · cases ht
    · rw [Command.simple] at ht
      split at ht
      · exact hseg _ t ht
      · cases ht
  · split at ht <;> cases ht

/-! ### The table -/

/-- What the lines of a session have done to the table: calls that store plain strings. -/
theorem table_run (h : shellSystem.Reachable s) :
    ∃ ops, s.aliasHm = mapRun ops ∧ ∀ op ∈ ops, ∀ v ∈ op.stored, Plain v := by
  apply Transition.System.Reachable.invariant _ _ h
  · rintro s rfl
    exact ⟨[], rfl, by simp⟩
  · rintro s s' - ⟨ops, htable, hplain⟩ ⟨w, line, out, hrun⟩
    obtain ⟨-, s₁, s₂, out₂, honly, hcommand, rfl⟩ := runLine_inv hrun
    rcases (Command.run_effect hcommand).aliasHm with e | ⟨op, hop, e⟩
    · refine ⟨ops, ?_, hplain⟩
      rw [← htable, ← honly.aliasHm, ← e]
      rfl
    · refine ⟨ops ++ [op], ?_, ?_⟩
      · rw [mapRun_append, ← htable, ← honly.aliasHm, ← e]
        rfl
      · intro op' hop' v hv
        rcases List.mem_append.1 hop' with hmem | hmem
        · exact hplain op' hmem v hv
        · rw [List.mem_singleton.1 hmem] at hv
          rcases hop v hv with rfl | hv
          · exact .inl (by simp)
          · exact plain_builtinArgs v hv

theorem plain_of_hmGet (h : shellSystem.Reachable s) {name value : Str}
    (hget : hmGet s.aliasHm name = some value) : Plain value := by
  obtain ⟨ops, htable, hplain⟩ := table_run h
  rw [htable] at hget
  obtain ⟨before, after, rfl, -⟩ := (hmGet_run_iff ops name value).1 hget
  exact hplain (.put name value) (by simp) value rfl

/-- No value in the table of a reachable shell misses a quote: every argument the tokenizer
stores is free of quotes or a word, and it accepts such strings. -/
theorem alias_values_reparse :
    (∀ s, shellSystem.Reachable s → ∀ i, ∀ e ∈ s.aliasHm.buckets i,
      (parselineNoSubst e.value).closed = true)
      ∧ (∀ cmdline, ∀ t ∈ (parselineNoSubst cmdline).stored, Plain t)
      ∧ ∀ t, Plain t → (parselineNoSubst t).closed = true := by
  refine ⟨?_, fun _ _ => plain_of_stored, fun _ => closed_of_plain⟩
  intro s h i e he
  have hsound : s.aliasHm.Sound := by
    obtain ⟨ops, htable, -⟩ := table_run h
    rw [htable]
    exact sound_run ops
  exact closed_of_plain (plain_of_hmGet h (hsound.hmGet_of_mem he))

/-- The shell after an alias `x` has been defined by `line`. -/
def afterAlias (line value : Str) : Shell :=
  Shell.addHistoryAfterExec { startShell with aliasHm := hmPut hmCreate (ascii "x") value } line

theorem afterAlias_reachable {line value : Str}
    (h : runLine bareWorld startShell line = .ok (afterAlias line value, [])) :
    shellSystem.Reachable (afterAlias line value) :=
  .next (.start rfl) ⟨bareWorld, line, [], h⟩

/-- The value `ls -l` of an alias `x` is in the table. -/
theorem alias_values_reparse_defined : ∃ i, ∃ e ∈ (afterAlias (ascii "alias x = 'ls -l'\n")
    (ascii "ls -l")).aliasHm.buckets i, (parselineNoSubst e.value).closed = true := by
  have hmem : (⟨ascii "x", ascii "ls -l"⟩ : Entry) ∈ (afterAlias (ascii "alias x = 'ls -l'\n")
      (ascii "ls -l")).aliasHm.buckets (hash (ascii "x")) := by
    rw [show (afterAlias _ _).aliasHm.buckets _ = [⟨ascii "x", ascii "ls -l"⟩] from
      Function.update_self ..]
    exact List.mem_singleton_self _
  exact ⟨_, _, hmem, alias_values_reparse.1 _ (afterAlias_reachable rfl) _ _ hmem⟩

/-! ### Commands without a name -/

/-- Nothing but spaces, up to a newline at the end. -/
def Blank (value : Str) : Prop :=
  ∀ b ∈ trimNewline value, b = space

theorem parseBuf_trimNewline (cmdline : Str) :
    parseBuf cmdline = trimNewline cmdline ++ [space] := by
  rw [parseBuf, trimNewline]
  split <;> rfl

/-- Items without an argument are gaps. -/
theorem args_eq_nil_iff {items : List Item} (h : ∀ i ∈ items, i.Valid) :
    args items = [] ↔ ∀ b ∈ items.flatMap Item.text, b = space := by
  constructor
  · intro hargs b hb
    obtain ⟨i, hi, hb⟩ := List.mem_flatMap.1 hb
    have hnone := List.filterMap_eq_nil_iff.1 hargs i hi
    rcases i with - | u | u
    · exact List.mem_singleton.1 hb
    · cases hnone
    · cases hnone
  · intro hspaces
    refine List.filterMap_eq_nil_iff.2 fun i hi => ?_
    have htext {b : UInt8} (hb : b ∈ i.text) : b = space :=
      hspaces b (List.mem_flatMap.2 ⟨i, hi, hb⟩)
    rcases i with - | u | u
    · rfl
    · exact absurd (htext (b := quote) (by simp [Item.text])) (by decide)
    · obtain ⟨c, t, rfl, -, hc⟩ := (h _ hi).word_cons
      exact absurd (htext (by simp [Item.text])) hc

/-- A plain value gives no argument exactly if it is blank. -/
theorem argv_eq_nil_iff {value : Str} (h : Plain value) :
    (parselineNoSubst value).argv = [] ↔ Blank value := by
  obtain ⟨items, hr⟩ := closed_iff.1 (closed_of_plain h)
  rw [hr.parseline, Parsed.argv, if_pos rfl, args_eq_nil_iff hr.1, ← hr.2, parseBuf_trimNewline]
  simp [Blank, or_imp]

/-- Expansion leaves nothing exactly of a single argument whose alias has none. -/
theorem expansion_eq_nil_iff {argv : List Str} (h : argv ≠ []) :
    expansion hm argv = [] ↔ ∃ name value, argv = [name] ∧ hmGet hm name = some value
      ∧ (parselineNoSubst value).argv = [] := by
  rcases argv with - | ⟨name, args⟩
  · exact absurd rfl h
  · rw [expansion]
    rcases e : hmGet hm name with - | aliasCmd
    · simp [e]
    · simp [e, and_comm]

/-- What is run has a name, wherever the name is looked at. -/
def Command.Named : Command → Prop
  | .none => True
  | .builtin _ => True
  | .external argv => argv ≠ []
  | .pipeline segarv => ∀ argv ∈ segarv, argv ≠ []

/-- The segment consists of an alias with a blank value. -/
def BlankSegment (hm : HashMap) (seg : Str) : Prop :=
  ∃ name value, (parselineNoSubst seg).argv = [name] ∧ hmGet hm name = some value ∧ Blank value

/-- No segment of the line is empty, and one consists of an alias with a blank value. -/
def BlankAlias (hm : HashMap) (line : Str) : Prop :=
  ∃ segs, splitPipeline line maxSegs = some segs
    ∧ (∀ seg ∈ segs, (parselineNoSubst seg).argv ≠ []) ∧ ∃ seg ∈ segs, BlankSegment hm seg

theorem simple_named_iff {argv : List Str} : (Command.simple argv).Named ↔ argv ≠ [] := by
  rw [Command.simple]
  split
  · next h =>
      refine iff_of_true trivial ?_
      rintro rfl
      cases h
  · rfl

section Plain

variable (hplain : ∀ name value, hmGet hm name = some value → Plain value)
include hplain

theorem blankSegment_iff {seg : Str} (h : (parselineNoSubst seg).argv ≠ []) :
    BlankSegment hm seg ↔ expansion hm (parselineNoSubst seg).argv = [] := by
  rw [expansion_eq_nil_iff h]
  constructor
  · rintro ⟨name, value, hargv, hget, hblank⟩
    exact ⟨name, value, hargv, hget, (argv_eq_nil_iff (hplain _ _ hget)).2 hblank⟩
  · rintro ⟨name, value, hargv, hget, hnil⟩
    exact ⟨name, value, hargv, hget, (argv_eq_nil_iff (hplain _ _ hget)).1 hnil⟩

theorem pipeline_named_iff (segs : List Str) :
    (if segs.all fun seg => !(parselineNoSubst seg).argv.isEmpty then
        Command.pipeline (segs.map fun seg => expansion hm (parselineNoSubst seg).argv)
      else .none).Named ↔
      ¬ ((∀ seg ∈ segs, (parselineNoSubst seg).argv ≠ []) ∧ ∃ seg ∈ segs, BlankSegment hm seg) := by
  have hall : (segs.all fun seg => !(parselineNoSubst seg).argv.isEmpty) = true ↔
      ∀ seg ∈ segs, (parselineNoSubst seg).argv ≠ [] := by
    simp
  split
  · next h =>
      rw [hall] at h
      constructor
      · rintro hnamed ⟨-, seg, hseg, hblank⟩
        exact hnamed _ (List.mem_map_of_mem hseg) ((blankSegment_iff hplain (h seg hseg)).1 hblank)
      · intro hno argv hargv
        obtain ⟨seg, hseg, rfl⟩ := List.mem_map.1 hargv
        intro hnil
        exact hno ⟨h, seg, hseg, (blankSegment_iff hplain (h seg hseg)).2 hnil⟩
  · next h =>
      rw [hall] at h
      exact iff_of_true trivial fun hboth => h hboth.1

theorem command_named_iff : (command hm line).Named ↔ ¬ BlankAlias hm line := by
  rw [BlankAlias, command]
  rcases splitPipeline line maxSegs with - | - | ⟨seg, - | ⟨seg', segs⟩⟩ <;>
    simp only [reduceCtorEq, false_and, exists_false, not_false_eq_true, Option.some.injEq,
      exists_eq_left']
  · exact iff_of_true trivial trivial
  · exact pipeline_named_iff hplain []
  · simp only [List.mem_singleton, forall_eq, exists_eq_left]
    split
    · next h => exact iff_of_true trivial fun hboth => hboth.1 h
    · next h =>
        rw [simple_named_iff, ne_eq, blankSegment_iff hplain h]
        simp [h]
  · exact pipeline_named_iff hplain _

end Plain

/-- In a reachable shell a line is run without a command that has no name exactly if its
arguments fit, and it does not consist of, or have a stage that is, an alias with a blank
value. -/
theorem commands_named_iff (h : shellSystem.Reachable s) (line : Str) :
    (∃ c s' out, s.prepare line = .ok (c, s', out) ∧ c.Named) ↔
      LineInBounds s.aliasHm line ∧ ¬ BlankAlias s.aliasHm line := by
  rw [← command_named_iff fun _ _ => plain_of_hmGet h]
  constructor
  · rintro ⟨c, s', out, hprep, hnamed⟩
    by_cases hin : LineInBounds s.aliasHm line
    · obtain ⟨s₁, out₁, e, -⟩ := prepare_ok hin
      rw [hprep] at e
      obtain ⟨rfl, -⟩ := Prod.mk.inj (Flow.ok.inj e)
      exact ⟨hin, hnamed⟩
    · rw [prepare_undefined hin] at hprep
      cases hprep
  · rintro ⟨hin, hnamed⟩
    obtain ⟨s₁, out₁, e, -⟩ := prepare_ok hin
    exact ⟨_, s₁, out₁, e, hnamed⟩

/-- With `x` for `ls -l`, the pipeline `x | x y` has names. -/
theorem commands_named_iff_pipeline :
    ∃ c s' out, (afterAlias (ascii "alias x = 'ls -l'\n") (ascii "ls -l")).prepare (ascii "x | x y\n")
      = .ok (c, s', out) ∧ c.Named := by
  have hsplit : splitPipeline (ascii "x | x y\n") maxSegs = some [ascii "x ", ascii " x y\n"] := by
    decide +kernel
  have hget :
      hmGet (hmPut hmCreate (ascii "x") (ascii "ls -l")) (ascii "x") = some (ascii "ls -l") := by
    decide +kernel
  have hx : (parselineNoSubst (ascii "x ")).argv = [ascii "x"] := by decide +kernel
  have hxy : (parselineNoSubst (ascii " x y\n")).argv = [ascii "x", ascii "y"] := by decide +kernel
  have halias {args : List Str} :
      AliasInBounds (hmPut hmCreate (ascii "x") (ascii "ls -l")) (ascii "x" :: args) := by
    rintro name ⟨⟩ value hvalue
    obtain rfl := Option.some.inj (hget.symm.trans hvalue)
    decide +kernel
  refine (commands_named_iff (afterAlias_reachable rfl) _).2 ⟨?_, ?_⟩
  · intro segs e seg hseg
    obtain rfl := Option.some.inj (hsplit.symm.trans e)
    simp only [List.mem_cons, List.not_mem_nil, or_false] at hseg
    rcases hseg with rfl | rfl
    · exact ⟨by decide +kernel, by rw [hx]; exact halias⟩
    · exact ⟨by decide +kernel, by rw [hxy]; exact halias⟩
  · rintro ⟨segs, e, -, seg, hseg, name, value, hargv, hvalue, hblank⟩
    obtain rfl := Option.some.inj (hsplit.symm.trans e)
    simp only [List.mem_cons, List.not_mem_nil, or_false] at hseg
    rcases hseg with rfl | rfl
    · rw [hx] at hargv
      obtain ⟨rfl, -⟩ := List.cons.inj hargv
      obtain rfl := Option.some.inj (hget.symm.trans hvalue)
      exact absurd (hblank 108 (by decide)) (by decide)
    · rw [hxy] at hargv
      cases hargv

/-- With an empty value for `x`, the line `x` runs a command without a name. -/
theorem blank_alias_dispatched :
    shellSystem.Reachable (afterAlias (ascii "alias x =\n") [])
      ∧ (afterAlias (ascii "alias x =\n") []).prepare (ascii "x\n")
        = .ok (.external [], afterAlias (ascii "alias x =\n") [], [])
      ∧ ∀ w, runLine w (afterAlias (ascii "alias x =\n") []) (ascii "x\n") = .undefined :=
  ⟨afterAlias_reachable rfl, rfl, fun _ => rfl⟩

end SystemsPortfolio.Wsh
