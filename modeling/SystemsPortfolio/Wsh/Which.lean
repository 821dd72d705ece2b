/-
SystemsPortfolio/Wsh/Which.lean

The built-in `which` tells what would run.

The order of the lookups and the search along `PATH` stand in the source twice, in `bi_which`
and on the way to an execution: `expand_alias_first_token`, then the test of `run_line` for
built-ins, then `resolve_exec_path`.  The report is the one for what this way finds, and the
reports differ from each other, so each is printed in its case only.
-/
import SystemsPortfolio.Wsh.Dispatch

namespace SystemsPortfolio.Wsh

variable {w : World} {s s' : Shell} {name : Str}

/-! ### What would run -/

/-- `expand_alias_first_token` puts the arguments of `value` in the place of `name`. -/
structure Substitutes (s : Shell) (name value : Str) : Prop where
  found : hmGet s.aliasHm name = some value
  expands : ∀ args, s.expandAliasFirstToken (name :: args) = do
    let (aArgv, s, out) ← s.parseline value
    return (aArgv ++ args, s, out)

theorem substitutes_iff {value : Str} :
    Substitutes s name value ↔ hmGet s.aliasHm name = some value := by
  constructor
  · intro h
    exact h.found
  · intro h
    refine ⟨h, fun args => ?_⟩
    rw [Shell.expandAliasFirstToken, h]

/-- `run_line` gives a command of this name to `try_run_builtin`. -/
def DispatchesBuiltin (name : Str) : Prop :=
  ∀ args, Command.simple (name :: args) = .builtin (name :: args)

theorem dispatchesBuiltin_iff : DispatchesBuiltin name ↔ isBuiltin name = true := by
  constructor
  · intro h
    have h := h []
    rw [Command.simple] at h
    split at h
    · next hb => exact hb
    · cases h
  · intro h args
    exact if_pos h

/-- A line of one segment whose first argument is no alias comes down to that argument. -/
theorem prepare_of_no_alias {line seg : Str} {args : List Str}
    (hsplit : splitPipeline line maxSegs = some [seg]) (hseg : InBounds seg)
    (hargv : (parselineNoSubst seg).argv = name :: args) (hno : hmGet s.aliasHm name = none) :
    ∃ s' out, s.prepare line = .ok (Command.simple (name :: args), s', out) ∧ OnlyRc s s' := by
  have hin : LineInBounds s.aliasHm line := by
    intro segs e seg' hseg'
    obtain rfl := Option.some.inj (hsplit.symm.trans e)
    obtain rfl := List.mem_singleton.1 hseg'
    refine ⟨hseg, ?_⟩
    rw [hargv]
    rintro _ ⟨⟩ value hvalue
    rw [hno] at hvalue
    cases hvalue
  obtain ⟨s', out, e, honly, -⟩ := prepare_ok hin
  refine ⟨s', out, ?_, honly⟩
  rw [e, command, hsplit]
  simp only [hargv, expansion, hno, reduceCtorEq, if_false]

/-! ### Where an executable is found -/

/-- The search that `resolve_exec_path` and `bi_which` both make. -/
def search (w : World) (path : Option Str) (cmd : Str) : Option Str :=
  if isPath cmd then
    if w.access cmd then some cmd else none
  else path.bind fun path => (candidates path cmd).find? w.access

theorem resolveExecPath_eq_search (w : World) (s : Shell) (cmd : Str) :
    (resolveExecPath w s cmd).1 = search w s.path cmd := by
  rw [resolveExecPath, search]
  split
  · split <;> rfl
  · rcases s.path with - | - | ⟨c, path⟩
    · rfl
    · rfl
    · simp only [Option.bind_some]
      rcases (candidates (c :: path) cmd).find? w.access with - | full <;> rfl

/-- The result does not depend on what was run before, as long as `PATH` is the same. -/
theorem resolveExecPath_congr (h : OnlyRc s s') (w : World) (cmd : Str) :
    (resolveExecPath w s' cmd).1 = (resolveExecPath w s cmd).1 := by
  obtain ⟨rc, rfl⟩ := h
  rw [resolveExecPath_eq_search, resolveExecPath_eq_search]

/-! ### The reports -/

/-- What is reported about a name. -/
inductive Found
  | aliased (value : Str)
  | builtin
  | external (full : Str)
  | missing

def Found.text (name : Str) : Found → Str
  | .aliased value => whichAlias name value
  | .builtin => whichBuiltin name
  | .external full => whichExternal name full
  | .missing => whichNotFound name

/-- The text tells the report: the third byte after the name tells its kind. -/
theorem Found.text_injective (name : Str) : Function.Injective (Found.text name) := by
  intro r r' h
  rcases r with v | - | v | - <;> rcases r' with v' | - | v' | - <;>
    simp [Found.text, whichAlias, whichBuiltin, whichExternal, whichNotFound, ascii] at h ⊢ <;>
    exact h

/-- What the way to an execution finds. -/
def found (w : World) (s : Shell) (name : Str) : Found :=
  match hmGet s.aliasHm name with
  | some value => .aliased value
  | none =>
      if isBuiltin name then .builtin
      else
        match (resolveExecPath w s name).1 with
        | some full => .external full
        | none => .missing

theorem found_aliased_iff {value : Str} :
    found w s name = .aliased value ↔ hmGet s.aliasHm name = some value := by
  rw [found]
  rcases hmGet s.aliasHm name with - | v
  · dsimp only
    split
    · simp
    · split <;> simp
  · simp

theorem found_builtin_iff (hno : hmGet s.aliasHm name = none) :
    found w s name = .builtin ↔ isBuiltin name = true := by
  rw [found, hno]
  dsimp only
  split
  · next hb => simp [hb]
  · next hb => split <;> simp [hb]

theorem found_external_iff (hno : hmGet s.aliasHm name = none) (hb : ¬ isBuiltin name = true)
    {full : Str} : found w s name = .external full ↔ (resolveExecPath w s name).1 = some full := by
  rw [found, hno]
  dsimp only
  rw [if_neg hb]
  split
  · next h => simp [h]
  · next h => simp [h]

theorem found_missing_iff (hno : hmGet s.aliasHm name = none) (hb : ¬ isBuiltin name = true) :
    found w s name = .missing ↔ (resolveExecPath w s name).1 = none := by
  rw [found, hno]
  dsimp only
  rw [if_neg hb]
  split
  · next h => simp [h]
  · next h => simp [h]

/-- `bi_which` reports what is found. -/
theorem biWhich_out (w : World) (s : Shell) (cmd name : Str) :
    (biWhich w s [cmd, name]).2.2 = [.stdout ((found w s name).text name)] := by
  rw [biWhich, found, resolveExecPath_eq_search]
  rcases hmGet s.aliasHm name with - | value
  · dsimp only
    by_cases hb : isBuiltin name = true
    · rw [if_pos hb, if_pos hb]
      rfl
    · rw [if_neg hb, if_neg hb, search]
      split
      · split <;> rfl
      · rcases s.path with - | - | ⟨c, path⟩
        · rfl
        · rfl
        · simp only [Option.bind_some]
          rcases (candidates (c :: path) name).find? w.access with - | full <;> rfl
  · rfl

/-- A report is printed exactly when it is the one of `found`. -/
theorem biWhich_out_iff (w : World) (s : Shell) (cmd name : Str) (r : Found) :
    (biWhich w s [cmd, name]).2.2 = [.stdout (r.text name)] ↔ found w s name = r := by
  rw [biWhich_out, List.singleton_inj, Output.stdout.injEq,
    (Found.text_injective name).eq_iff]

/-- `which name` tells what would run: an alias is reported, with its value, exactly when
`expand_alias_first_token` substitutes it; else a built-in exactly when `run_line` dispatches the
name to `try_run_builtin`; else a place exactly when `resolve_exec_path` returns it, and none
exactly when it returns `NULL`.  A line that names a command which is no alias comes to that
dispatch, and to a search with the same result. -/
theorem which_tells (w : World) (s : Shell) (cmd name : Str) :
    (∀ value, (biWhich w s [cmd, name]).2.2 = [.stdout (whichAlias name value)] ↔
      Substitutes s name value) ∧
    ((∀ value, ¬ Substitutes s name value) →
      ((biWhich w s [cmd, name]).2.2 = [.stdout (whichBuiltin name)] ↔
        DispatchesBuiltin name) ∧
      (¬ DispatchesBuiltin name →
        (∀ full, (biWhich w s [cmd, name]).2.2 = [.stdout (whichExternal name full)] ↔
          (resolveExecPath w s name).1 = some full) ∧
        ((biWhich w s [cmd, name]).2.2 = [.stdout (whichNotFound name)] ↔
          (resolveExecPath w s name).1 = none)) ∧
      ∀ line seg args, splitPipeline line maxSegs = some [seg] → InBounds seg →
        (parselineNoSubst seg).argv = name :: args →
        ∃ s' out, s.prepare line = .ok (Command.simple (name :: args), s', out) ∧
          (resolveExecPath w s' name).1 = (resolveExecPath w s name).1) := by
  have hout := biWhich_out_iff w s cmd name
  simp only [substitutes_iff, dispatchesBuiltin_iff]
  refine ⟨fun value => (hout (.aliased value)).trans found_aliased_iff, fun hno => ?_⟩
  have hno : hmGet s.aliasHm name = none := Option.eq_none_iff_forall_ne_some.2 hno
  refine ⟨(hout .builtin).trans (found_builtin_iff hno), fun hb => ⟨fun full => ?_, ?_⟩, ?_⟩
  · exact (hout (.external full)).trans (found_external_iff hno hb)
  · exact (hout .missing).trans (found_missing_iff hno hb)
  · intro line seg args hsplit hseg hargv
    obtain ⟨s', out, e, honly⟩ := prepare_of_no_alias hsplit hseg hargv hno
    exact ⟨s', out, e, resolveExecPath_congr honly w name⟩

end SystemsPortfolio.Wsh
