/-
SystemsPortfolio/Wsh/Dispatch.lean

`run_line` in two halves: what a line comes down to, and the running of it.

The first half splits, tokenizes and expands aliases; it may warn and set `rc` and does
nothing else.  What it finds is a function of the alias table and the line (`command`),
unless some array of arguments is too short.  The second half runs the command, and the
line goes into the history at the end of every way (`runLine_eq`).
-/
import SystemsPortfolio.Wsh.RunLine
import SystemsPortfolio.Wsh.AliasMap
import SystemsPortfolio.Lib.Transition

namespace SystemsPortfolio.Wsh

variable {w : World} {s s' : Shell} {line cmdline : Str}

/-! ### What the first half keeps -/

/-- The alias table and the history are as they were. -/
structure Kept (s s' : Shell) : Prop where
  aliasHm : s'.aliasHm = s.aliasHm
  historyDa : s'.historyDa = s.historyDa

/-- Only `rc` may differ. -/
def OnlyRc (s s' : Shell) : Prop :=
  ∃ rc, s' = { s with rc := rc }

theorem OnlyRc.refl (s : Shell) : OnlyRc s s :=
  ⟨s.rc, rfl⟩

theorem OnlyRc.warn (s : Shell) (msg : Msg) : OnlyRc s (s.warn msg).1 :=
  ⟨_, rfl⟩

theorem OnlyRc.trans {s s' s'' : Shell} (h : OnlyRc s s') (h' : OnlyRc s' s'') : OnlyRc s s'' := by
  obtain ⟨rc, rfl⟩ := h
  obtain ⟨rc', rfl⟩ := h'
  exact ⟨rc', rfl⟩

theorem OnlyRc.kept (h : OnlyRc s s') : Kept s s' := by
  obtain ⟨rc, rfl⟩ := h
  exact ⟨rfl, rfl⟩

theorem OnlyRc.aliasHm (h : OnlyRc s s') : s'.aliasHm = s.aliasHm :=
  h.kept.aliasHm

/-- Nothing but a missing quote has been reported. -/
def Warned (out : List Output) : Prop :=
  ∀ o ∈ out, o = .stderr .missingClosingQuote

theorem Warned.append {out out' : List Output} (h : Warned out) (h' : Warned out') :
    Warned (out ++ out') := by
  intro o ho
  exact (List.mem_append.1 ho).elim (h o) (h' o)

/-! ### Arguments -/

/-- The arguments after alias expansion. -/
def expansion (hm : HashMap) : List Str → List Str
  | [] => []
  | name :: args =>
      match hmGet hm name with
      | none => name :: args
      | some aliasCmd => (parselineNoSubst aliasCmd).argv ++ args

/-- At most `MAX_ARGS` arguments. -/
def Fits (cmdline : Str) : Prop :=
  (parselineNoSubst cmdline).stored.length ≤ maxArgs

instance (cmdline : Str) : Decidable (Fits cmdline) :=
  Nat.decLe _ _

/-- No index beyond the array of the caller is written. -/
def InBounds (cmdline : Str) : Prop :=
  (parselineNoSubst cmdline).top ≤ maxArgs

instance (cmdline : Str) : Decidable (InBounds cmdline) :=
  Nat.decLe _ _

theorem Fits.inBounds (h : Fits cmdline) : InBounds cmdline := by
  rw [Fits] at h
  rw [InBounds, Parsed.top]
  split <;> omega

theorem parseline_ok (h : InBounds cmdline) (s : Shell) :
    ∃ s' out, s.parseline cmdline = .ok ((parselineNoSubst cmdline).argv, s', out)
      ∧ OnlyRc s s' ∧ Warned out := by
  rw [Shell.parseline, if_neg (Nat.not_lt.2 h)]
  split
  · exact ⟨s, [], rfl, .refl s, by simp [Warned]⟩
  · exact ⟨_, _, rfl, .warn s .missingClosingQuote, by simp [Warned]⟩

theorem parseline_undefined (h : ¬ InBounds cmdline) (s : Shell) :
    s.parseline cmdline = .undefined := by
  rw [Shell.parseline, if_pos (Nat.not_le.1 h)]

/-- Tokenizing the value of the alias that the arguments begin with stays in bounds. -/
def AliasInBounds (hm : HashMap) (argv : List Str) : Prop :=
  ∀ name ∈ argv.head?, ∀ aliasCmd ∈ hmGet hm name, InBounds aliasCmd

theorem expandAliasFirstToken_ok {argv : List Str} (hargv : argv ≠ [])
    (h : AliasInBounds s.aliasHm argv) :
    ∃ s' out, s.expandAliasFirstToken argv = .ok (expansion s.aliasHm argv, s', out)
      ∧ OnlyRc s s' ∧ Warned out := by
  rcases argv with - | ⟨name, args⟩
  · exact absurd rfl hargv
  · rw [Shell.expandAliasFirstToken, expansion]
    rcases e : hmGet s.aliasHm name with - | aliasCmd
    · exact ⟨s, [], rfl, .refl s, by simp [Warned]⟩
    · obtain ⟨s', out, hp, honly, hwarned⟩ := parseline_ok (h name rfl aliasCmd e) s
      refine ⟨s', out, ?_, honly, hwarned⟩
      dsimp only
      rw [hp]
      rfl

theorem expandAliasFirstToken_undefined {argv : List Str} (h : ¬ AliasInBounds s.aliasHm argv) :
    s.expandAliasFirstToken argv = .undefined := by
  simp only [AliasInBounds, not_forall] at h
  obtain ⟨name, hname, aliasCmd, hget, hout⟩ := h
  rcases argv with - | ⟨name', args⟩
  · cases hname
  · obtain rfl := Option.some.inj hname
    rw [Shell.expandAliasFirstToken, show hmGet s.aliasHm name' = some aliasCmd from hget]
    dsimp only
    rw [parseline_undefined hout]
    rfl

/-- Neither a segment nor the alias it begins with has too many arguments. -/
def SegmentInBounds (hm : HashMap) (seg : Str) : Prop :=
  InBounds seg ∧ AliasInBounds hm (parselineNoSubst seg).argv

/-- The segments of a pipeline are parsed to the end, and each gives its expansion. -/
theorem parseSegments_ok {segs : List Str} (h : ∀ seg ∈ segs, SegmentInBounds s.aliasHm seg) :
    ∃ s' out, parseSegments s segs =
        .ok (segs.all fun seg => !(parselineNoSubst seg).argv.isEmpty,
          segs.map fun seg => expansion s.aliasHm (parselineNoSubst seg).argv, s', out)
      ∧ OnlyRc s s' := by
  induction segs generalizing s with
  | nil => exact ⟨s, [], rfl, .refl s⟩
  | cons seg segs ih =>
      obtain ⟨s₁, out₁, h₁, honly₁, -⟩ := parseline_ok (h seg (by simp)).1 s
      -- the alias table is the same for the later segments
      have hnext {s₂ : Shell} (hk : OnlyRc s s₂) := ih (s := s₂) fun seg' hs => by
        rw [hk.aliasHm]
        exact h seg' (by simp [hs])
      rw [parseSegments, h₁]
      by_cases he : (parselineNoSubst seg).argv = []
      · have honly₂ : OnlyRc s (s₁.warn .emptyPipeSegment).1 := honly₁.trans (.warn ..)
        obtain ⟨s₃, out₃, h₃, honly₃⟩ := hnext honly₂
        refine ⟨s₃, out₁ ++ [.stderr .emptyPipeSegment] ++ out₃, ?_, honly₂.trans honly₃⟩
        simp only [bind, Flow.bind, he, if_true, h₃]
        rw [honly₂.aliasHm]
        simp [expansion, he, pure, Shell.warn]
      · obtain ⟨s₂, out₂, h₂, honly₂, -⟩ := expandAliasFirstToken_ok (s := s₁) he (by
          rw [honly₁.aliasHm]
          exact (h seg (by simp)).2)
        obtain ⟨s₃, out₃, h₃, honly₃⟩ := hnext (honly₁.trans honly₂)
        refine ⟨s₃, out₁ ++ out₂ ++ out₃, ?_, (honly₁.trans honly₂).trans honly₃⟩
        simp only [bind, Flow.bind, if_neg he, h₂, h₃]
        rw [honly₂.aliasHm, honly₁.aliasHm]
        simp [he, pure]

theorem parseSegments_undefined {segs : List Str} {seg : Str} (hseg : seg ∈ segs)
    (h : ¬ SegmentInBounds s.aliasHm seg) : parseSegments s segs = .undefined := by
  induction segs generalizing s with
  | nil => cases hseg
  | cons a segs ih =>
      rw [parseSegments]
      by_cases ha : InBounds a
      · obtain ⟨s₁, out₁, h₁, honly₁, -⟩ := parseline_ok ha s
        rw [h₁]
        by_cases he : (parselineNoSubst a).argv = []
        · -- such a segment is in bounds, so it is a later one
          have hne : seg ≠ a := by
            rintro rfl
            exact h ⟨ha, by simp [AliasInBounds, he]⟩
          have honly₂ : OnlyRc s (s₁.warn .emptyPipeSegment).1 := honly₁.trans (.warn ..)
          have hrest := ih (s := (s₁.warn .emptyPipeSegment).1)
            ((List.mem_cons.1 hseg).resolve_left hne) (by rwa [honly₂.aliasHm])
          simp only [bind, Flow.bind, he, if_true, hrest]
        · by_cases hal : AliasInBounds s₁.aliasHm (parselineNoSubst a).argv
          · have hne : seg ≠ a := by
              rintro rfl
              rw [honly₁.aliasHm] at hal
              exact h ⟨ha, hal⟩
            obtain ⟨s₂, out₂, h₂, honly₂, -⟩ := expandAliasFirstToken_ok he hal
            have hrest := ih (s := s₂) ((List.mem_cons.1 hseg).resolve_left hne)
              (by rwa [honly₂.aliasHm, honly₁.aliasHm])
            simp only [bind, Flow.bind, if_neg he, h₂, hrest]
          · simp only [bind, Flow.bind, if_neg he, expandAliasFirstToken_undefined hal]
      · rw [parseline_undefined ha]
        rfl

/-! ### The two halves -/

/-- What a line comes down to: nothing to run, a built-in, an external command, or the stages
of a pipeline. -/
inductive Command
  | none
  | builtin (argv : List Str)
  | external (argv : List Str)
  | pipeline (segarv : List (List Str))
  deriving DecidableEq

/-- A simple command after alias expansion. -/
def Command.simple (argv : List Str) : Command :=
  if argv.head?.any isBuiltin then .builtin argv else .external argv

/-- `run_line` up to the place where a command is run. -/
def Shell.prepare (s : Shell) (line : Str) : Flow (Command × Shell × List Output) :=
  match splitPipeline line maxSegs with
  | none => .ok (.none, { s with rc := exitFailure }, [])
  | some [segment] => do
      let (argv0, s, out₁) ← s.parseline segment
      if argv0 = [] then return (.none, s, out₁)
      else
        let (argv, s, out₂) ← s.expandAliasFirstToken argv0
        return (.simple argv, s, out₁ ++ out₂)
  | some segments => do
      let (good, segarv, s, out₁) ← parseSegments s segments
      if !good then return (.none, { s with rc := exitFailure }, out₁)
      else return (.pipeline segarv, s, out₁)

def Command.run (w : World) (s : Shell) : Command → Flow (Shell × List Output)
  | .none => .ok (s, [])
  | .builtin argv => do
      let (_, s, out) ← tryRunBuiltin w s argv
      return (s, out)
  | .external argv => runExternal w s argv
  | .pipeline segarv => .ok (runPipeline w s segarv)

/-- Every way through `run_line` prepares a command, runs it and records the line. -/
theorem runLine_eq (w : World) (s : Shell) (line : Str) :
    runLine w s line = do
      let (c, s, out) ← s.prepare line
      let (s, out') ← c.run w s
      return (s.addHistoryAfterExec line, out ++ out') := by
  rcases hsplit : splitPipeline line maxSegs with - | - | ⟨seg, - | ⟨seg', segs⟩⟩ <;>
    rw [runLine, Shell.prepare, hsplit] <;> dsimp only
  · rfl
  · rcases parseSegments s [] with ⟨- | -, segarv, s₁, out₁⟩ | code | -
    · simp [bind, Flow.bind, pure, Command.run]
    · rfl
    · rfl
    · rfl
  · rcases s.parseline seg with ⟨argv0, s₁, out₁⟩ | code | -
    · by_cases h0 : argv0 = []
      · simp [bind, Flow.bind, pure, Command.run, h0]
      · simp only [bind, Flow.bind, if_neg h0]
        rcases s₁.expandAliasFirstToken argv0 with ⟨argv, s₂, out₂⟩ | code | -
        · simp only [pure, Command.simple]
          by_cases hb : argv.head?.any isBuiltin = true
          · simp only [hb, if_true, Command.run, bind, Flow.bind]
            rcases tryRunBuiltin w s₂ argv with ⟨b, s₃, out₃⟩ | code | - <;> rfl
          · simp only [if_neg hb, Command.run]
        · rfl
        · rfl
    · rfl
    · rfl
  · rcases parseSegments s (seg :: seg' :: segs) with ⟨- | -, segarv, s₁, out₁⟩ | code | -
    · simp [bind, Flow.bind, pure, Command.run]
    · rfl
    · rfl
    · rfl

/-! ### The command of a line -/

/-- What a line comes down to, with the aliases of `hm`. -/
def command (hm : HashMap) (line : Str) : Command :=
  match splitPipeline line maxSegs with
  | none => .none
  | some [seg] =>
      if (parselineNoSubst seg).argv = [] then .none
      else .simple (expansion hm (parselineNoSubst seg).argv)
  | some segs =>
      if segs.all fun seg => !(parselineNoSubst seg).argv.isEmpty then
        .pipeline (segs.map fun seg => expansion hm (parselineNoSubst seg).argv)
      else .none

/-- No array of arguments is too short for the line. -/
def LineInBounds (hm : HashMap) (line : Str) : Prop :=
  ∀ segs, splitPipeline line maxSegs = some segs → ∀ seg ∈ segs, SegmentInBounds hm seg

/-- The first half finds the command, and only `rc` may change. -/
theorem prepare_ok (h : LineInBounds s.aliasHm line) :
    ∃ s' out, s.prepare line = .ok (command s.aliasHm line, s', out) ∧ OnlyRc s s'
      ∧ ∀ seg, splitPipeline line maxSegs = some [seg] → Warned out := by
  -- more than one segment, or none at all
  have hmany {segs : List Str} (hsegs : ∀ seg ∈ segs, SegmentInBounds s.aliasHm seg) :
      ∃ s' out, (do
          let (good, segarv, s, out₁) ← parseSegments s segs
          if !good then return (Command.none, { s with rc := exitFailure }, out₁)
          else return (Command.pipeline segarv, s, out₁))
        = Flow.ok (if segs.all fun seg => !(parselineNoSubst seg).argv.isEmpty then
            .pipeline (segs.map fun seg => expansion s.aliasHm (parselineNoSubst seg).argv)
          else .none, s', out) ∧ OnlyRc s s' := by
    obtain ⟨s₁, out₁, h₁, honly⟩ := parseSegments_ok hsegs
    simp only [bind, Flow.bind, h₁]
    rcases segs.all fun seg => !(parselineNoSubst seg).argv.isEmpty
    · exact ⟨_, _, rfl, honly.trans ⟨_, rfl⟩⟩
    · exact ⟨_, _, rfl, honly⟩
  rw [LineInBounds] at h
  rcases hsplit : splitPipeline line maxSegs with - | - | ⟨seg, - | ⟨seg', segs⟩⟩ <;>
    rw [Shell.prepare, command, hsplit] <;> dsimp only
  · exact ⟨_, _, rfl, ⟨_, rfl⟩, by simp⟩
  · obtain ⟨s', out, e, honly⟩ := hmany (h [] hsplit)
    exact ⟨s', out, e, honly, by simp⟩
  · obtain ⟨hseg, halias⟩ := h [seg] hsplit seg (by simp)
    obtain ⟨s₁, out₁, h₁, honly₁, hwarned₁⟩ := parseline_ok hseg s
    simp only [bind, Flow.bind, h₁]
    by_cases hargv : (parselineNoSubst seg).argv = []
    · rw [if_pos hargv, if_pos hargv]
      exact ⟨s₁, out₁, rfl, honly₁, fun _ _ => hwarned₁⟩
    · obtain ⟨s₂, out₂, h₂, honly₂, hwarned₂⟩ := expandAliasFirstToken_ok (s := s₁) hargv (by
        rwa [honly₁.aliasHm])
      rw [if_neg hargv, if_neg hargv, h₂, honly₁.aliasHm]
      exact ⟨s₂, _, rfl, honly₁.trans honly₂, fun _ _ => hwarned₁.append hwarned₂⟩
  · obtain ⟨s', out, e, honly⟩ := hmany (h _ hsplit)
    exact ⟨s', out, e, honly, by simp⟩

theorem prepare_undefined (h : ¬ LineInBounds s.aliasHm line) : s.prepare line = .undefined := by
  simp only [LineInBounds, not_forall] at h
  obtain ⟨segs, hsplit, seg, hseg, hout⟩ := h
  have hmany := parseSegments_undefined hseg hout
  rcases segs with - | ⟨a, - | ⟨b, segs⟩⟩ <;> rw [Shell.prepare, hsplit] <;> dsimp only
  · cases hseg
  · obtain rfl := List.mem_singleton.1 hseg
    by_cases hin : InBounds seg
    · obtain ⟨s₁, out₁, h₁, honly₁, -⟩ := parseline_ok hin s
      have halias : ¬ AliasInBounds s₁.aliasHm (parselineNoSubst seg).argv := by
        rw [honly₁.aliasHm]
        exact fun halias => hout ⟨hin, halias⟩
      have hargv : (parselineNoSubst seg).argv ≠ [] := by
        intro e
        exact halias (by simp [AliasInBounds, e])
      simp only [bind, Flow.bind, h₁, if_neg hargv, expandAliasFirstToken_undefined halias]
    · rw [parseline_undefined hin]
      rfl
  · rw [hmany]
    rfl

/-- A line that returns has run its command. -/
theorem runLine_inv {out : List Output} (h : runLine w s line = .ok (s', out)) :
    LineInBounds s.aliasHm line ∧ ∃ s₁ s₂ out₂, OnlyRc s s₁
      ∧ (command s.aliasHm line).run w s₁ = .ok (s₂, out₂)
      ∧ s' = s₂.addHistoryAfterExec line := by
  rw [runLine_eq] at h
  by_cases hin : LineInBounds s.aliasHm line
  · obtain ⟨s₁, out₁, hprep, honly, -⟩ := prepare_ok hin
    simp only [hprep, bind, Flow.bind] at h
    refine ⟨hin, s₁, ?_⟩
    rcases hrun : (command s.aliasHm line).run w s₁ with ⟨s₂, out₂⟩ | code | - <;> rw [hrun] at h
    · obtain ⟨rfl, -⟩ := Prod.mk.inj (Flow.ok.inj h)
      exact ⟨s₂, out₂, honly, rfl, rfl⟩
    · cases h
    · cases h
  · rw [prepare_undefined hin] at h
    cases h

/-! ### What a command may change -/

theorem biCd_onlyRc (w : World) (s : Shell) (argv : List Str) : OnlyRc s (biCd w s argv).2.1 := by
  have hcd (dir : Str) : OnlyRc s (cdTo w s dir).2.1 := by
    rw [cdTo]
    split <;> exact .refl s
  unfold biCd
  split
  · split
    · exact .refl s
    · exact .refl s
    · exact hcd _
  · exact hcd _
  · exact .warn s _

theorem biWhich_onlyRc (w : World) (s : Shell) (argv : List Str) :
    OnlyRc s (biWhich w s argv).2.1 := by
  unfold biWhich
  split
  · repeat' first | exact .refl s | split
  · exact .warn s _

theorem biHistory_onlyRc (s : Shell) (argv : List Str) : OnlyRc s (biHistory s argv).2.1 := by
  unfold biHistory
  split
  · exact .refl s
  · split
    · exact .refl s
    · dsimp only
      split <;> exact .refl s
    · exact .warn s _

theorem biPath_kept (s : Shell) (argv : List Str) : Kept s (biPath s argv).2.1 := by
  unfold biPath
  split <;> exact ⟨rfl, rfl⟩

/-- The history is as it was, and the alias table too or changed by one call, which stores
nothing but an empty string or one of the arguments. -/
structure AliasEffect (argv : List Str) (s s' : Shell) : Prop where
  historyDa : s'.historyDa = s.historyDa
  aliasHm : s'.aliasHm = s.aliasHm
    ∨ ∃ op : MapOp, (∀ v ∈ op.stored, v = [] ∨ v ∈ argv) ∧ s'.aliasHm = op.exec s.aliasHm

theorem Kept.aliasEffect (h : Kept s s') (argv : List Str) : AliasEffect argv s s' :=
  ⟨h.historyDa, .inl h.aliasHm⟩

theorem biAlias_effect (s : Shell) (argv : List Str) :
    AliasEffect argv s (biAlias s argv).2.1 := by
  have hmisuse : AliasEffect argv s (s.misuse .invalidAliasUse).2.1 :=
    (OnlyRc.warn s _).kept.aliasEffect argv
  unfold biAlias
  split
  · exact (OnlyRc.refl s).kept.aliasEffect _
  · split
    · split
      · exact ⟨rfl, .inr ⟨.put _ [], by simp [MapOp.stored], rfl⟩⟩
      · exact ⟨rfl, .inr ⟨.put _ _, by simp [MapOp.stored], rfl⟩⟩
      · exact hmisuse
    · exact hmisuse
  · exact hmisuse

theorem biUnalias_effect (s : Shell) (argv : List Str) :
    AliasEffect argv s (biUnalias s argv).2.1 := by
  unfold biUnalias
  split
  · exact ⟨rfl, .inr ⟨.delete _, by simp [MapOp.stored], rfl⟩⟩
  · exact (OnlyRc.warn s _).kept.aliasEffect _

/-- A built-in other than `exit` returns. -/
theorem tryRunBuiltin_ok (w : World) (s : Shell) {argv : List Str} (h : argv ≠ [ascii "exit"]) :
    ∃ b s' out, tryRunBuiltin w s argv = .ok (b, s', out) ∧ AliasEffect argv s s' := by
  -- `rc` is set last
  have hset {r : Int × Shell × List Output} (hr : AliasEffect argv s r.2.1) :
      AliasEffect argv s (setRc r).1 := ⟨hr.historyDa, hr.aliasHm⟩
  rcases argv with - | ⟨name, args⟩
  · exact ⟨true, s, [], rfl, (OnlyRc.refl s).kept.aliasEffect _⟩
  · rw [tryRunBuiltin]
    split_ifs with hexit hargs
    · exact ⟨_, _, _, rfl, (OnlyRc.warn s .invalidExitUse).kept.aliasEffect _⟩
    · rw [hexit, not_not.1 hargs] at h
      exact absurd rfl h
    · exact ⟨_, _, _, rfl, hset (biAlias_effect ..)⟩
    · exact ⟨_, _, _, rfl, hset (biUnalias_effect ..)⟩
    · exact ⟨_, _, _, rfl, hset ((biWhich_onlyRc ..).kept.aliasEffect _)⟩
    · exact ⟨_, _, _, rfl, hset ((biPath_kept ..).aliasEffect _)⟩
    · exact ⟨_, _, _, rfl, hset ((biCd_onlyRc ..).kept.aliasEffect _)⟩
    · exact ⟨_, _, _, rfl, hset ((biHistory_onlyRc ..).kept.aliasEffect _)⟩
    · exact ⟨_, _, _, rfl, (OnlyRc.refl s).kept.aliasEffect _⟩

theorem resolveExecPath_onlyRc (w : World) (s : Shell) (cmd : Str) :
    OnlyRc s (resolveExecPath w s cmd).2.1 := by
  rw [resolveExecPath]
  split
  · split
    · exact .refl s
    · exact .warn s _
  · split
    · exact .warn s _
    · exact .warn s _
    · split
      · exact .refl s
      · exact .warn s _

/-- An external command returns, whatever becomes of its child. -/
theorem runExternal_ok (w : World) (s : Shell) {argv : List Str} (h : argv ≠ []) :
    ∃ s' out, runExternal w s argv = .ok (s', out) ∧ OnlyRc s s' := by
  rcases argv with - | ⟨cmd, args⟩
  · exact absurd rfl h
  · have honly := resolveExecPath_onlyRc w s cmd
    rw [runExternal]
    rcases e : resolveExecPath w s cmd with ⟨- | full, s', out⟩ <;> rw [e] at honly
    · exact ⟨s', out, rfl, honly⟩
    · dsimp only
      split
      · exact ⟨_, _, rfl, honly.trans ⟨_, rfl⟩⟩
      · exact ⟨_, _, rfl, honly.trans ⟨_, rfl⟩⟩
      · exact ⟨_, _, rfl, honly.trans ⟨_, rfl⟩⟩

theorem runPipeline_onlyRc (w : World) (s : Shell) (segarv : List (List Str)) :
    OnlyRc s (runPipeline w s segarv).1 := by
  rw [runPipeline]
  split <;> exact ⟨_, rfl⟩

/-- The arguments of a built-in. -/
def Command.builtinArgs : Command → List Str
  | .builtin argv => argv
  | _ => []

/-- A command returns unless it is `exit` or has no name; only a built-in changes more than
`rc`. -/
theorem Command.run_ok (w : World) (s : Shell) {c : Command} (hexit : c ≠ .builtin [ascii "exit"])
    (hnamed : c ≠ .external []) :
    ∃ s' out, c.run w s = .ok (s', out) ∧ AliasEffect c.builtinArgs s s' := by
  cases c with
  | none => exact ⟨s, [], rfl, (OnlyRc.refl s).kept.aliasEffect _⟩
  | builtin argv =>
      have hargv : argv ≠ [ascii "exit"] := by
        rintro rfl
        exact hexit rfl
      obtain ⟨b, s', out, h, heffect⟩ := tryRunBuiltin_ok w s hargv
      refine ⟨s', out, ?_, heffect⟩
      rw [Command.run, h]
      rfl
  | external argv =>
      have hargv : argv ≠ [] := by
        rintro rfl
        exact hnamed rfl
      obtain ⟨s', out, h, honly⟩ := runExternal_ok w s hargv
      exact ⟨s', out, h, honly.kept.aliasEffect _⟩
  | pipeline segarv => exact ⟨_, _, rfl, (runPipeline_onlyRc w s segarv).kept.aliasEffect _⟩

/-- A command that returns is none of the two that do not. -/
theorem Command.run_effect {c : Command} {out : List Output} (h : c.run w s = .ok (s', out)) :
    AliasEffect c.builtinArgs s s' := by
  have hexit : c ≠ .builtin [ascii "exit"] := by
    rintro rfl
    cases h
  have hnamed : c ≠ .external [] := by
    rintro rfl
    cases h
  obtain ⟨s₁, out₁, e, heffect⟩ := Command.run_ok w s hexit hnamed
  obtain ⟨rfl, -⟩ := Prod.mk.inj (Flow.ok.inj (e.symm.trans h))
  exact heffect

/-! ### Sessions of any lines -/

/-- The shell fed with lines, as long as it goes on. -/
def shellSystem : Transition.System Shell where
  init s := s = startShell
  step s s' := ∃ w line out, runLine w s line = .ok (s', out)

/-- Nothing is found, and there is no home directory. -/
def bareWorld : World :=
  { access := fun _ => false
    chdir := fun _ => false
    home := none
    pipe := fun _ => true
    child := fun _ => .ended true }

end SystemsPortfolio.Wsh
