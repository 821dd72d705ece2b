/-
SystemsPortfolio/Wsh/History.lean

The history of the shell.

`run_line` returns from six places (two more are for allocations that fail), and each of
them first appends the line.  Nothing before that touches the history, so after any lines
it is the list of them, and the built-in `history` sees it without the line that calls it.
Lines that the code does not cope with are left out by `Allowed`: too many arguments, an
alias expansion that leaves nothing, and `exit`, after which there is no history.
-/
import SystemsPortfolio.Wsh.Dispatch

namespace SystemsPortfolio.Wsh

variable {w : World} {s s' : Shell} {line : Str}

/-! ### The history as a list -/

/-- The entries of the history array. -/
def Shell.history (s : Shell) : List (Option Str) :=
  match s.historyDa with
  | none => []
  | some da => da.toList

theorem addHistoryAfterExec_history (s : Shell) (line : Str) :
    (s.addHistoryAfterExec line).history = s.history ++ [some (trimNewline line)] := by
  rw [Shell.addHistoryAfterExec, Shell.history, Shell.history]
  rcases s.historyDa with - | da
  · exact daPut_toList ..
  · exact daPut_toList ..

/-! ### What a line may be -/

/-- The line is none of those that the code does not cope with, and no `exit`. -/
structure Allowed (s : Shell) (line : Str) : Prop where
  fits : ∀ segs, splitPipeline line maxSegs = some segs → ∀ seg ∈ segs, Fits seg
  aliases : ∀ segs, splitPipeline line maxSegs = some segs → ∀ seg ∈ segs,
    ∀ name ∈ (parselineNoSubst seg).argv.head?, ∀ aliasCmd ∈ hmGet s.aliasHm name, Fits aliasCmd
  named : ∀ segs, splitPipeline line maxSegs = some segs → ∀ seg ∈ segs,
    (parselineNoSubst seg).argv ≠ [] → expansion s.aliasHm (parselineNoSubst seg).argv ≠ []
  stays : ∀ seg, splitPipeline line maxSegs = some [seg] →
    expansion s.aliasHm (parselineNoSubst seg).argv ≠ [ascii "exit"]

/-! ### One line -/

theorem Allowed.inBounds (h : Allowed s line) : LineInBounds s.aliasHm line := by
  intro segs hsplit seg hseg
  refine ⟨(h.fits segs hsplit seg hseg).inBounds, ?_⟩
  intro name hname aliasCmd hget
  exact (h.aliases segs hsplit seg hseg name hname aliasCmd hget).inBounds

/-- A simple command is that of the one segment. -/
theorem command_simple {hm : HashMap} {argv : List Str} {c : Command}
    (hc : c = .builtin argv ∨ c = .external argv) (h : command hm line = c) :
    ∃ seg, splitPipeline line maxSegs = some [seg] ∧ (parselineNoSubst seg).argv ≠ []
      ∧ expansion hm (parselineNoSubst seg).argv = argv := by
  have hpipe {b : Bool} {segarv : List (List Str)} :
      (if b then Command.pipeline segarv else .none) ≠ c := by
    rcases hc with rfl | rfl <;> cases b <;> simp
  rw [command] at h
  rcases hsplit : splitPipeline line maxSegs with - | - | ⟨seg, - | ⟨seg', segs⟩⟩ <;>
    rw [hsplit] at h <;> dsimp only at h
  · rcases hc with rfl | rfl <;> cases h
  · exact absurd h hpipe
  · refine ⟨seg, rfl, ?_⟩
    split at h
    · rcases hc with rfl | rfl <;> cases h
    · next hargv =>
        refine ⟨hargv, ?_⟩
        rw [Command.simple] at h
        rcases hc with rfl | rfl <;> split at h <;> cases h <;> rfl
  · exact absurd h hpipe

/-- An allowed line leaves the shell running. -/
theorem Allowed.command_ne (h : Allowed s line) :
    command s.aliasHm line ≠ .builtin [ascii "exit"] ∧ command s.aliasHm line ≠ .external [] := by
  constructor
  · intro e
    obtain ⟨seg, hsplit, -, hexp⟩ := command_simple (.inl rfl) e
    exact h.stays seg hsplit hexp
  · intro e
    obtain ⟨seg, hsplit, hargv, hexp⟩ := command_simple (.inr rfl) e
    exact h.named _ hsplit seg (by simp) hargv hexp

/-- Every way through `run_line` returns and appends the line. -/
theorem runLine_ok (w : World) (h : Allowed s line) :
    ∃ s' out, runLine w s line = .ok (s', out)
      ∧ s'.history = s.history ++ [some (trimNewline line)] := by
  obtain ⟨s₁, out₁, hprep, honly, -⟩ := prepare_ok h.inBounds
  obtain ⟨hexit, hnamed⟩ := h.command_ne
  obtain ⟨s₂, out₂, hrun, heffect⟩ := Command.run_ok w s₁ hexit hnamed
  refine ⟨s₂.addHistoryAfterExec line, out₁ ++ out₂, ?_, ?_⟩
  · rw [runLine_eq, hprep]
    simp only [bind, Flow.bind, hrun]
    rfl
  · rw [addHistoryAfterExec_history, Shell.history, heffect.historyDa, honly.kept.historyDa]
    rfl

/-! ### Sessions -/

/-- The lines given to the shell so far, and the shell after them. -/
inductive Session : List Str → Shell → Prop
  | start : Session [] startShell
  | line {lines : List Str} {s s' : Shell} {w : World} {l : Str} {out : List Output}
      (h : Session lines s) (hl : Allowed s l) (hr : runLine w s l = .ok (s', out)) :
      Session (lines ++ [l]) s'

/-- After any lines the history is the list of them. -/
theorem Session.history_eq {lines : List Str} (h : Session lines s) :
    s.history = lines.map fun l => some (trimNewline l) := by
  induction h with
  | start => rfl
  | @line lines s s' w l out h hl hr ih =>
      obtain ⟨s₁, out₁, e, hhist⟩ := runLine_ok w hl
      obtain ⟨rfl, -⟩ := Prod.mk.inj (Flow.ok.inj (e.symm.trans hr))
      rw [hhist, ih, List.map_append]
      rfl

/-- After at least one line there is an array. -/
theorem Session.historyDa_eq {lines : List Str} (h : Session lines s) (hlines : lines ≠ []) :
    ∃ da, s.historyDa = some da ∧ da.toList = lines.map fun l => some (trimNewline l) := by
  have heq := h.history_eq
  rw [Shell.history] at heq
  rcases e : s.historyDa with - | da
  · rw [e] at heq
    exact absurd (List.map_eq_nil_iff.1 heq.symm) hlines
  · rw [e] at heq
    exact ⟨da, rfl, heq⟩

/-- What goes to stdout. -/
def printed (out : List Output) : Str :=
  out.flatMap fun o =>
    match o with
    | .stdout text => text
    | _ => []

theorem printed_append (out out' : List Output) :
    printed (out ++ out') = printed out ++ printed out' :=
  List.flatMap_append

theorem Warned.printed {out : List Output} (h : Warned out) : printed out = [] := by
  refine List.flatMap_eq_nil_iff.2 fun o ho => ?_
  rw [h o ho]

/-- The argument of `history` that names the entry `n` of `k`. -/
def Names (arg : Str) (k n : Nat) : Prop :=
  arg ≠ [] ∧ strtol arg = ((n : Int), []) ∧ 1 ≤ n ∧ n ≤ k

/-- `history` with an argument prints the entry it names, or reports it. -/
theorem biHistory_arg {da : DynamicArray} (hda : s.historyDa = some da) (name arg : Str) :
    (∀ n, Names arg da.size n →
      ∃ rc, biHistory s [name, arg] = (rc, s, historyLine (daGet da (n - 1))))
      ∧ ((∀ n, ¬ Names arg da.size n) →
        biHistory s [name, arg] = (exitFailure, s, [.stderr .historyInvalidArg])) := by
  rw [biHistory, hda]
  dsimp only
  refine ⟨?_, fun hno => ?_⟩
  · rintro n ⟨harg, hn, hone, hle⟩
    rw [hn]
    dsimp only
    rw [if_neg (by simp only [harg, ne_eq, not_true_eq_false, false_or, Int.toNat_natCast]; omega)]
    exact ⟨_, rfl⟩
  · rcases hn : strtol arg with ⟨v, endp⟩
    dsimp only
    refine if_pos ?_
    by_contra hvalid
    simp only [not_or, ne_eq, not_not, not_lt] at hvalid
    obtain ⟨harg, rfl, hone, hle⟩ := hvalid
    refine hno v.toNat ⟨harg, ?_, by omega, hle⟩
    rw [hn, Int.toNat_of_nonneg (by omega)]

theorem tryRunBuiltin_history (w : World) (s : Shell) (arg : Str) :
    tryRunBuiltin w s [ascii "history", arg]
      = .ok (true, setRc (biHistory s [ascii "history", arg])) := by
  rw [tryRunBuiltin, if_neg (by decide), if_neg (by decide), if_neg (by decide),
    if_neg (by decide), if_neg (by decide), if_neg (by decide), if_pos rfl]

/-- The history has exactly the lines, each without its newline, in their order; the next
line returns; and when that line comes down to `history` with one argument, it prints the
entry that the argument names among the lines before it, or none and a report. -/
theorem history_records {lines : List Str} (h : Session lines s) :
    s.history = lines.map (fun l => some (trimNewline l))
      ∧ (∀ w l, Allowed s l → ∃ s' out, runLine w s l = .ok (s', out) ∧ Session (lines ++ [l]) s')
      ∧ (lines ≠ [] → ∀ w l seg arg, Allowed s l → splitPipeline l maxSegs = some [seg] →
        expansion s.aliasHm (parselineNoSubst seg).argv = [ascii "history", arg] →
        ∃ s' out, runLine w s l = .ok (s', out)
          ∧ (∀ n, Names arg lines.length n →
            printed out = trimNewline (lines.getD (n - 1) []) ++ [newline]
              ∧ .stderr .historyInvalidArg ∉ out)
          ∧ ((∀ n, ¬ Names arg lines.length n) →
            printed out = [] ∧ .stderr .historyInvalidArg ∈ out)) := by
  refine ⟨h.history_eq, fun w l hl => ?_, fun hlines w l seg arg hl hseg hexp => ?_⟩
  · obtain ⟨s', out, e, -⟩ := runLine_ok w hl
    exact ⟨s', out, e, h.line hl e⟩
  · obtain ⟨da, hda, hlist⟩ := h.historyDa_eq hlines
    have hsize : da.size = lines.length := by
      rw [← length_toList, hlist, List.length_map]
    have hargv : (parselineNoSubst seg).argv ≠ [] := fun e => by
      rw [e] at hexp
      exact absurd hexp (by simp [expansion])
    obtain ⟨s₁, out₁, hprep, honly, hw⟩ := prepare_ok hl.inBounds
    have hwarned := hw seg hseg
    obtain ⟨hvalid, hinvalid⟩ :=
      biHistory_arg (honly.kept.historyDa.trans hda) (ascii "history") arg
    rw [hsize] at hvalid hinvalid
    have hnot : Output.stderr .historyInvalidArg ∉ out₁ := fun hmem =>
      absurd (hwarned _ hmem) (by simp)
    have hcommand : command s.aliasHm l = .builtin [ascii "history", arg] := by
      rw [command, hseg]
      dsimp only
      rw [if_neg hargv, hexp, Command.simple]
      exact if_pos (show isBuiltin (ascii "history") = true by decide)
    have e : runLine w s l =
        .ok ((setRc (biHistory s₁ [ascii "history", arg])).1.addHistoryAfterExec l,
          out₁ ++ (setRc (biHistory s₁ [ascii "history", arg])).2) := by
      rw [runLine_eq, hprep, hcommand]
      simp only [bind, Flow.bind, Command.run, tryRunBuiltin_history]
      rfl
    refine ⟨_, _, e, fun n hn => ?_, fun hno => ?_⟩
    · obtain ⟨rc, hrc⟩ := hvalid n hn
      have hlt : n - 1 < lines.length := by
        have := hn.2.2
        omega
      have hget : daGet da (n - 1) = some (trimNewline (lines.getD (n - 1) [])) := by
        rw [daGet_eq, hlist, List.getElem?_map, List.getD_eq_getElem?_getD,
          List.getElem?_eq_getElem hlt]
        rfl
      rw [hrc, hget, setRc, printed_append, hwarned.printed]
      exact ⟨by simp [printed, historyLine], by simp [historyLine, hnot]⟩
    · rw [hinvalid hno, setRc, printed_append, hwarned.printed]
      exact ⟨by simp [printed], by simp⟩

/-- A line of one command other than `exit`, while there are no aliases. -/
theorem allowed_of_plain {seg : Str} (hs : s.aliasHm = hmCreate)
    (hseg : splitPipeline line maxSegs = some [seg]) (hfits : Fits seg)
    (hexit : (parselineNoSubst seg).argv ≠ [ascii "exit"]) :
    Allowed s line
      ∧ expansion s.aliasHm (parselineNoSubst seg).argv = (parselineNoSubst seg).argv := by
  have hnone (name : Str) : hmGet s.aliasHm name = none := by
    rw [hs]
    rfl
  have hexp (argv : List Str) : expansion s.aliasHm argv = argv := by
    rcases argv with - | ⟨name, args⟩
    · rfl
    · rw [expansion, hnone]
  have hone {segs : List Str} (hsegs : splitPipeline line maxSegs = some segs) :
      ∀ seg' ∈ segs, seg' = seg := by
    rw [hseg] at hsegs
    obtain rfl := Option.some.inj hsegs
    exact fun seg' h => List.mem_singleton.1 h
  refine ⟨⟨fun segs hsegs seg' h => ?_, fun segs hsegs seg' h name hname aliasCmd hget => ?_,
    fun segs hsegs seg' h hargv => ?_, fun seg' hsegs => ?_⟩, hexp _⟩
  · rwa [hone hsegs seg' h]
  · rw [hnone] at hget
    exact absurd hget (by simp)
  · rwa [hexp]
  · rwa [hexp, hone hsegs seg' (List.mem_singleton.2 rfl)]

/-- The shell after `ls` was not found. -/
def afterLs : Shell :=
  (startShell.warn (.cmdNotFound (ascii "ls"))).1.addHistoryAfterExec (ascii "ls\n")

/-- `history 1` after `ls` prints `ls`. -/
theorem history_records_ls :
    ∃ s s' out, Session [ascii "ls\n"] s
      ∧ runLine bareWorld s (ascii "history 1\n") = .ok (s', out)
      ∧ printed out = ascii "ls\n" := by
  have hls : Allowed startShell (ascii "ls\n") := (allowed_of_plain rfl
    (show _ = some [ascii "ls\n"] by decide +kernel) (by decide +kernel) (by decide +kernel)).1
  have hsession : Session [ascii "ls\n"] afterLs := Session.start.line (w := bareWorld) hls rfl
  obtain ⟨hallowed, hexp⟩ := allowed_of_plain (show afterLs.aliasHm = hmCreate from rfl)
    (show splitPipeline (ascii "history 1\n") maxSegs = some [ascii "history 1\n"] by decide +kernel)
    (by decide +kernel) (by decide +kernel)
  obtain ⟨s', out, hrun, hvalid, -⟩ := (history_records hsession).2.2 (by simp) bareWorld
    (ascii "history 1\n") (ascii "history 1\n") (ascii "1") hallowed (by decide +kernel)
    (hexp.trans (by decide +kernel))
  exact ⟨_, s', out, hsession, hrun, (hvalid 1 ⟨by decide, by decide, by decide, by decide⟩).1⟩

end SystemsPortfolio.Wsh
