/-
SystemsPortfolio/Wsh/RunLine.lean

One input line through the shell: `run_line` of `wsh.c` with the alias expansion, the
external command, the pipeline and the history.

Allocations are taken to succeed.  Undefined are the two places where the code relies on
what it does not check: a segment or an alias value with too many arguments for the array
of the caller, and a simple command of which the alias expansion leaves nothing.  In a
pipeline the latter is the matter of a child.
-/
import SystemsPortfolio.Wsh.Parse
import SystemsPortfolio.Wsh.Builtins

namespace SystemsPortfolio.Wsh

/-- `MAX_ARGS`. -/
abbrev maxArgs : Nat := 128

/-- `MAX_SEGS`. -/
abbrev maxSegs : Nat := 128

/-! ### Arguments -/

/-- `parseline_no_subst` into an array of `MAX_ARGS + 1` pointers. -/
def Shell.parseline (s : Shell) (cmdline : Str) : Flow (List Str × Shell × List Output) :=
  let r := parselineNoSubst cmdline
  if maxArgs < r.top then .undefined
  else if r.closed then .ok (r.argv, s, [])
  else .ok (r.argv, s.warn .missingClosingQuote)

/-- `expand_alias_first_token`, of at least one argument. -/
def Shell.expandAliasFirstToken (s : Shell) (argv : List Str) :
    Flow (List Str × Shell × List Output) :=
  match argv with
  | [] => .undefined
  | name :: args =>
      match hmGet s.aliasHm name with
      | none => .ok (name :: args, s, [])
      | some aliasCmd => do
          let (aArgv, s, out) ← s.parseline aliasCmd
          return (aArgv ++ args, s, out)

/-! ### External commands and pipelines -/

/-- `run_external`; `resolve_exec_path` reads the name it is given. -/
def runExternal (w : World) (s : Shell) (argv : List Str) : Flow (Shell × List Output) :=
  match argv with
  | [] => .undefined
  | cmd :: _ =>
      match resolveExecPath w s cmd with
      | (none, s, out) => .ok (s, out)
      | (some _, s, out) =>
          match w.child 0 with
          | .noFork => .ok ({ s with rc := exitFailure }, out ++ [.perror "fork"])
          | .noWait => .ok ({ s with rc := exitFailure }, out ++ [.perror "waitpid"])
          | .ended ok => .ok ({ s with rc := if ok then exitSuccess else exitFailure }, out)

/-- What the parent prints about the child of a stage: the loop that forks, and the one that
waits.  The pid of a child that could not be forked is never set, and waiting for it
fails. -/
def forkOutput : Child → List Output
  | .noFork => [.perror "fork"]
  | _ => []

def waitOutput : Child → List Output
  | .ended _ => []
  | _ => [.perror "waitpid"]

/-- The result of the last stage.  Its status is 1 until a child is waited for, and 0 after
a `waitpid` that fails. -/
def lastRc : Child → Int
  | .noFork => exitFailure
  | .noWait => exitSuccess
  | .ended ok => if ok then exitSuccess else exitFailure

/-- `run_pipeline`, as far as it is seen in the parent: each stage runs in a child. -/
def runPipeline (w : World) (s : Shell) (segarv : List (List Str)) : Shell × List Output :=
  let nseg := segarv.length
  if (List.range (nseg - 1)).all w.pipe then
    ({ s with rc := lastRc (w.child (nseg - 1)) },
      ((List.range nseg).flatMap fun i => forkOutput (w.child i))
        ++ (List.range nseg).flatMap fun i => waitOutput (w.child i))
  else ({ s with rc := exitFailure }, [.perror "pipe"])

/-! ### `run_line` -/

/-- The copy of a line that goes into the history. -/
def trimNewline (line : Str) : Str :=
  if line.getLast? = some newline then line.dropLast else line

/-- `add_history_after_exec`. -/
def Shell.addHistoryAfterExec (s : Shell) (line : Str) : Shell :=
  let da := s.historyDa.getD (daCreate 8)
  { s with historyDa := some (daPut da (some (trimNewline line))) }

/-- The loop over the segments of a pipeline: whether every one is good, and the arguments
of each. -/
def parseSegments (s : Shell) : List Str → Flow (Bool × List (List Str) × Shell × List Output)
  | [] => return (true, [], s, [])
  | segment :: segments => do
      let (tmpv, s, out₁) ← s.parseline segment
      if tmpv = [] then
        let (s, out₂) := s.warn .emptyPipeSegment
        let (_, segarv, s, out₃) ← parseSegments s segments
        return (false, [] :: segarv, s, out₁ ++ out₂ ++ out₃)
      else
        let (argv, s, out₂) ← s.expandAliasFirstToken tmpv
        let (good, segarv, s, out₃) ← parseSegments s segments
        return (good, argv :: segarv, s, out₁ ++ out₂ ++ out₃)

/-- `run_line`.  A command without a name is not a built-in. -/
def runLine (w : World) (s : Shell) (line : Str) : Flow (Shell × List Output) :=
  match splitPipeline line maxSegs with
  | none =>
      let s := { s with rc := exitFailure }
      return (s.addHistoryAfterExec line, [])
  | some [segment] => do
      let (argv0, s, out₁) ← s.parseline segment
      if argv0 = [] then
        return (s.addHistoryAfterExec line, out₁)
      else
        let (argv, s, out₂) ← s.expandAliasFirstToken argv0
        if argv.head?.any isBuiltin then
          let (_, s, out₃) ← tryRunBuiltin w s argv
          return (s.addHistoryAfterExec line, out₁ ++ out₂ ++ out₃)
        else
          let (s, out₃) ← runExternal w s argv
          return (s.addHistoryAfterExec line, out₁ ++ out₂ ++ out₃)
  | some segments => do
      let (good, segarv, s, out₁) ← parseSegments s segments
      if !good then
        let s := { s with rc := exitFailure }
        return (s.addHistoryAfterExec line, out₁)
      else
        let (s, out₂) := runPipeline w s segarv
        return (s.addHistoryAfterExec line, out₁ ++ out₂)

/-- The shell when `main` has set it up. -/
def startShell : Shell :=
  { rc := 0, aliasHm := hmCreate, historyDa := none, path := some (ascii "/bin") }

end SystemsPortfolio.Wsh
