/-
SystemsPortfolio/Wsh/Builtins.lean

The state of the shell, the search for an executable and the built-in commands of `wsh.c`.

A function of the shell gives back the shell after it and what it has printed.  What the
system answers is a `World`: which paths `access` accepts, which directories `chdir` takes,
and how the children end.  What a child prints is its own.
-/
import SystemsPortfolio.Wsh.DynamicArray
import SystemsPortfolio.Wsh.HashMap

namespace SystemsPortfolio.Wsh

/-! ### Messages -/

/-- The messages of `wsh.h` that go to stderr. -/
inductive Msg
  | cmdNotFound (cmd : Str)
  | emptyPipeSegment
  | emptyPath
  | missingClosingQuote
  | invalidPathUse
  | invalidExitUse
  | invalidAliasUse
  | invalidUnaliasUse
  | invalidWhichUse
  | invalidCdUse
  | invalidHistoryUse
  | cdNoHome
  | historyInvalidArg
  deriving DecidableEq

def Msg.text : Msg → Str
  | .cmdNotFound cmd => ascii "Command not found or not an executable: " ++ cmd ++ ascii "\n"
  | .emptyPipeSegment => ascii "Empty command segment in pipeline\n"
  | .emptyPath => ascii "PATH empty or not set\n"
  | .missingClosingQuote => ascii "Missing Closing Quote\n"
  | .invalidPathUse =>
      ascii "Incorrect usage of path. Correct format: path dir1:dir2:...:dirN\n"
  | .invalidExitUse => ascii "Incorrect usage of exit. Too many arguments\n"
  | .invalidAliasUse =>
      ascii "Incorrect usage of alias. Correct format: alias | alias name = 'command'\n"
  | .invalidUnaliasUse => ascii "Incorrect usage of unalias. Correct format: unalias name\n"
  | .invalidWhichUse => ascii "Incorrect usage of which. Correct format: which name\n"
  | .invalidCdUse => ascii "Incorrect usage of cd. Correct format: cd | cd directory\n"
  | .invalidHistoryUse =>
      ascii "Incorrect usage of history. Correct format: history | history n\n"
  | .cdNoHome => ascii "cd: HOME not set\n"
  | .historyInvalidArg => ascii "Invalid argument passed to history\n"

/-- What is printed: bytes to stdout, a message to stderr, or what `perror` makes of the
error of a call. -/
inductive Output
  | stdout (text : Str)
  | stderr (msg : Msg)
  | perror (call : String)
  deriving DecidableEq

/-! ### The shell and the system -/

def exitSuccess : Int := 0

def exitFailure : Int := 1

/-- The global variables, and `PATH`. -/
structure Shell where
  rc : Int
  aliasHm : HashMap
  historyDa : Option DynamicArray
  path : Option Str

/-- How it goes with a child: `fork` fails, `waitpid` fails, or it ends, with exit status 0
or otherwise. -/
inductive Child
  | noFork
  | noWait
  | ended (ok : Bool)
  deriving DecidableEq

/-- The answers of the system during one line; the calls of `pipe` and the children are
numbered. -/
structure World where
  access : Str → Bool
  chdir : Str → Bool
  home : Option Str
  pipe : Nat → Bool
  child : Nat → Child

/-- `wsh_warn`. -/
def Shell.warn (s : Shell) (msg : Msg) : Shell × List Output :=
  ({ s with rc := exitFailure }, [.stderr msg])

/-! ### Where a command is -/

/-- The paths that the loop over `PATH` tries for `cmd`. -/
def candidates (path cmd : Str) : List Str :=
  (strtok 58 path).map fun dir => dir ++ [47] ++ cmd

/-- The name is a path: it starts with `/` or `.`. -/
def isPath (cmd : Str) : Bool :=
  cmd.head? = some 47 || cmd.head? = some 46

/-- `resolve_exec_path`. -/
def resolveExecPath (w : World) (s : Shell) (cmd : Str) : Option Str × Shell × List Output :=
  if isPath cmd then
    if w.access cmd then (some cmd, s, []) else (none, s.warn (.cmdNotFound cmd))
  else
    match s.path with
    | none => (none, s.warn .emptyPath)
    | some [] => (none, s.warn .emptyPath)
    | some path =>
        match (candidates path cmd).find? w.access with
        | some full => (some full, s, [])
        | none => (none, s.warn (.cmdNotFound cmd))

/-! ### Built-in commands -/

/-- `is_builtin`, of a name that is not null. -/
def isBuiltin (name : Str) : Bool :=
  name = ascii "exit" || name = ascii "alias" || name = ascii "unalias" || name = ascii "which"
    || name = ascii "path" || name = ascii "cd" || name = ascii "history"

/-- The end of a built-in that has been called in a wrong way. -/
def Shell.misuse (s : Shell) (msg : Msg) : Int × Shell × List Output :=
  (exitFailure, s.warn msg)

/-- `bi_path`. -/
def biPath (s : Shell) : List Str → Int × Shell × List Output
  | [_] => (exitSuccess, s, [.stdout (s.path.getD [] ++ [newline])])
  | [_, p] => (exitSuccess, { s with path := some p }, [])
  | _ => s.misuse .invalidPathUse

/-- `bi_alias`. -/
def biAlias (s : Shell) : List Str → Int × Shell × List Output
  | [_] => (exitSuccess, s, [.stdout (hmPrintSorted s.aliasHm)])
  | _ :: name :: eq :: rest =>
      if eq = ascii "=" then
        match rest with
        | [] => (exitSuccess, { s with aliasHm := hmPut s.aliasHm name [] }, [])
        | [value] => (exitSuccess, { s with aliasHm := hmPut s.aliasHm name value }, [])
        | _ => s.misuse .invalidAliasUse
      else s.misuse .invalidAliasUse
  | _ => s.misuse .invalidAliasUse

/-- `bi_unalias`. -/
def biUnalias (s : Shell) : List Str → Int × Shell × List Output
  | [_, name] => (exitSuccess, { s with aliasHm := hmDelete s.aliasHm name }, [])
  | _ => s.misuse .invalidUnaliasUse

/-- `chdir` as `bi_cd` calls it. -/
def cdTo (w : World) (s : Shell) (dir : Str) : Int × Shell × List Output :=
  if w.chdir dir then (exitSuccess, s, []) else (exitFailure, s, [.perror "cd"])

/-- `bi_cd`; a missing `HOME` does not go through `wsh_warn`. -/
def biCd (w : World) (s : Shell) : List Str → Int × Shell × List Output
  | [_] =>
      match w.home with
      | none => (exitFailure, s, [.stderr .cdNoHome])
      | some [] => (exitFailure, s, [.stderr .cdNoHome])
      | some h => cdTo w s h
  | [_, dir] => cdTo w s dir
  | _ => s.misuse .invalidCdUse

/-- The texts of `bi_which`. -/
def whichAlias (name value : Str) : Str :=
  name ++ ascii ": aliased to '" ++ value ++ ascii "'\n"

def whichBuiltin (name : Str) : Str :=
  name ++ ascii ": wsh builtin\n"

def whichExternal (name full : Str) : Str :=
  name ++ ascii ": found at " ++ full ++ ascii "\n"

def whichNotFound (name : Str) : Str :=
  name ++ ascii ": not found\n"

/-- `bi_which`. -/
def biWhich (w : World) (s : Shell) : List Str → Int × Shell × List Output
  | [_, name] =>
      match hmGet s.aliasHm name with
      | some av => (exitSuccess, s, [.stdout (whichAlias name av)])
      | none =>
          if isBuiltin name then (exitSuccess, s, [.stdout (whichBuiltin name)])
          else if isPath name then
            if w.access name then (exitSuccess, s, [.stdout (whichExternal name name)])
            else (exitFailure, s, [.stdout (whichNotFound name)])
          else
            match s.path with
            | none => (exitFailure, s, [.stdout (whichNotFound name)])
            | some [] => (exitFailure, s, [.stdout (whichNotFound name)])
            | some path =>
                match (candidates path name).find? w.access with
                | some full => (exitSuccess, s, [.stdout (whichExternal name full)])
                | none => (exitFailure, s, [.stdout (whichNotFound name)])
  | _ => s.misuse .invalidWhichUse

/-- The line that `bi_history` prints for an entry; a null one is skipped. -/
def historyLine : Option Str → List Output
  | some e => [.stdout (e ++ [newline])]
  | none => []

/-- `bi_history`. -/
def biHistory (s : Shell) (argv : List Str) : Int × Shell × List Output :=
  match s.historyDa with
  | none => (exitSuccess, s, [])
  | some da =>
      match argv with
      | [_] =>
          (exitSuccess, s, (List.range da.size).flatMap fun i => historyLine (daGet da i))
      | [_, arg] =>
          let (v, endp) := strtol arg
          if arg = [] ∨ endp ≠ [] ∨ v < 1 ∨ da.size < v.toNat then
            (exitFailure, s, [.stderr .historyInvalidArg])
          else
            let e := daGet da (v.toNat - 1)
            (if e.isSome then exitSuccess else exitFailure, s, historyLine e)
      | _ => s.misuse .invalidHistoryUse

/-! ### Dispatch -/

/-- How a function of the shell ends: it returns, it leaves the shell, or it does what C
leaves undefined. -/
inductive Flow (α : Type)
  | ok (a : α)
  | exit (code : Int)
  | undefined

def Flow.bind {α β : Type} (x : Flow α) (f : α → Flow β) : Flow β :=
  match x with
  | .ok a => f a
  | .exit code => .exit code
  | .undefined => .undefined

instance : Monad Flow where
  pure := .ok
  bind := Flow.bind

/-- The assignment `rc = bi_..(argc, argv)`. -/
def setRc : Int × Shell × List Output → Shell × List Output
  | (rc, s, out) => ({ s with rc := rc }, out)

/-- `try_run_builtin`; the flag says whether the name was one of a built-in. -/
def tryRunBuiltin (w : World) (s : Shell) (argv : List Str) :
    Flow (Bool × Shell × List Output) :=
  match argv with
  | [] => .ok (true, s, [])
  | name :: args =>
      if name = ascii "exit" then
        if args ≠ [] then .ok (true, s.warn .invalidExitUse) else .exit s.rc
      else if name = ascii "alias" then .ok (true, setRc (biAlias s argv))
      else if name = ascii "unalias" then .ok (true, setRc (biUnalias s argv))
      else if name = ascii "which" then .ok (true, setRc (biWhich w s argv))
      else if name = ascii "path" then .ok (true, setRc (biPath s argv))
      else if name = ascii "cd" then .ok (true, setRc (biCd w s argv))
      else if name = ascii "history" then .ok (true, setRc (biHistory s argv))
      else .ok (false, s, [])

end SystemsPortfolio.Wsh
