import Rollup.Command.Arguments

/-!
# The program

One run of the program: it reads its arguments, runs a command, and leaves an exit code, a text, and
log lines of the levels asked for.
-/

namespace Rollup

/-- What a run left behind. -/
structure Run where
  code : Nat
  printed : String
  log : List Event
  failure : Option CommandError

namespace Run

/-- Log lines go down to `info`, or to `debug` if more is asked for. -/
def logged (verbose : Bool) (events : List Event) : List Event :=
  let least := if verbose then Level.debug.rank else Level.info.rank
  events.filter fun e => e.level.rank ≤ least

/-- A run that ran no command. -/
def ofStop : Stop → Run
  | .refused => ⟨2, "", [], none⟩
  | .help => ⟨0, "", [], none⟩
  | .version => ⟨0, s!"autoreduce {Console.version}\n", [], none⟩

/-- Runs a command on a directory. -/
def ofInvocation (inv : Invocation) (directory : Directory) (targets : String → PathTarget) :
    Run × Directory :=
  let (answer, console) := (Console.run inv.path inv.command).exec (.on directory targets)
  let log := logged inv.verbose console.events.toList
  match answer with
  | .ok () => (⟨0, console.printed, log, none⟩, console.directory)
  | .error e => (⟨1, console.printed, log, some e⟩, console.directory)

/-- Runs the program with these arguments. -/
def ofArguments (arguments : List String) (directory : Directory)
    (targets : String → PathTarget) : Run × Directory :=
  match Invocation.ofWords arguments with
  | .error stop => (ofStop stop, directory)
  | .ok inv => ofInvocation inv directory targets

end Run

end Rollup
