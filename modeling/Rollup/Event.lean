import Rollup.Text.Quoted

/-!
# Events

What the store, the index and the commands report while they work: a level, the part that reports,
a message and named fields.  An event is data; who runs an action decides what becomes of it.
-/

namespace Rollup

inductive Level where
  | error
  | warn
  | info
  | debug
  | trace
deriving DecidableEq, Repr

namespace Level

def name : Level → String
  | .error => "ERROR"
  | .warn => "WARN"
  | .info => "INFO"
  | .debug => "DEBUG"
  | .trace => "TRACE"

/-- Lower for what matters more. -/
def rank : Level → Nat
  | .error => 0
  | .warn => 1
  | .info => 2
  | .debug => 3
  | .trace => 4

end Level

/-- The content of a field.  Log lines quote a `quoted` text and show a `plain` one as it is. -/
inductive FieldValue where
  | number (n : Nat)
  | flag (b : Bool)
  | quoted (s : String)
  | plain (s : String)
deriving DecidableEq, Repr

def FieldValue.text : FieldValue → String
  | .number n => toString n
  | .flag b => if b then "true" else "false"
  | .quoted s => Text.quoted s
  | .plain s => s

structure Event where
  level : Level
  source : String
  message : String
  fields : List (String × FieldValue)
deriving DecidableEq, Repr

/-- The event as a log line: level, source and message, and then the fields in order. -/
def Event.line (e : Event) : String :=
  let fields := e.fields.map fun f => s!" {f.1}={f.2.text}"
  s!"{e.level.name} {e.source}: {e.message}" ++ String.join fields

end Rollup
