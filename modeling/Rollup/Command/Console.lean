import Rollup.Command.Input
import Rollup.Command.Inspection
import Rollup.Json.Printer

/-!
# Commands

The commands that work on a store in a directory: each opens it, does its work, prints what came of
it and lets it go.
-/

namespace Rollup

inductive Command where
  | create (name collection : String) (groupBy sum count : List String)
  /-- Applies the lines of a file, in batches of a size. -/
  | map (name input : String) (batchSize : Nat)
  | delete (name : String) (keys : List String)
  /-- Shows one index, or the names of all. -/
  | inspect (name : Option String) (withBuckets : Bool) (format : String)
  | results (name : String) (pretty : Bool)
  | version
deriving DecidableEq, Repr

/-- Where commands run: the directory, what they printed, what they reported, and what paths lead
to. -/
structure Console where
  directory : Directory
  printed : String
  events : Array Event
  targets : String → PathTarget

namespace Console

/-- A step of a command. -/
abbrev Step (α : Type) : Type := Action Console CommandError α

/-- A console on which nothing has happened. -/
def on (directory : Directory) (targets : String → PathTarget) : Console :=
  ⟨directory, "", #[], targets⟩

/-- Prints a line. -/
def print (line : String) : Step Unit :=
  modify fun c => { c with printed := c.printed ++ line ++ "\n" }

/-- The definition that the arguments of `create` ask for: sums before counts before groups. -/
def definitionOf (name collection : String) (groupBy sum count : List String) :
    Except IndexError Definition := do
  let sums ← sum.mapM IndexField.sum
  let counts ← count.mapM IndexField.count
  let groups ← groupBy.mapM IndexField.groupBy
  return ⟨name, collection, sums ++ counts, groups⟩

/-- Opens the store, works on it, and lets it go. -/
def withStore {α : Type} (path : String) (work : Action (Host LogFile) CommandError α) :
    Step α := do
  if (← get).targets path matches .file _ then throw (.storage (.io .notDirectory))
  let opening := (← get).directory.openAt path
  modify fun c => { c with
    directory := { c.directory with log := opening.backend.content }
    events := c.events ++ opening.events }
  match opening.outcome with
  | .error e => throw (.storage e)
  | .ok env =>
    let (answer, host) := work.exec ⟨env, #[]⟩
    modify fun c => { c with
      directory := { c.directory with log := host.env.log.backend.content }
      events := c.events ++ host.events }
    Action.lift answer

/-- Opens an index of the store, works on it, and lets both go. -/
def withIndex {α : Type} (path name : String)
    (work : Action (Live LogFile ResultStore) CommandError α) : Step α :=
  withStore path do
    let ix ← ExceptT.adapt .index (Index.load name {})
    let (answer, live) := work.exec (.ofHost (← get) ix .empty)
    set live.toHost
    Action.lift answer

/-! ### The commands -/

def runCreate (path name collection : String) (groupBy sum count : List String) : Step Unit := do
  let ix ← withStore path do
    let d ← Action.lift ((definitionOf name collection groupBy sum count).mapError .index)
    ExceptT.adapt .index (Index.create d {})
  print s!"created index '{ix.name}'"

/-- What `map` came to: documents mapped, groups with a result, and the last etag. -/
structure MapSummary where
  mapped : Nat
  groups : Nat
  lastEtag : Etag

def inputApplied (name : String) (summary : MapSummary) : Event :=
  ⟨.info, "autoreduce::commands::map", "input applied",
    [("index", .quoted name), ("mapped", .number summary.mapped),
      ("last_etag", .number summary.lastEtag.toNat)]⟩

def runMap (path name input : String) (batchSize : Nat) : Step Unit := do
  let target := (← get).targets input
  let summary ← withIndex path name do
    let mapped ← Live.applyTarget ResultStore.sink target batchSize
    let live ← get
    let summary : MapSummary := ⟨mapped, live.sink.results.size, live.index.lastEtag⟩
    ExceptT.adapt .index (Live.report (inputApplied name summary))
    return summary
  print <| s!"mapped {summary.mapped} documents into '{name}', " ++
    s!"{summary.groups} groups changed, last etag {summary.lastEtag.toNat}"

def runDelete (path name : String) (keys : List String) : Step Unit := do
  let (deleted, retracted) ←
    withIndex path name (Live.deleteKeys ResultStore.sink (keys.map Utf8.encode))
  print s!"deleted {deleted} documents from '{name}', {retracted} entries retracted"

/-- A tree name without the ending of meta trees, if it has it. -/
def indexOfMetaTree? (tree : String) : Option String :=
  let chars := tree.toList
  let ending := "/meta".toList
  if ending.isSuffixOf chars then some (String.ofList (chars.take (chars.length - ending.length)))
  else none

/-- The names of the indexes in a snapshot. -/
def indexNames (s : Snapshot) : List String := s.treeNames.filterMap indexOfMetaTree?

def runInspect (path : String) (name : Option String) (withBuckets : Bool) (format : String) :
    Step Unit := do
  match name with
  | none =>
    let names ← withStore path do return indexNames (← get).env.committed
    names.forM print
  | some name =>
    let inspection ← withIndex path name do
      let live ← get
      Action.lift ((Inspection.ofIndex live.index live.committed withBuckets).mapError .index)
    if format = "json" then print inspection.toJson.pretty
    else inspection.textLines.forM print

def runResults (path name : String) (pretty : Bool) : Step Unit := do
  let results ← withIndex path name do
    let _ ← ExceptT.adapt .index (Live.reduceAll ResultStore.sink)
    return (← get).sink.results
  results.entries.forM fun result =>
    let json := Json.ofValue result.2
    print (if pretty then json.pretty else json.compact)

/-- The version of the program. -/
def version : String := "0.3.0"

def runVersion : Step Unit := do
  print s!"autoreduce CLI v{version}"
  print s!"autoreduce core v{version}"

/-- Runs a command on the store of that path. -/
def runAt (path : String) : Command → Step Unit
  | .create name collection groupBy sum count => runCreate path name collection groupBy sum count
  | .map name input batchSize => runMap path name input batchSize
  | .delete name keys => runDelete path name keys
  | .inspect name withBuckets format => runInspect path name withBuckets format
  | .results name pretty => runResults path name pretty
  | .version => runVersion

end Console

/-- The word that asks for a command. -/
def Command.word : Command → String
  | .create .. => "create"
  | .map .. => "map"
  | .delete .. => "delete"
  | .inspect .. => "inspect"
  | .results .. => "results"
  | .version => "version"

/-- Runs a command; every one but `version` needs a path. -/
def Console.run (path : Option String) (command : Command) : Console.Step Unit :=
  match path, command with
  | some path, command => Console.runAt path command
  | none, .version => Console.runVersion
  | none, command => throw (.noPath command.word)

end Rollup
