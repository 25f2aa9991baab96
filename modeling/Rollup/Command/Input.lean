import Rollup.Command.Error
import Rollup.Index.Batch
import Rollup.Json.Parser
import Rollup.Storage.Directory
import Rollup.Text.Blank
import Rollup.Text.Split

/-!
# Input lines

Each line of input is one change in JSON: an object with a `key` and perhaps a `doc`, or an array
of them in that order.  A line without a document deletes.  Changes are applied in batches; a bad
line stops the input, and what was applied before it stays.
-/

namespace Rollup

namespace Change

/-- The change of a key and a document that may be missing or null. -/
def ofParts (key : String) (doc : Option JsonTree) : Except LineError Change :=
  match doc with
  | none | some .null => .ok (.delete (Utf8.encode key))
  | some tree =>
    match tree.toJson? 1 with
    | none => .error .form
    | some json => do
      let data ← json.toValue.mapError .number
      return .put ⟨Utf8.encode key, data⟩

/-- The values of the members of that name. -/
def membersNamed (name : String) (members : List (Option String × JsonTree)) : List JsonTree :=
  (members.filter fun m => m.1 == some name).map (·.2)

/-- The change that a line writes.  Members of other names do not matter. -/
def ofLine (line : String) : Except LineError Change :=
  match JsonTree.parse line with
  | some (.object members) =>
    if members.any (·.1.isNone) then .error .form
    else
      match membersNamed "key" members, membersNamed "doc" members with
      | [.string (some key)], [] => ofParts key none
      | [.string (some key)], [doc] => ofParts key (some doc)
      | _, _ => .error .form
  | some (.array [.string (some key)]) => ofParts key none
  | some (.array [.string (some key), doc]) => ofParts key (some doc)
  | _ => .error .form

end Change

/-- How many changes go into one batch, if so many are asked for: as many as the index allows, and
at least one. -/
def Index.batchLimit (ix : Index) (requested : Nat) : Nat :=
  max 1 (min requested (max 1 ix.config.maxBatchSize))

def Event.batchSizeClamped (requested limit : Nat) : Event :=
  ⟨.warn, "autoreduce::commands::map", "batch size clamped",
    [("requested", .number requested), ("batch_size", .number limit)]⟩

/-- Cuts a list into parts of `n + 1` elements; the last one may be shorter. -/
def partsOf {α : Type} (n : Nat) (l : List α) : List (List α) :=
  match l with
  | [] => []
  | a :: rest => (a :: rest.take n) :: partsOf n (rest.drop n)
termination_by l.length
decreasing_by simp only [List.length_drop, List.length_cons]; omega

namespace Live

variable {β σ : Type} [Backend β]

/-- A step of a command on an index. -/
abbrev CommandStep (β σ α : Type) : Type := Action (Live β σ) CommandError α

def runChanges (sink : Sink σ) (changes : List Change) : CommandStep β σ BatchResult :=
  ExceptT.adapt .index (runBatch sink changes)

/-- The change of line number `n`. -/
def readLine (n : Nat) (line : String) : CommandStep β σ Change :=
  Action.lift ((Change.ofLine line).mapError (.line n))

/-- Applies lines, of which the first has number `n`, behind the changes that wait for the next
batch; answers how many documents were mapped. -/
def applyFrom (sink : Sink σ) (limit : Nat) :
    (n : Nat) → (waiting : Array Change) → List Bytes → CommandStep β σ Nat
  | _, waiting, [] =>
    if waiting.isEmpty then return 0 else return (← runChanges sink waiting.toList).mapped
  | n, waiting, line :: lines =>
    match Utf8.decode? line with
    | none => throw .unreadable
    | some text =>
      if Text.isBlank text then applyFrom sink limit (n + 1) waiting lines
      else do
        let waiting := waiting.push (← readLine n text)
        if limit ≤ waiting.size then
          let result ← runChanges sink waiting.toList
          let later ← applyFrom sink limit (n + 1) #[] lines
          return result.mapped + later
        else applyFrom sink limit (n + 1) waiting lines

/-- How many changes go into one batch; reports it if so many were not asked for. -/
def clampBatch (requested : Nat) : CommandStep β σ Nat := do
  let limit := (← get).index.batchLimit requested
  if limit ≠ requested then ExceptT.adapt .index (report (.batchSizeClamped requested limit))
  return limit

/-- Applies the lines of an input in batches of a size; answers how many documents were mapped. -/
def applyLines (sink : Sink σ) (input : Bytes) (batchSize : Nat) : CommandStep β σ Nat := do
  applyFrom sink (← clampBatch batchSize) 1 #[] (Text.lines input)

/-- Applies the lines of a file.  A directory opens like a file, but its lines cannot be read. -/
def applyTarget (sink : Sink σ) (target : PathTarget) (batchSize : Nat) :
    CommandStep β σ Nat := do
  match target with
  | .nothing => throw .noFile
  | .directory =>
    let _ ← clampBatch batchSize
    throw .isDirectory
  | .file content => applyLines sink content batchSize

/-- Deletes batches of documents; answers how many there were and how many entries they had. -/
def deleteParts (sink : Sink σ) : List (List DocumentKey) → CommandStep β σ (Nat × Nat)
  | [] => return (0, 0)
  | keys :: parts => do
    let result ← runChanges sink (keys.map .delete)
    let later ← deleteParts sink parts
    return (result.deleted + later.1, result.retracted + later.2)

/-- Deletes documents, in as few batches as the index allows. -/
def deleteKeys (sink : Sink σ) (keys : List DocumentKey) : CommandStep β σ (Nat × Nat) := do
  let limit := (← get).index.batchLimit keys.length
  deleteParts sink (partsOf (limit - 1) keys)

end Live

end Rollup
