import Rollup.Index.Batch

/-!
# Audits

An index of orders beside a plain map of the documents that should be live.  An audit compares the
two: one entry for each live document, in the bucket of its group, and for each group the price and
the number of its documents in the results.
-/

namespace Rollup

/-- An index at work, and the documents that should be live in it. -/
structure Audit (β : Type) where
  live : Live β ResultStore
  documents : OrderedMap String Value

namespace Audit

variable {β : Type}

/-- The price summed and the documents counted, by category. -/
def orders : Definition where
  name := "orders_by_category"
  collection := "Orders"
  fields := [⟨"Price", ⟨["Price"], []⟩, .sum⟩, ⟨"Count", ⟨["Count"], []⟩, .count⟩]
  groupBy := [⟨"Category", ⟨["Category"], []⟩, .first⟩]

/-- A document with a category and a price. -/
def order (category : String) (price : Int64) : Value :=
  .object [("Category", .text category), ("Price", .integer price)]

/-- Commits need not survive a crash. -/
def config : Config := { syncOnCommit := false }

section

variable [Backend β]

/-- A new index of orders on an empty backend. -/
def start (backend : β) : Except IndexError (Audit β) := do
  let env ← (Environment.openLog backend).outcome.mapError .storage
  let (answer, host) := (Index.create orders config).exec ⟨env, #[]⟩
  return ⟨.ofHost host (← answer) .empty, .empty⟩

/-- Closes the store and opens it and the index again; results and documents stay. -/
def reopen (a : Audit β) : Except IndexError (Audit β) := do
  let env ← (Environment.openLog a.live.env.log.backend).outcome.mapError .storage
  let (answer, host) := (Index.load orders.name config).exec ⟨env, a.live.events⟩
  return ⟨.ofHost host (← answer) a.live.sink, a.documents⟩

/-- The documents after a change. -/
def documentsAfter (documents : OrderedMap String Value) : String × Option Value →
    OrderedMap String Value
  | (key, some data) => documents.insert key data
  | (key, none) => documents.erase key

/-- The change that puts a document or deletes it. -/
def changeOf : String × Option Value → Change
  | (key, some data) => .put ⟨Utf8.encode key, data⟩
  | (key, none) => .delete (Utf8.encode key)

/-- Runs a batch; the documents change only if it commits. -/
def runBatch (items : List (String × Option Value)) : Action (Audit β) IndexError BatchResult := do
  let result ← (Live.runBatch ResultStore.sink (items.map changeOf)).within
    (·.live) (fun live a => { a with live }) id
  modify fun a => { a with documents := items.foldl documentsAfter a.documents }
  return result

end

/-! ### Comparing -/

/-- For each group, the price and the number of its documents. -/
abbrev Totals : Type := OrderedMap GroupHash (Int64 × Nat)

/-- The price of a document, zero if it has no integer there. -/
def priceOf (data : Value) : Int64 := ((data.field? "Price").bind Value.asInteger).getD 0

/-- Whether a document has one entry, in its group's bucket; answers the group. -/
def groupIfEntered (ix : Index) (s : Snapshot) (key : String) (data : Value) :
    Except IndexError (Option GroupHash) := do
  let (_, _, hash) ← ix.groupOf data
  match ← ix.entriesIn s (Utf8.encode key) with
  | [e] =>
    let blobs ← ix.bucketIn s hash
    return if e.hash = hash ∧ blobs.any (·.1 = e.etag) then some hash else none
  | _ => return none

/-- Adds a document to its group's price and number, if it is entered and the price still fits. -/
def addDocument (ix : Index) (s : Snapshot) (groups : Option Totals)
    (document : String × Value) : Except IndexError (Option Totals) := do
  match groups, ← groupIfEntered ix s document.1 document.2 with
  | some groups, some hash =>
    let (price, count) := (groups.get? hash).getD (0, 0)
    return (Value.addExact? price (priceOf document.2)).map fun total =>
      groups.insert hash (total, count + 1)
  | _, _ => return none

/-- Price and number of the documents of each group, if all of them are entered and no price on the
way, in the order of their keys, is too large. -/
def expected (ix : Index) (s : Snapshot) (documents : OrderedMap String Value) :
    Except IndexError (Option Totals) :=
  documents.entries.foldlM (addDocument ix s) (some .empty)

/-- Whether bucket and result of a group are what they should be. -/
def groupAgrees (ix : Index) (s : Snapshot) (results : ResultStore)
    (group : GroupHash × Int64 × Nat) : Except IndexError Bool := do
  let (hash, price, count) := group
  let blobs ← ix.bucketIn s hash
  let field (name : String) := (results.results.get? hash).bind (·.field? name)
  return blobs.length = count ∧ field "Price" = some (.integer price) ∧
    field "Count" = some (.integer (Int64.ofInt count))

/-- Whether the index and its results agree with the documents. -/
def agrees (a : Audit β) : Except IndexError Bool := do
  let ix := a.live.index
  let s := a.live.committed
  match ← expected ix s a.documents with
  | none => return false
  | some groups =>
    let hashes ← ix.hashesIn s
    let agreed ← groups.entries.mapM (groupAgrees ix s a.live.sink)
    return ix.entryCountIn s = a.documents.size ∧ hashes = groups.keys ∧ agreed.all id ∧
      a.live.sink.results.size = groups.size

end Audit

end Rollup
