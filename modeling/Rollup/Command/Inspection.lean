import Rollup.Index.Basic
import Rollup.Json.Document

/-!
# Inspecting an index

What can be said about an index at a glance, as JSON and as text.
-/

namespace Rollup

/-- A group: its hash and key, and what its documents contribute. -/
structure BucketDetail where
  hash : GroupHash
  key : Json
  blobs : List (Etag × Json)

structure Inspection where
  name : String
  collection : String
  groupBy : List String
  fields : List String
  lastEtag : Etag
  entries : Nat
  buckets : Nat
  details : Option (List BucketDetail)

namespace Inspection

/-- What a group-by field takes from where. -/
def groupByText (field : IndexField) : String := s!"{field.name} <- {field.path.text}"

/-- What an aggregated field takes from where, and how. -/
def fieldText (field : IndexField) : String :=
  s!"{field.name} <- {field.aggregate.name}({field.path.text})"

def detail (ix : Index) (s : Snapshot) (hash : GroupHash) : Except IndexError BucketDetail := do
  let key ← ix.groupKeyIn s hash
  let blobs ← ix.bucketIn s hash
  return ⟨hash, (key.map Json.ofValue).getD .null, blobs.map fun b => (b.1, .ofValue b.2)⟩

/-- Inspects an index in a snapshot. -/
def ofIndex (ix : Index) (s : Snapshot) (withBuckets : Bool) : Except IndexError Inspection := do
  let details ←
    if withBuckets then
      let hashes ← ix.hashesIn s
      pure (some (← hashes.mapM (detail ix s)))
    else pure none
  let d := ix.definition
  return { name := d.name
           collection := d.collection
           groupBy := d.groupBy.map groupByText
           fields := d.fields.map fieldText
           lastEtag := ix.lastEtag
           entries := ix.entryCountIn s
           buckets := Index.bucketCountIn ix.name s
           details }

/-! ### As JSON -/

def natJson (n : Nat) : Json := .number (.integer n)

def detailJson (d : BucketDetail) : Json :=
  .object [("hash", .string d.hash.text), ("key", d.key),
    ("blobs", .array (d.blobs.map fun b => .array [natJson b.1.toNat, b.2]))]

/-- The members in the order in which they are shown. -/
def toJson (i : Inspection) : Json :=
  .object <|
    [("name", .string i.name), ("collection", .string i.collection),
      ("group_by", .array (i.groupBy.map .string)), ("map", .array (i.fields.map .string)),
      ("last_etag", natJson i.lastEtag.toNat), ("map_entries", natJson i.entries),
      ("buckets", natJson i.buckets)] ++
    (i.details.map fun ds => ("bucket_details", Json.array (ds.map detailJson))).toList

/-! ### As text -/

/-- A number behind blanks that make it eight characters wide. -/
def padded (n : Nat) : String :=
  let digits := toString n
  String.ofList (List.replicate (8 - digits.length) ' ') ++ digits

def detailLines (d : BucketDetail) : List String :=
  ["", s!"  bucket {d.hash.text} {d.key.compact}"] ++
    d.blobs.map fun b => s!"    {padded b.1.toNat}  {b.2.compact}"

def textLines (i : Inspection) : List String :=
  [s!"Index:       {i.name}", s!"Collection:  {i.collection}",
    "Group by:    " ++ String.intercalate ", " i.groupBy,
    "Map:         " ++ String.intercalate ", " i.fields,
    s!"Last etag:   {i.lastEtag.toNat}", s!"Map entries: {i.entries}",
    s!"Buckets:     {i.buckets}"] ++ (i.details.getD []).flatMap detailLines

end Inspection

end Rollup
