import Rollup.Proofs.Index.Keys
import Rollup.Proofs.Storage.Table

/-!
# The map entry table — one row for every etag in use

`Stores` says that the table of an index holds these mappings, each under its etag.  A document is
entered and taken out (`exec_insert`, `exec_delete`), the entries of a document are found in the
order of their etags (`ofDocument_eq`), and so are the hashes that occur (`hashes_eq`).
-/

namespace Rollup

/-- A mapped document: its key, and the hash of its group. -/
structure Mapping where
  document : DocumentKey
  hash : GroupHash
deriving DecidableEq, Repr

/-- The mapped documents of an index, by etag. -/
abbrev Mappings := Etag → Option Mapping

namespace EntryTable

open Rollup.Action Function

/-! ### Rows -/

/-- The entry of a mapping. -/
def entryOf (etag : Etag) (m : Mapping) : Entry := ⟨etag, m.document, m.hash⟩

/-- The row of an etag. -/
def rowAt (rows : Mappings) (etag : Etag) : Option Row :=
  (rows etag).map fun m => toRow (entryOf etag m)

theorem rowAt_update (rows : Mappings) (etag : Etag) (m : Option Mapping) :
    rowAt (update rows etag m) =
      update (rowAt rows) etag (m.map fun m => toRow (entryOf etag m)) := by
  funext f
  rcases eq_or_ne f etag with rfl | hne
  · rw [rowAt, update_self, update_self]
  · rw [rowAt, update_of_ne hne, update_of_ne hne, rowAt]

/-- The rows of the table, by their stored etags. -/
def rowsOf (rows : Mappings) : Bytes → Option Row := cellsOf Etag.decode (rowAt rows)

theorem rowsOf_encode (rows : Mappings) (etag : Etag) :
    rowsOf rows etag.encode = (rows etag).map fun m => toRow (entryOf etag m) :=
  cellsOf_encode Etag.decode_eq_ok_iff etag

theorem rowsOf_eq_some_iff {rows : Mappings} {key : Bytes} {row : Row} :
    rowsOf rows key = some row ↔
      ∃ etag m, key = etag.encode ∧ rows etag = some m ∧ row = toRow (entryOf etag m) := by
  rw [rowsOf, cellsOf_eq_some_iff Etag.decode_eq_ok_iff]
  constructor
  · rintro ⟨etag, rfl, hrow⟩
    obtain ⟨m, hm, rfl⟩ := Option.map_eq_some_iff.1 hrow
    exact ⟨etag, m, rfl, hm, rfl⟩
  · rintro ⟨etag, m, rfl, hm, rfl⟩
    exact ⟨etag, rfl, by rw [rowAt, hm]; rfl⟩

theorem rowsOf_update (rows : Mappings) (etag : Etag) (m : Option Mapping) :
    rowsOf (update rows etag m) =
      update (rowsOf rows) etag.encode (m.map fun m => toRow (entryOf etag m)) := by
  funext key
  rw [rowsOf, rowAt_update, cellsOf_update Etag.decode_eq_ok_iff, update_apply]
  rfl

@[simp] theorem ofRow_toRow (e : Entry) : ofRow (toRow e) = .ok e := by
  simp only [ofRow, toRow, Etag.decode_encode, GroupHash.decode_encode]
  rfl

theorem toRow_inj {a b : Entry} (h : toRow a = toRow b) : a = b := by
  have := congrArg ofRow h
  rw [ofRow_toRow, ofRow_toRow] at this
  exact Except.ok.inj this

/-! ### The schema -/

/-- The index over the document keys. -/
def byDocument : IndexSchema := ⟨documentIndex, 1, .variable⟩

/-- The index over the hashes. -/
def byHash : IndexSchema := ⟨hashIndex, 2, .fixed 8⟩

theorem schema_indexes (index : String) : (schema index).indexes = [byDocument, byHash] := rfl

theorem schema_distinct (index : String) : (schema index).Distinct := by
  rw [TableSchema.Distinct, schema_indexes]
  decide

theorem indexTree_byDocument (index : String) :
    (schema index).indexTree byDocument = Site.documents.tree index := by
  show index ++ "/MapResults" ++ "/" ++ "DocumentKeys" = _
  rw [String.append_assoc, String.append_assoc]
  rfl

theorem indexTree_byHash (index : String) :
    (schema index).indexTree byHash = Site.hashes.tree index := by
  show index ++ "/MapResults" ++ "/" ++ "ReduceKeyHashes" = _
  rw [String.append_assoc, String.append_assoc]
  rfl

/-- The trees of the table are three of the index's. -/
theorem owns_iff {index tree : String} :
    (schema index).Owns tree ↔ ∃ site : Site, site.InTable ∧ tree = site.tree index := by
  simp only [TableSchema.Owns, schema_indexes, Site.InTable, List.mem_cons, List.not_mem_nil,
    or_false, exists_eq_left, indexTree_byDocument, indexTree_byHash,
    or_and_right, exists_or]
  rfl

theorem owns_site_iff {index : String} {site : Site} :
    (schema index).Owns (site.tree index) ↔ site.InTable := by
  rw [owns_iff]
  constructor
  · rintro ⟨site', hin, h⟩
    rwa [Site.tree_inj.1 h]
  · exact fun hin => ⟨site, hin, rfl⟩

theorem fits_toRow {index : String} {e : Entry} (h : e.document.length < Bytes.capacity 4) :
    (schema index).Fits e.etag.encode (toRow e) where
  key := rfl
  stored := by
    have height : 8 < Bytes.capacity 4 := by decide
    refine Row.encode_isOk_iff.2 ⟨?_, by simp [toRow, h, height]⟩
    show 3 < Bytes.capacity 4
    decide
  indexed i hi := by
    rw [schema_indexes] at hi
    rcases List.mem_pair.1 hi with rfl | rfl
    · exact ⟨e.document, rfl⟩
    · have hsize : e.hash.encode.length = 8 := e.hash.length_encode
      exact ⟨e.hash.encode, by simp [TableSchema.indexedValue, byHash, toRow, hsize]⟩

theorem length_of_fits {index : String} {key : Bytes} {e : Entry}
    (h : (schema index).Fits key (toRow e)) : e.document.length < Bytes.capacity 4 :=
  (Row.encode_isOk_iff.1 h.stored).2 e.document (by simp [toRow])

/-! ### The stored table -/

/-- The table of an index holds these mappings. -/
def Stores (index : String) (rows : Mappings) (s : Snapshot) : Prop :=
  (schema index).Holds (rowsOf rows) s

variable {index : String} {rows : Mappings} {s : Snapshot} {txn : Transaction}

/-- Entering a document under an etag that is not in use. -/
theorem exec_insert (h : Stores index rows txn.working) {etag : Etag} (hfree : rows etag = none)
    {m : Mapping} (hlen : m.document.length < Bytes.capacity 4) :
    ∃ txn', (insert index (entryOf etag m)).exec txn = (.ok (), txn') ∧
      Stores index (update rows etag (some m)) txn'.working ∧
      (schema index).Elsewhere txn.working txn'.working := by
  have hrow : rowsOf rows etag.encode = none := by rw [rowsOf_encode, hfree]; rfl
  obtain ⟨txn', hexec, hholds, helse⟩ :=
    TableSchema.exec_insert_of_fits (schema_distinct index) h
      (fits_toRow (e := entryOf etag m) hlen) hrow
  refine ⟨txn', hexec, ?_, helse⟩
  rw [Stores, rowsOf_update]
  exact hholds

/-- A document key that is too long is refused. -/
theorem exec_insert_of_long (h : Stores index rows txn.working) {e : Entry}
    (hlen : ¬ e.document.length < Bytes.capacity 4) :
    ∃ error, (insert index e).exec txn = (.error error, txn) :=
  TableSchema.exec_insert_of_not h fun ⟨_, hfits, _⟩ => hlen (length_of_fits hfits)

/-- Taking an entry out. -/
theorem exec_delete (h : Stores index rows txn.working) (etag : Etag) :
    ∃ txn', (delete index etag).exec txn = (.ok (rows etag).isSome, txn') ∧
      Stores index (update rows etag none) txn'.working ∧
      (schema index).Elsewhere txn.working txn'.working := by
  obtain ⟨txn', hexec, hholds, helse⟩ :=
    TableSchema.exec_delete (schema_distinct index) h etag.encode
  rw [rowsOf_encode, Option.isSome_map] at hexec
  refine ⟨txn', hexec, ?_, helse⟩
  rw [Stores, rowsOf_update]
  exact hholds

/-- **The entries of a document**, in the order of their etags. -/
theorem ofDocument_eq (h : Stores index rows s) {key : DocumentKey}
    (hlen : key.length < Bytes.capacity 4) :
    ∃ found, ofDocument index s key = .ok found ∧
      (∀ e, e ∈ found ↔ ∃ m, rows e.etag = some m ∧ m.document = key ∧ e = entryOf e.etag m) ∧
      found.Pairwise fun a b => a.etag.toNat < b.etag.toNat := by
  obtain ⟨lead, hlead⟩ := @IndexSchema.lead_isOk byDocument key hlen
  have hmem : byDocument ∈ (schema index).indexes := by simp [schema_indexes]
  have hindex : (schema index).index documentIndex = .ok byDocument := rfl
  obtain ⟨found, hseek, hfound, hasc⟩ := h.seek_eq hindex hmem trivial hlead
  -- every row that is found can be read back
  obtain ⟨entries, hentries, rfl⟩ : ∃ entries, found.mapM ofRow = .ok entries ∧
      found = entries.map toRow := by
    refine mapM_of_forms fun row hrow => ?_
    obtain ⟨_, hrows, -⟩ := (hfound row).1 hrow
    obtain ⟨etag, m, -, -, rfl⟩ := rowsOf_eq_some_iff.1 hrows
    exact ⟨_, rfl, ofRow_toRow _⟩
  refine ⟨entries, ?_, fun e => ?_, ?_⟩
  · rw [ofDocument, seek, hseek]
    exact hentries
  · have hmap : toRow e ∈ entries.map toRow ↔ e ∈ entries :=
      List.mem_map_of_injective fun _ _ => toRow_inj
    rw [← hmap, hfound]
    constructor
    · rintro ⟨_, hrows, rfl⟩
      obtain ⟨etag, m, -, hm, he⟩ := rowsOf_eq_some_iff.1 hrows
      cases toRow_inj he
      exact ⟨m, hm, rfl, rfl⟩
    · rintro ⟨m, hm, rfl, he⟩
      refine ⟨e.etag.encode, rowsOf_eq_some_iff.2 ⟨e.etag, m, rfl, hm, congrArg toRow he⟩, ?_⟩
      rw [he]
      rfl
  · refine (List.pairwise_map.1 hasc).imp fun {a b} hlt => ?_
    have hlt : compare a.etag.encode b.etag.encode = .lt := hlt
    rwa [Etag.compare_encode, Nat.compare_eq_lt] at hlt

/-- A document key that is too long has no entries that could be looked for. -/
theorem ofDocument_of_long {key : DocumentKey} (hlen : ¬ key.length < Bytes.capacity 4) :
    ∃ e, ofDocument index s key = .error e := by
  have hlead : byDocument.lead key = .error (.corrupted .indexValueTooLong) := if_neg hlen
  have hindex : (schema index).index documentIndex = .ok byDocument := rfl
  refine ⟨.storage (.corrupted .indexValueTooLong), ?_⟩
  rw [ofDocument, seek, TableSchema.seek, hindex]
  show (((byDocument.lead key >>= fun lead => _).mapError _) >>= fun rows => _) = _
  rw [hlead]
  rfl

/-- The keys of the table are etags. -/
def Keyed (index : String) (s : Snapshot) : Prop :=
  ∀ k v, s.cell (entryTable index) k = some v → ∃ etag : Etag, k = etag.encode

theorem Stores.keyed (h : Stores index rows s) : Keyed index s := by
  intro k v hv
  obtain ⟨row, hrow, -⟩ := (h.cell k v).1 hv
  obtain ⟨etag, m, rfl, -, -⟩ := rowsOf_eq_some_iff.1 hrow
  exact ⟨etag, rfl⟩

/-- The greatest etag in the table can be read. -/
theorem lastEtag?_isOk (htree : s.hasTree (entryTable index) = true) (hkeys : Keyed index s) :
    ∃ etag?, lastEtag? index s = .ok etag? := by
  have htable : s.hasTree (schema index).name = true := htree
  rw [lastEtag?, TableSchema.lastKey, Snapshot.last?_eq, if_pos htable]
  rcases hentry : (s.treeAt (schema index).name).last? with _ | ⟨key, stored⟩
  · exact ⟨none, rfl⟩
  · have hcell := Snapshot.mem_entries_treeAt.1 (OrderedMap.mem_of_last? hentry)
    obtain ⟨etag, rfl⟩ := hkeys key stored hcell
    have hread : (Etag.decode etag.encode).mapError IndexError.ofKeyWidth = .ok etag := by
      rw [Etag.decode_encode]
      rfl
    exact ⟨some etag, bind_eq_ok_iff.2 ⟨_, rfl, bind_eq_ok_iff.2 ⟨etag, hread, rfl⟩⟩⟩

/-- The greatest etag in the table has a row. -/
theorem mem_of_lastEtag? (h : Stores index rows s) {etag : Etag}
    (hlast : lastEtag? index s = .ok (some etag)) : ∃ m, rows etag = some m := by
  obtain ⟨key?, hkey, hlast⟩ := bind_eq_ok_iff.1 hlast
  rw [mapError_eq_ok_iff, TableSchema.lastKey, Snapshot.last?_eq, if_pos h.created] at hkey
  rcases hentry : (s.treeAt (schema index).name).last? with _ | ⟨key, stored⟩ <;>
    rw [hentry] at hkey <;> cases hkey
  · cases hlast
  · obtain ⟨found, hfound, hlast⟩ := bind_eq_ok_iff.1 hlast
    cases hlast
    rw [mapError_eq_ok_iff] at hfound
    -- an entry of the table is a row under its etag
    have hcell := Snapshot.mem_entries_treeAt.1 (OrderedMap.mem_of_last? hentry)
    obtain ⟨row, hrow, -⟩ := (h.cell key stored).1 hcell
    obtain ⟨etag', m, rfl, hm, -⟩ := rowsOf_eq_some_iff.1 hrow
    have hsame : Etag.decode etag'.encode = .ok etag := hfound
    rw [Etag.decode_encode] at hsame
    cases hsame
    exact ⟨m, hm⟩

/-- **The hashes that occur.** -/
theorem hashes_eq (h : Stores index rows s) :
    ∃ found, hashes index s = .ok found ∧
      (∀ hash, hash ∈ found ↔ ∃ etag m, rows etag = some m ∧ m.hash = hash) ∧ found.Nodup := by
  have hmem : byHash ∈ (schema index).indexes := by simp [schema_indexes]
  have hindex : (schema index).index hashIndex = .ok byHash := rfl
  obtain ⟨values, hscan, hvalues, hasc⟩ := h.scan_eq hindex hmem
  have hvalues : ∀ value, value ∈ values ↔
      ∃ etag m, rows etag = some m ∧ m.hash.encode = value := fun value => by
    rw [hvalues]
    constructor
    · rintro ⟨_, row, hrows, rfl⟩
      obtain ⟨etag, m, -, hm, rfl⟩ := rowsOf_eq_some_iff.1 hrows
      exact ⟨etag, m, hm, rfl⟩
    · rintro ⟨etag, m, hm, rfl⟩
      exact ⟨_, _, rowsOf_eq_some_iff.2 ⟨etag, m, rfl, hm, rfl⟩, rfl⟩
  -- every value that is found is a hash
  obtain ⟨found, hfound, rfl⟩ : ∃ found, values.mapM
      (fun value => (GroupHash.decode value).mapError IndexError.ofKeyWidth) = .ok found ∧
        values = found.map GroupHash.encode := by
    refine mapM_of_forms fun value hvalue => ?_
    obtain ⟨etag, m, -, rfl⟩ := (hvalues value).1 hvalue
    exact ⟨m.hash, rfl, by rw [GroupHash.decode_encode]; rfl⟩
  refine ⟨found, ?_, fun hash => ?_, ?_⟩
  · rw [hashes, hscan]
    exact hfound
  · have hmap : hash.encode ∈ found.map GroupHash.encode ↔ hash ∈ found :=
      List.mem_map_of_injective fun _ _ => GroupHash.encode_inj.1
    rw [← hmap, hvalues]
    exact exists₂_congr fun _ _ => and_congr_right fun _ => GroupHash.encode_inj
  · refine (List.pairwise_map.1 hasc).imp fun {a b} hlt e => ?_
    rw [e] at hlt
    simp at hlt

end EntryTable

end Rollup
