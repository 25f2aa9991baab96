import Rollup.Proofs.Bytes
import Rollup.Proofs.Storage.Row
import Rollup.Storage.Table
import Mathlib.Data.List.Nodup

/-!
# Schemas — index entries and the rows that fit

The entries of an index tell the indexed value and the primary key (`entry_inj`), and the entries
of a value are those that begin with its lead (`lead_isPrefix_iff`).  A row fits a schema under a
key when it can be stored and carries a value for every index (`Fits`); `Marks` are the cells that
its entries take.
-/

namespace Rollup

namespace IndexSchema

/-- The values that an index takes. -/
def Sized (index : IndexSchema) (value : Bytes) : Prop :=
  match index.kind with
  | .variable => True
  | .fixed size => value.length = size

theorem lead_eq_ok_iff {index : IndexSchema} {value lead : Bytes} :
    index.lead value = .ok lead ↔ match index.kind with
      | .variable =>
        value.length < Bytes.capacity 4 ∧ lead = Bytes.bigEndian 4 value.length ++ value
      | .fixed _ => lead = value := by
  rw [IndexSchema.lead]
  rcases index.kind with _ | size
  · dsimp only
    split
    · next h => exact ⟨fun e => ⟨h, by cases e; rfl⟩, fun e => e.2 ▸ rfl⟩
    · next h => exact ⟨fun e => (by cases e), fun e => absurd e.1 h⟩
  · exact ⟨fun e => by cases e; rfl, fun e => e ▸ rfl⟩

theorem lead_isOk {index : IndexSchema} {value : Bytes} (h : value.length < Bytes.capacity 4) :
    ∃ lead, index.lead value = .ok lead := by
  rw [lead]
  split
  · exact ⟨_, rfl⟩
  · exact ⟨_, if_pos h⟩

theorem entry_eq_ok_iff {index : IndexSchema} {value key entry : Bytes} :
    index.entry value key = .ok entry ↔
      ∃ lead, index.lead value = .ok lead ∧ entry = lead ++ key := by
  rw [IndexSchema.entry, bind_eq_ok_iff]
  exact exists_congr fun _ => and_congr_right fun _ =>
    ⟨fun h => by cases h; rfl, fun h => h ▸ rfl⟩

theorem lead_of_fixed {index : IndexSchema} {size : Nat} (h : index.kind = .fixed size)
    (value : Bytes) : index.lead value = .ok value := by
  rw [lead_eq_ok_iff, h]

/-- A value of fixed size has no length in front. -/
theorem entry_of_fixed {index : IndexSchema} {size : Nat} (h : index.kind = .fixed size)
    (value key : Bytes) : index.entry value key = .ok (value ++ key) :=
  entry_eq_ok_iff.2 ⟨value, lead_of_fixed h value, rfl⟩

/-- An entry begins with the lead of no value but its own. -/
theorem lead_isPrefix_iff {index : IndexSchema} {x value lead lead' : Bytes}
    (hx : index.Sized x) (hv : index.Sized value) (hlead : index.lead x = .ok lead)
    (hlead' : index.lead value = .ok lead') (key : Bytes) : lead <+: lead' ++ key ↔ x = value := by
  constructor
  · rintro ⟨rest, h⟩
    rw [Sized] at hx hv
    rw [lead_eq_ok_iff] at hlead hlead'
    rcases hkind : index.kind with _ | size <;> simp only [hkind] at hx hv hlead hlead'
    · obtain ⟨hxlt, rfl⟩ := hlead
      obtain ⟨hvlt, rfl⟩ := hlead'
      rw [List.append_assoc, List.append_assoc] at h
      obtain ⟨hlength, h⟩ := List.append_inj h (by simp)
      exact (List.append_inj h (Bytes.bigEndian_inj hxlt hvlt hlength)).1
    · subst hlead hlead'
      exact (List.append_inj h (hx.trans hv.symm)).1
  · rintro rfl
    rw [hlead] at hlead'
    cases hlead'
    exact List.prefix_append _ _

/-- **An entry tells the value and the key it was made of.** -/
theorem entry_inj {index : IndexSchema} {value value' key key' entry : Bytes}
    (hv : index.Sized value) (hv' : index.Sized value')
    (h : index.entry value key = .ok entry) (h' : index.entry value' key' = .ok entry) :
    value = value' ∧ key = key' := by
  obtain ⟨lead, hlead, rfl⟩ := entry_eq_ok_iff.1 h
  obtain ⟨lead', hlead', e⟩ := entry_eq_ok_iff.1 h'
  obtain rfl : value = value' :=
    (lead_isPrefix_iff hv hv' hlead hlead' key').1 (e ▸ List.prefix_append _ _)
  rw [hlead] at hlead'
  cases hlead'
  exact ⟨rfl, List.append_cancel_left e⟩

/-- The value is read back from the entry. -/
theorem value?_of_entry {index : IndexSchema} {value key entry : Bytes} (hv : index.Sized value)
    (h : index.entry value key = .ok entry) : index.value? entry = some value := by
  obtain ⟨lead, hlead, rfl⟩ := entry_eq_ok_iff.1 h
  rw [lead_eq_ok_iff] at hlead
  rw [Sized] at hv
  rw [value?]
  rcases hkind : index.kind with _ | size <;> simp only [hkind] at hv hlead
  · obtain ⟨hlt, rfl⟩ := hlead
    rw [List.append_assoc, Bytes.cut?_append (Bytes.length_bigEndian 4 _)]
    simp only [Option.bind_eq_bind, Option.bind_some, Bytes.ofBigEndian_bigEndian hlt,
      Bytes.cut?_append rfl]
    rfl
  · subst hlead
    show (Bytes.cut? size (lead ++ key)).map (·.1) = _
    rw [Bytes.cut?_append hv]
    rfl

end IndexSchema

namespace TableSchema

/-! ### Trees -/

/-- Different indexes have different names. -/
def Distinct (table : TableSchema) : Prop := (table.indexes.map (·.name)).Nodup

/-- The trees of a table. -/
def Owns (table : TableSchema) (tree : String) : Prop :=
  tree = table.name ∨ ∃ index ∈ table.indexes, tree = table.indexTree index

theorem indexTree_ne_name (table : TableSchema) (index : IndexSchema) :
    table.indexTree index ≠ table.name := by
  intro h
  have := congrArg (·.length) h
  simp only [indexTree, String.length_append] at this
  have hslash : "/".length = 1 := rfl
  omega

theorem name_eq_of_indexTree {table : TableSchema} {i j : IndexSchema}
    (h : table.indexTree i = table.indexTree j) : i.name = j.name := by
  rw [indexTree, indexTree, String.append_assoc, String.append_assoc] at h
  exact String.append_right_inj _ |>.1 (String.append_right_inj _ |>.1 h)

/-- An index that shares its name, and with it its tree, with no other. -/
def Sole (table : TableSchema) (index : IndexSchema) : Prop :=
  ∀ j ∈ table.indexes, j.name = index.name → j = index

theorem Distinct.sole {table : TableSchema} (hd : table.Distinct) {index : IndexSchema}
    (hi : index ∈ table.indexes) : table.Sole index :=
  fun _ hj h => List.inj_on_of_nodup_map hd hj hi h

/-! ### Rows -/

theorem column_of_indexedValue {table : TableSchema} {row : Row} {index : IndexSchema}
    {value : Bytes} (h : table.indexedValue row index = .ok value) :
    row.column index.column = value ∧ value ∈ row.columns ∧ index.Sized value := by
  rw [indexedValue] at h
  split at h
  · cases h
  · next hcol hkind =>
    cases h
    exact ⟨by rw [Row.column, hcol]; rfl, List.mem_of_getElem? hcol,
      by rw [IndexSchema.Sized, hkind]; trivial⟩
  · next hcol hkind =>
    split at h
    · next hsize =>
      cases h
      exact ⟨by rw [Row.column, hcol]; rfl, List.mem_of_getElem? hcol,
        by rw [IndexSchema.Sized, hkind]; exact hsize⟩
    · cases h

/-- A row that can be stored under a key. -/
structure Fits (table : TableSchema) (key : Bytes) (row : Row) : Prop where
  key : table.keyOf row = .ok key
  stored : ∃ stored, row.encode = .ok stored
  indexed : ∀ index ∈ table.indexes, ∃ value, table.indexedValue row index = .ok value

namespace Fits

variable {table : TableSchema} {key : Bytes} {row : Row}

theorem column_primaryKey (h : table.Fits key row) : row.column table.primaryKey = key := by
  have hkey := h.key
  rw [keyOf] at hkey
  split at hkey
  · next hcol => cases hkey; rw [Row.column, hcol]; rfl
  · cases hkey

theorem indexedValue (h : table.Fits key row) {index : IndexSchema} (hi : index ∈ table.indexes) :
    table.indexedValue row index = .ok (row.column index.column) := by
  obtain ⟨value, hvalue⟩ := h.indexed index hi
  rw [hvalue, (column_of_indexedValue hvalue).1]

theorem sized (h : table.Fits key row) {index : IndexSchema} (hi : index ∈ table.indexes) :
    index.Sized (row.column index.column) :=
  (column_of_indexedValue (h.indexedValue hi)).2.2

theorem length_column (h : table.Fits key row) {index : IndexSchema} {size : Nat}
    (hi : index ∈ table.indexes) (hkind : index.kind = .fixed size) :
    (row.column index.column).length = size := by
  have hsized := h.sized hi
  rw [IndexSchema.Sized, hkind] at hsized
  exact hsized

theorem lead (h : table.Fits key row) {index : IndexSchema} (hi : index ∈ table.indexes) :
    ∃ lead, index.lead (row.column index.column) = .ok lead :=
  IndexSchema.lead_isOk
    ((Row.encode_isOk_iff.1 h.stored).2 _ (column_of_indexedValue (h.indexedValue hi)).2.1)

theorem entry (h : table.Fits key row) {index : IndexSchema} (hi : index ∈ table.indexes)
    (k : Bytes) : ∃ entry, index.entry (row.column index.column) k = .ok entry := by
  obtain ⟨lead, hlead⟩ := h.lead hi
  exact ⟨lead ++ k, IndexSchema.entry_eq_ok_iff.2 ⟨lead, hlead, rfl⟩⟩

end Fits

/-- The cells that the entries of a row take in the trees of some indexes. -/
def Marks (table : TableSchema) (indexes : List IndexSchema) (row : Row) (key : Bytes)
    (tree : String) (entry : Bytes) : Prop :=
  ∃ index ∈ indexes, tree = table.indexTree index ∧
    index.entry (row.column index.column) key = .ok entry

theorem not_marks_name (table : TableSchema) (row : Row) (key entry : Bytes) :
    ¬ table.Marks table.indexes row key table.name entry :=
  fun ⟨index, _, h, _⟩ => table.indexTree_ne_name index h.symm

theorem marks_indexTree_iff {table : TableSchema} {index : IndexSchema} (hsole : table.Sole index)
    (hi : index ∈ table.indexes) {row : Row} {key entry : Bytes} :
    table.Marks table.indexes row key (table.indexTree index) entry ↔
      index.entry (row.column index.column) key = .ok entry := by
  constructor
  · rintro ⟨j, hj, h, he⟩
    obtain rfl := hsole j hj (name_eq_of_indexTree h).symm
    exact he
  · exact fun he => ⟨index, hi, rfl, he⟩

end TableSchema

end Rollup
