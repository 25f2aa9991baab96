import Rollup.Proofs.Storage.FiniteMap

/-!
# Seeking — what an index finds under a key of any length

An entry of a fixed-size index is the value of its row and the primary key behind it, with no length
in front.  A key that is too short begins the entries of many values, and one that is too long goes
on into the primary keys.  A row comes up under a key if one of its entries in the tree of the index
begins with it (`ComesUp`).

* Seeking finds the rows behind the entries that begin with the key (`Backed.seek_found`), so all of
  them come up under it (`Backed.comesUp_of_cell`).
* An index that has its name for itself finds every row that comes up, in the order of the entries:
  the first bytes of the key, as many as the index takes, begin the value of the row, and the others
  its primary key (`Backed.mem_found_iff`, `Backed.found_ascending`).

**Seeking at any length** (`seek_comes_up`).  All that such an index finds are rows of the value if
the key has its size, and otherwise rows of other values.  Whatever the names of the indexes, no run
finds a row of another value if and only if the table takes no row of another value that comes up.
-/

namespace Rollup

namespace TableSchema

open Rollup.Action Function

/-- A row has an entry in the tree of the index that begins with these bytes. -/
def ComesUp (table : TableSchema) (index : IndexSchema) (row : Row) (lead : Bytes) : Prop :=
  ∃ entry, table.Marks table.indexes row (row.column table.primaryKey) (table.indexTree index)
    entry ∧ lead <+: entry

variable {table : TableSchema} {rows : Bytes → Option Row} {s : Snapshot}
  {name : String} {index : IndexSchema} {size : Nat} {value : Bytes}

/-! ### What is found -/

/-- What stands in the tree is an entry of a row, so the row comes up. -/
theorem Backed.comesUp_of_cell (h : table.Backed rows s) (hi : index ∈ table.indexes)
    {entry key : Bytes} {row : Row} (hcell : s.cell (table.indexTree index) entry = some key)
    (hrow : rows key = some row) (hbegins : value <+: entry) : table.ComesUp index row value := by
  obtain ⟨row', hrow', hmark⟩ := h.marked index hi entry key hcell
  rw [hrow] at hrow'
  cases hrow'
  rw [← (h.fits hrow).column_primaryKey] at hmark
  exact ⟨entry, hmark, hbegins⟩

/-- In the tree of an index that shares it with no other stand its own entries. -/
theorem Backed.cell_iff (h : table.Backed rows s) (hi : index ∈ table.indexes)
    (hkind : index.kind = .fixed size) (hsole : table.Sole index) {entry key : Bytes} :
    s.cell (table.indexTree index) entry = some key ↔
      ∃ row, rows key = some row ∧ entry = row.column index.column ++ key := by
  constructor
  · intro hcell
    obtain ⟨row, hrow, hmark⟩ := h.marked index hi entry key hcell
    have he := (marks_indexTree_iff hsole hi).1 hmark
    rw [IndexSchema.entry_of_fixed hkind] at he
    cases he
    exact ⟨row, hrow, rfl⟩
  · rintro ⟨row, hrow, rfl⟩
    exact h.entered index hi hsole _ key row hrow (IndexSchema.entry_of_fixed hkind _ _)

section

variable (h : table.Backed rows s) (hname : table.index name = .ok index)
  (hkind : index.kind = .fixed size)

include h hname hkind

theorem Backed.seek_of_fixed (value : Bytes) : table.seek s name value =
    .ok (((s.treeAt (table.indexTree index)).entries.filter fun e => value.isPrefixOf e.1).map
      fun e => (rows e.2).getD ⟨[]⟩) :=
  h.seek_eq_map hname (mem_of_index hname) (IndexSchema.lead_of_fixed hkind value)

/-- **Seeking** finds the rows behind the entries that begin with the key. -/
theorem Backed.seek_found (value : Bytes) :
    ∃ found, table.seek s name value = .ok found ∧
      ∀ row, row ∈ found ↔ ∃ entry key, s.cell (table.indexTree index) entry = some key ∧
        value <+: entry ∧ rows key = some row := by
  refine ⟨_, h.seek_of_fixed hname hkind value, fun row => ?_⟩
  simp only [List.mem_map, List.mem_filter, Snapshot.mem_entries_treeAt, List.isPrefixOf_iff_prefix]
  constructor
  · rintro ⟨e, ⟨hcell, hbegins⟩, rfl⟩
    obtain ⟨row, hrow, -⟩ := h.marked index (mem_of_index hname) _ _ hcell
    exact ⟨e.1, e.2, hcell, hbegins, by rw [hrow]; rfl⟩
  · rintro ⟨entry, key, hcell, hbegins, hrow⟩
    exact ⟨(entry, key), ⟨hcell, hbegins⟩, by rw [hrow]; rfl⟩

/-- What is found is there, and comes up. -/
theorem Backed.of_mem_found {found : List Row} (hfound : table.seek s name value = .ok found)
    {row : Row} (hrow : row ∈ found) :
    ∃ key, rows key = some row ∧ table.Fits key row ∧ table.ComesUp index row value := by
  obtain ⟨found', hfound', hmem⟩ := h.seek_found hname hkind value
  rw [hfound] at hfound'
  cases hfound'
  obtain ⟨entry, key, hcell, hbegins, hkey⟩ := (hmem row).1 hrow
  exact ⟨key, hkey, h.fits hkey, h.comesUp_of_cell (mem_of_index hname) hcell hkey hbegins⟩

section

variable (hsole : table.Sole index) {found : List Row}
  (hfound : table.seek s name value = .ok found)

include hsole hfound

/-- **An index that has its name for itself** finds all that comes up: the first bytes of the key
begin the value, and the others the primary key. -/
theorem Backed.mem_found_iff (row : Row) : row ∈ found ↔ ∃ key, rows key = some row ∧
    value.take size <+: row.column index.column ∧ value.drop size <+: key := by
  have hi := mem_of_index hname
  -- what begins the entry of a row, seen from its value and its key
  have hentry : ∀ {key row}, rows key = some row → (value <+: row.column index.column ++ key ↔
      value.take size <+: row.column index.column ∧ value.drop size <+: key) := fun hrow => by
    rw [Bytes.isPrefix_append_iff, (h.fits hrow).length_column hi hkind]
  obtain ⟨found', hfound', hmem⟩ := h.seek_found hname hkind value
  rw [hfound] at hfound'
  cases hfound'
  rw [hmem]
  constructor
  · rintro ⟨entry, key, hcell, hbegins, hrow⟩
    obtain ⟨row', hrow', rfl⟩ := (h.cell_iff hi hkind hsole).1 hcell
    rw [hrow] at hrow'
    cases hrow'
    exact ⟨key, hrow, (hentry hrow).1 hbegins⟩
  · rintro ⟨key, hrow, hbegins⟩
    exact ⟨_, key, (h.cell_iff hi hkind hsole).2 ⟨row, hrow, rfl⟩, (hentry hrow).2 hbegins, hrow⟩

theorem Backed.found_ascending :
    found.Pairwise fun a b => compare (a.column index.column ++ a.column table.primaryKey)
      (b.column index.column ++ b.column table.primaryKey) = .lt := by
  have hentry : ∀ {e}, e ∈ (s.treeAt (table.indexTree index)).entries → ∃ row,
      rows e.2 = some row ∧ e.1 = row.column index.column ++ row.column table.primaryKey := by
    intro e he
    obtain ⟨row, hrow, heq⟩ := (h.cell_iff (mem_of_index hname) hkind hsole).1
      (Snapshot.mem_entries_treeAt.1 he)
    exact ⟨row, hrow, by rw [heq, (h.fits hrow).column_primaryKey]⟩
  rw [h.seek_of_fixed hname hkind] at hfound
  cases hfound
  refine List.pairwise_map.2 (((s.treeAt _).ascending.filter _).imp_of_mem fun ha hb hlt => ?_)
  obtain ⟨row, hrow, hea⟩ := hentry (List.mem_of_mem_filter ha)
  obtain ⟨row', hrow', heb⟩ := hentry (List.mem_of_mem_filter hb)
  rw [hea, heb] at hlt
  rw [hrow, hrow']
  exact hlt

/-- Rows of the value, and no others, are found under a key of the right size; under any other there
are none of the value. -/
theorem Backed.forall_found_iff :
    (∀ row ∈ found, row.column index.column = value) ↔ value.length = size ∨ found = [] := by
  have hlength : ∀ row ∈ found, (row.column index.column).length = size := fun row hrow => by
    obtain ⟨key, -, hfits, -⟩ := h.of_mem_found hname hkind hfound hrow
    exact hfits.length_column (mem_of_index hname) hkind
  constructor
  · intro hvalues
    refine or_iff_not_imp_right.2 fun hne => ?_
    obtain ⟨row, hrow⟩ := List.exists_mem_of_ne_nil found hne
    rw [← hvalues row hrow, hlength row hrow]
  · rintro (hsize | rfl) row hrow
    · obtain ⟨-, -, hbegins, -⟩ := (h.mem_found_iff hname hkind hsole hfound row).1 hrow
      rw [List.take_of_length_le hsize.le] at hbegins
      exact (hbegins.eq_of_length (hsize.trans (hlength row hrow).symm)).symm
    · cases hrow

end

end

/-! ### Runs -/

section

variable {created : Transaction}
  (h : table.Backed (OrderedMap.empty : OrderedMap Bytes Row).get? created.working)
  (hname : table.index name = .ok index) (hkind : index.kind = .fixed size)

include h hname hkind

/-- A row that the table takes is found right after its insertion into the empty table. -/
theorem exists_found_of_comesUp {row : Row} (hcomplete : table.Complete row)
    (hstorable : row.Storable) (hup : table.ComesUp index row value) :
    ∃ found, table.seek (table.run created [.insert row]).txn.working name value = .ok found ∧
      row ∈ found := by
  obtain ⟨entry, hmark, hbegins⟩ := hup
  obtain ⟨txn, hexec, hbacked, -, hmarks⟩ :=
    h.exec_insert (fits_of_complete hcomplete hstorable) (OrderedMap.get?_empty _)
  have hrun : (table.run created [.insert row]).txn = txn := by
    rw [run, List.foldl_cons, List.foldl_nil, step, hexec]
  obtain ⟨found, hfound, hmem⟩ := hbacked.seek_found hname hkind value
  rw [hrun]
  exact ⟨found, hfound, (hmem row).2 ⟨entry, _, hmarks _ _ hmark, hbegins, update_self ..⟩⟩

/-- No run finds a row of another value just when the table takes no such row that comes up. -/
theorem forall_run_found_iff :
    (∀ calls found, table.seek (table.run created calls).txn.working name value = .ok found →
      ∀ row ∈ found, row.column index.column = value) ↔
    ∀ row, table.Complete row → row.Storable → table.ComesUp index row value →
      row.column index.column = value := by
  constructor
  · intro hnever row hcomplete hstorable hup
    obtain ⟨found, hfound, hrow⟩ := exists_found_of_comesUp h hname hkind hcomplete hstorable hup
    exact hnever _ found hfound row hrow
  · intro hno calls found hfound row hrow
    have hbacked := @backed_run table calls ⟨created, .empty⟩ h
    obtain ⟨key, -, hfits, hup⟩ := hbacked.of_mem_found hname hkind hfound hrow
    exact hno row hfits.complete hfits.storable hup

end

/-- **Seeking at any length.**  Take a table that was created where nothing was in its place, and
any calls through it.  Seeking a fixed-size index answers rows of the table that come up under the
key.  If the index has its name for itself, these are all rows whose value begins with the first
bytes of the key, as many as the size says, and whose primary key begins with the others; they have
the value just when the key has the size, or nothing is found.  Under any names, no run finds a row
of another value just when the table takes no such row that comes up. -/
theorem seek_comes_up {table : TableSchema} {txn : Transaction}
    (hempty : ∀ tree, table.Owns tree → ∀ key, txn.working.cell tree key = none)
    {name : String} {index : IndexSchema} {size : Nat} (hname : table.index name = .ok index)
    (hkind : index.kind = .fixed size) (value : Bytes) :
    ∃ created, table.create.exec txn = (.ok (), created) ∧
      (∀ calls, ∃ found,
        table.seek (table.run created calls).txn.working name value = .ok found ∧
        (∀ row ∈ found, (∃ key, (table.run created calls).rows.get? key = some row) ∧
          (row.column index.column).length = size ∧ table.ComesUp index row value) ∧
        (table.Sole index →
          (∀ row, row ∈ found ↔ ∃ key, (table.run created calls).rows.get? key = some row ∧
            value.take size <+: row.column index.column ∧ value.drop size <+: key) ∧
          (found.Pairwise fun a b => compare (a.column index.column ++ a.column table.primaryKey)
            (b.column index.column ++ b.column table.primaryKey) = .lt) ∧
          ((∀ row ∈ found, row.column index.column = value) ↔
            value.length = size ∨ found = []))) ∧
      ((∀ calls found,
          table.seek (table.run created calls).txn.working name value = .ok found →
            ∀ row ∈ found, row.column index.column = value) ↔
        ∀ row, table.Complete row → row.Storable → table.ComesUp index row value →
          row.column index.column = value) := by
  obtain ⟨created, hcreate, hholds, -, -⟩ := exec_create table txn hempty
  have hstart : table.Backed (OrderedMap.empty : OrderedMap Bytes Row).get? created.working :=
    hholds.backed
  refine ⟨created, hcreate, fun calls => ?_, forall_run_found_iff hstart hname hkind⟩
  have hbacked := @backed_run table calls ⟨created, .empty⟩ hstart
  obtain ⟨found, hfound, -⟩ := hbacked.seek_found hname hkind value
  refine ⟨found, hfound, fun row hrow => ?_, fun hsole => ?_⟩
  · obtain ⟨key, hkey, hfits, hup⟩ := hbacked.of_mem_found hname hkind hfound hrow
    exact ⟨⟨key, hkey⟩, hfits.length_column (mem_of_index hname) hkind, hup⟩
  · exact ⟨hbacked.mem_found_iff hname hkind hsole hfound,
      hbacked.found_ascending hname hkind hsole hfound,
      hbacked.forall_found_iff hname hkind hsole hfound⟩

/-- Years have two bytes.  One byte finds the people of several years, and a third byte behind a
year leaves those whose number begins with it. -/
theorem seek_comes_up_of_year :
    let calls : List Call := [.insert ⟨[[1, 5], [79], [7, 229]]⟩, .insert ⟨[[2], [79], [7, 229]]⟩,
      .commit, .insert ⟨[[3], [80], [7, 230]]⟩, .insert ⟨[[4], [80], [7]]⟩, .delete [9]]
    (∀ tree, people.Owns tree → ∀ key, (Transaction.on .empty).working.cell tree key = none) ∧
    people.index "by_year" = .ok ⟨"by_year", 2, .fixed 2⟩ ∧
    people.Sole ⟨"by_year", 2, .fixed 2⟩ ∧
    ∃ created, people.create.exec (.on .empty) = (.ok (), created) ∧
      people.seek (people.run created calls).txn.working "by_year" [7] =
        .ok [⟨[[1, 5], [79], [7, 229]]⟩, ⟨[[2], [79], [7, 229]]⟩, ⟨[[3], [80], [7, 230]]⟩] ∧
      people.seek (people.run created calls).txn.working "by_year" [7, 229, 1] =
        .ok [⟨[[1, 5], [79], [7, 229]]⟩] ∧
      (∃ found, people.seek (people.run created calls).txn.working "by_year" [7, 229] = .ok found ∧
        ∀ row ∈ found, row.column 2 = [7, 229]) ∧
      ¬ ∀ row, people.Complete row → row.Storable →
        people.ComesUp ⟨"by_year", 2, .fixed 2⟩ row [7] → row.column 2 = [7] := by
  intro calls
  have hempty : ∀ tree, people.Owns tree → ∀ key,
      (Transaction.on .empty).working.cell tree key = none := fun _ _ _ => rfl
  have hname : people.index "by_year" = .ok ⟨"by_year", 2, .fixed 2⟩ := by decide
  have hsole : people.Sole ⟨"by_year", 2, .fixed 2⟩ := by
    show ∀ j ∈ people.indexes, j.name = "by_year" → j = ⟨"by_year", 2, .fixed 2⟩
    decide
  refine ⟨hempty, hname, hsole, ?_⟩
  obtain ⟨created, hcreate, hexact, -⟩ := seek_comes_up hempty hname rfl [7, 229]
  obtain ⟨created', hcreate', -, hnever⟩ := seek_comes_up hempty hname rfl [7]
  rw [hcreate] at hcreate'
  cases hcreate'
  obtain ⟨found, hfound, -, hall⟩ := hexact calls
  have hshort : people.seek (people.run created calls).txn.working "by_year" [7] =
      .ok [⟨[[1, 5], [79], [7, 229]]⟩, ⟨[[2], [79], [7, 229]]⟩, ⟨[[3], [80], [7, 230]]⟩] := by
    cases hcreate
    decide
  have hlong : people.seek (people.run created calls).txn.working "by_year" [7, 229, 1] =
      .ok [⟨[[1, 5], [79], [7, 229]]⟩] := by
    cases hcreate
    decide
  refine ⟨created, hcreate, hshort, hlong, ⟨found, hfound, (hall hsole).2.2.2 (.inl rfl)⟩, ?_⟩
  rw [← hnever]
  intro h
  exact absurd (h calls _ hshort ⟨[[3], [80], [7, 230]]⟩ (by simp)) (by decide)

end TableSchema

end Rollup
