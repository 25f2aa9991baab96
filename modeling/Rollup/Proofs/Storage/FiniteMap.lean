import Rollup.Proofs.Storage.Table

/-!
# Tables as finite maps — every call and every reader

A run of insertions and deletions through a table, in one transaction or in several, is followed by
a finite map from primary keys to rows that only the successful calls change (`run`).  The table
answers as that map (`Serves`): reading, seeking and scanning show its rows, and an insertion is
refused for a column that is missing or of the wrong size, and for a key that is taken, and for
nothing else as long as the row can be stored.  `serves_run` says so for every run from the
creation of the table on; its invariant is `Backed`, kept by each call whatever the names of the
indexes (`backed_step`), and `Holds` where they are different.
-/

namespace Rollup

/-- A row whose columns, and their number, fit into four bytes. -/
def Row.Storable (row : Row) : Prop :=
  row.columns.length < Bytes.capacity 4 ∧
    ∀ column ∈ row.columns, column.length < Bytes.capacity 4

namespace TableSchema

open Rollup.Action Function

/-! ### Calls -/

/-- A call through a table, or the end of a transaction that is committed. -/
inductive Call where
  | insert (row : Row)
  | delete (key : Bytes)
  | commit

/-- A transaction, and the finite map that follows it. -/
structure Followed where
  txn : Transaction
  rows : OrderedMap Bytes Row

/-- One call.  The map changes only with a call that succeeds. -/
def step (table : TableSchema) (state : Followed) : Call → Followed
  | .insert row =>
    match (table.insert row).exec state.txn with
    | (.ok (), txn) => ⟨txn, state.rows.insert (row.column table.primaryKey) row⟩
    | (.error _, txn) => ⟨txn, state.rows⟩
  | .delete key =>
    match (table.delete key).exec state.txn with
    | (.ok _, txn) => ⟨txn, state.rows.erase key⟩
    | (.error _, txn) => ⟨txn, state.rows⟩
  | .commit => ⟨.on state.txn.working, state.rows⟩

/-- Calls one after the other, beginning with an empty map. -/
def run (table : TableSchema) (txn : Transaction) (calls : List Call) : Followed :=
  calls.foldl table.step ⟨txn, .empty⟩

/-! ### What an insertion asks of its row -/

/-- A row has the columns that the table needs, in the sizes that it needs. -/
structure Complete (table : TableSchema) (row : Row) : Prop where
  key : table.primaryKey < row.columns.length
  indexed : ∀ index ∈ table.indexes,
    index.column < row.columns.length ∧ index.Sized (row.column index.column)

variable {table : TableSchema} {row : Row}

theorem keyOf_of_lt (h : table.primaryKey < row.columns.length) :
    table.keyOf row = .ok (row.column table.primaryKey) := by
  rw [keyOf, Row.column, List.getElem?_eq_getElem h]
  rfl

theorem keyOf_of_le (h : row.columns.length ≤ table.primaryKey) :
    table.keyOf row = .error (.invalidRow table.name .noPrimaryKey) := by
  rw [keyOf, List.getElem?_eq_none h]

theorem indexedValue_of_sized {index : IndexSchema} (hlt : index.column < row.columns.length)
    (hsized : index.Sized (row.column index.column)) :
    table.indexedValue row index = .ok (row.column index.column) := by
  have hcolumn : row.columns[index.column]? = some (row.column index.column) := by
    rw [Row.column, List.getElem?_eq_getElem hlt]
    rfl
  rw [IndexSchema.Sized] at hsized
  rw [indexedValue, hcolumn]
  split
  · next hnone => cases hnone
  · next hvalue _ => exact congrArg Except.ok (Option.some.inj hvalue).symm
  · next size hvalue hkind =>
    cases hvalue
    rw [hkind] at hsized
    rw [if_pos hsized]

/-- A column that is missing, or has the wrong size, is the only complaint about a row. -/
theorem indexedValue_eq_error {index : IndexSchema} {e : StorageError}
    (h : table.indexedValue row index = .error e) : ∃ why, e = .invalidRow table.name why := by
  rw [indexedValue] at h
  split at h
  · cases h; exact ⟨_, rfl⟩
  · cases h
  · split at h
    · cases h
    · cases h; exact ⟨_, rfl⟩

theorem complete_iff : table.Complete row ↔
    (∃ key, table.keyOf row = .ok key) ∧
      ∃ values, table.indexes.mapM (table.indexedValue row) = .ok values := by
  rw [mapM_isOk_iff]
  constructor
  · rintro ⟨hkey, hindexed⟩
    refine ⟨⟨_, keyOf_of_lt hkey⟩, fun index hi => ⟨_, indexedValue_of_sized ?_ ?_⟩⟩
    · exact (hindexed index hi).1
    · exact (hindexed index hi).2
  · rintro ⟨⟨key, hkey⟩, hvalues⟩
    refine ⟨?_, fun index hi => ?_⟩
    · by_contra hle
      rw [keyOf_of_le (Nat.not_lt.1 hle)] at hkey
      cases hkey
    · obtain ⟨value, hvalue⟩ := hvalues index hi
      obtain ⟨hcolumn, -, hsized⟩ := column_of_indexedValue hvalue
      refine ⟨?_, hcolumn ▸ hsized⟩
      by_contra hle
      rw [indexedValue, List.getElem?_eq_none (Nat.not_lt.1 hle)] at hvalue
      cases hvalue

theorem fits_of_complete (h : table.Complete row) (hstorable : row.Storable) :
    table.Fits (row.column table.primaryKey) row where
  key := keyOf_of_lt h.key
  stored := Row.encode_isOk_iff.2 hstorable
  indexed index hi := ⟨_, indexedValue_of_sized (h.indexed index hi).1 (h.indexed index hi).2⟩

theorem Fits.complete {key : Bytes} (h : table.Fits key row) : table.Complete row :=
  complete_iff.2 ⟨⟨key, h.key⟩, mapM_isOk_iff.2 h.indexed⟩

theorem Fits.storable {key : Bytes} (h : table.Fits key row) : row.Storable :=
  Row.encode_isOk_iff.1 h.stored

/-! ### What an insertion answers -/

/-- The columns of a row are checked before anything else. -/
theorem exec_insert_of_not_complete (h : ¬ table.Complete row) (txn : Transaction) :
    ∃ why, (table.insert row).exec txn = (.error (.invalidRow table.name why), txn) := by
  rw [complete_iff, not_and_or] at h
  rw [TableSchema.insert]
  cases hkey : table.keyOf row with
  | error e =>
      have hwhy : e = .invalidRow table.name .noPrimaryKey := by
        rw [keyOf] at hkey
        split at hkey
        · cases hkey
        · cases hkey; rfl
      subst hwhy
      exact ⟨_, rfl⟩
  | ok key =>
      cases hvalues : table.indexes.mapM (table.indexedValue row) with
      | error e =>
          obtain ⟨index, -, hvalue⟩ := exists_of_mapM_eq_error hvalues
          obtain ⟨why, rfl⟩ := indexedValue_eq_error hvalue
          exact ⟨why, rfl⟩
      | ok values => exact absurd ⟨values, hvalues⟩ (h.resolve_left fun hno => hno ⟨key, hkey⟩)

variable {rows : OrderedMap Bytes Row} {s : Snapshot} {txn : Transaction}

/-- Behind the check of its columns, a row is refused for its key. -/
theorem exec_insert_of_taken (h : table.Backed rows.get? txn.working)
    (hcomplete : table.Complete row)
    (htaken : rows.contains (row.column table.primaryKey) = true) :
    (table.insert row).exec txn = (.error (.duplicateKey table.name), txn) := by
  obtain ⟨values, hvalues⟩ := (complete_iff.1 hcomplete).2
  obtain ⟨other, hother⟩ := Option.isSome_iff_exists.1 htaken
  obtain ⟨stored, -, hcell⟩ := h.cell_of_some hother
  rw [TableSchema.insert, keyOf_of_lt hcomplete.key, exec_bind_ok (exec_lift _ _), hvalues,
    exec_bind_ok (exec_lift _ _), exec_bind_ok (h.exec_lookup _), hcell]
  rfl

theorem exec_insert_of_not_storable (h : table.Backed rows.get? txn.working)
    (hcomplete : table.Complete row) (hfree : rows.contains (row.column table.primaryKey) = false)
    (hlong : ¬ row.Storable) :
    ∃ damage, (table.insert row).exec txn = (.error (.corrupted damage), txn) := by
  obtain ⟨values, hvalues⟩ := (complete_iff.1 hcomplete).2
  have hnone := h.cell_of_none (Option.isSome_eq_false_iff.1 hfree |> Option.isNone_iff_eq_none.1)
  rw [TableSchema.insert, keyOf_of_lt hcomplete.key, exec_bind_ok (exec_lift _ _), hvalues,
    exec_bind_ok (exec_lift _ _), exec_bind_ok (h.exec_lookup _), hnone]
  cases hstored : row.encode with
  | error damage => exact ⟨damage, rfl⟩
  | ok stored => exact absurd (Row.encode_isOk_iff.1 ⟨stored, hstored⟩) hlong

theorem update_get? (rows : OrderedMap Bytes Row) (key : Bytes) (row : Row) :
    update rows.get? key (some row) = (rows.insert key row).get? := by
  funext k
  rw [OrderedMap.get?_insert, update_apply]

theorem update_get?_none (rows : OrderedMap Bytes Row) (key : Bytes) :
    update rows.get? key none = (rows.erase key).get? := by
  funext k
  rw [OrderedMap.get?_erase, update_apply]

/-- **An insertion** succeeds just when the row is complete, its key is free and it can be stored;
it is then in the map.  Otherwise it says which of them fails, and the transaction is unchanged. -/
theorem exec_insert_cases (h : table.Backed rows.get? txn.working) (row : Row) :
    (¬ table.Complete row ∧
      ∃ why, (table.insert row).exec txn = (.error (.invalidRow table.name why), txn)) ∨
    (table.Complete row ∧ rows.contains (row.column table.primaryKey) = true ∧
      (table.insert row).exec txn = (.error (.duplicateKey table.name), txn)) ∨
    (table.Complete row ∧ rows.contains (row.column table.primaryKey) = false ∧ ¬ row.Storable ∧
      ∃ damage, (table.insert row).exec txn = (.error (.corrupted damage), txn)) ∨
    (table.Complete row ∧ rows.contains (row.column table.primaryKey) = false ∧ row.Storable ∧
      ∃ txn', (table.insert row).exec txn = (.ok (), txn') ∧
        table.Backed (rows.insert (row.column table.primaryKey) row).get? txn'.working) := by
  by_cases hcomplete : table.Complete row
  · cases hkey : rows.contains (row.column table.primaryKey) with
    | true => exact .inr (.inl ⟨hcomplete, rfl, exec_insert_of_taken h hcomplete hkey⟩)
    | false =>
        by_cases hstorable : row.Storable
        · have hfree : rows.get? (row.column table.primaryKey) = none :=
            Option.isNone_iff_eq_none.1 (Option.isSome_eq_false_iff.1 hkey)
          obtain ⟨txn', hexec, hbacked, -⟩ :=
            h.exec_insert (fits_of_complete hcomplete hstorable) hfree
          rw [update_get?] at hbacked
          exact .inr (.inr (.inr ⟨hcomplete, rfl, hstorable, txn', hexec, hbacked⟩))
        · exact .inr (.inr (.inl ⟨hcomplete, rfl, hstorable,
            exec_insert_of_not_storable h hcomplete hkey hstorable⟩))
  · exact .inl ⟨hcomplete, exec_insert_of_not_complete hcomplete txn⟩

/-! ### What a table shows -/

/-- The table of a transaction answers as a finite map of rows. -/
structure Serves (table : TableSchema) (rows : OrderedMap Bytes Row) (txn : Transaction) :
    Prop where
  lookup : ∀ key, table.lookup txn.working key = .ok (rows.get? key)
  size : table.size txn.working = rows.size
  lastKey : table.lastKey txn.working = .ok (rows.last?.map (·.1))
  seek : ∀ index ∈ table.indexes, ∀ value, value.length < Bytes.capacity 4 → index.Sized value →
    table.seek txn.working index.name value =
      .ok ((rows.entries.filter fun e => e.2.column index.column == value).map (·.2))
  scan : ∀ index ∈ table.indexes, ∃ values, table.scan txn.working index.name = .ok values ∧
    (∀ value, value ∈ values ↔
      ∃ key row, rows.get? key = some row ∧ row.column index.column = value) ∧
    values.Pairwise fun a b => compare a b = .lt
  insert_invalid : ∀ row, (∃ why, ((table.insert row).exec txn).1 =
    .error (.invalidRow table.name why)) ↔ ¬ table.Complete row
  insert_taken : ∀ row, ((table.insert row).exec txn).1 = .error (.duplicateKey table.name) ↔
    table.Complete row ∧ rows.contains (row.column table.primaryKey) = true
  insert_ok : ∀ row, row.Storable → (((table.insert row).exec txn).1 = .ok () ↔
    table.Complete row ∧ rows.contains (row.column table.primaryKey) = false)
  insert_failed : ∀ row e, ((table.insert row).exec txn).1 = .error e →
    ((table.insert row).exec txn).2 = txn
  delete : ∀ key, ((table.delete key).exec txn).1 = .ok (rows.contains key)

/-- The keys of the table's own tree are those of the map. -/
theorem Holds.keys_eq (h : table.Holds rows.get? s) : (s.treeAt table.name).keys = rows.keys := by
  refine OrderedMap.eq_of_ascending (f := id) (OrderedMap.keys_ascending _)
    (OrderedMap.keys_ascending _) fun key => ?_
  rw [OrderedMap.mem_keys_iff, OrderedMap.mem_keys_iff, Snapshot.get?_treeAt]
  cases hrow : rows.get? key with
  | none => simp [h.backed.cell_of_none hrow]
  | some row =>
      obtain ⟨stored, -, hcell⟩ := h.backed.cell_of_some hrow
      simp [hcell]

theorem Holds.size_eq (h : table.Holds rows.get? s) : table.size s = rows.size := by
  have hkeys := congrArg List.length h.keys_eq
  rw [OrderedMap.keys, OrderedMap.keys, List.length_map, List.length_map] at hkeys
  rw [TableSchema.size, Snapshot.treeSize_eq]
  exact hkeys

theorem Holds.lastKey_eq (h : table.Holds rows.get? s) :
    table.lastKey s = .ok (rows.last?.map (·.1)) := by
  have hkeys := congrArg List.getLast? h.keys_eq
  rw [OrderedMap.keys, OrderedMap.keys, List.getLast?_map, List.getLast?_map] at hkeys
  rw [lastKey, Snapshot.last?_eq, if_pos h.created]
  exact congrArg Except.ok hkeys

theorem mem_of_index {name : String} {index : IndexSchema} (h : table.index name = .ok index) :
    index ∈ table.indexes := by
  rw [TableSchema.index] at h
  split at h
  · next hfound => cases h; exact List.mem_of_find?_eq_some hfound
  · cases h

/-- The index of a name, where the names are different. -/
theorem index_of_mem (hd : table.Distinct) {index : IndexSchema} (hi : index ∈ table.indexes) :
    table.index index.name = .ok index := by
  have hfind : table.indexes.find? (fun i => i.name == index.name) = some index := by
    cases hfound : table.indexes.find? (fun i => i.name == index.name) with
    | none => simpa using List.find?_eq_none.1 hfound index hi
    | some other =>
        have hname : other.name = index.name := by simpa using List.find?_some hfound
        exact congrArg some (hd.sole hi other (List.mem_of_find?_eq_some hfound) hname)
  rw [TableSchema.index, hfind]

/-- **Seeking** answers the rows of the map that carry the value, in key order. -/
theorem Holds.seek_eq_filter (hd : table.Distinct) (h : table.Holds rows.get? s)
    {index : IndexSchema} (hi : index ∈ table.indexes) {value : Bytes}
    (hlen : value.length < Bytes.capacity 4) (hsized : index.Sized value) :
    table.seek s index.name value =
      .ok ((rows.entries.filter fun e => e.2.column index.column == value).map (·.2)) := by
  obtain ⟨lead, hlead⟩ := @IndexSchema.lead_isOk index _ hlen
  obtain ⟨found, hfound, hmem, hasc⟩ := h.seek_eq (index_of_mem hd hi) hi hsized hlead
  rw [hfound]
  refine congrArg Except.ok (OrderedMap.eq_of_ascending hasc ?_ fun row => ?_)
  · refine List.pairwise_map.2 ((rows.ascending.filter _).imp_of_mem fun {a b} ha hb hlt => ?_)
    have ha := h.fits (OrderedMap.get?_eq_some_iff.2 (List.mem_of_mem_filter ha))
    have hb := h.fits (OrderedMap.get?_eq_some_iff.2 (List.mem_of_mem_filter hb))
    rwa [ha.column_primaryKey, hb.column_primaryKey]
  · simp only [hmem, OrderedMap.get?_eq_some_iff, List.mem_map, List.mem_filter, beq_iff_eq]
    constructor
    · rintro ⟨key, hrow, hcolumn⟩
      exact ⟨(key, row), ⟨hrow, hcolumn⟩, rfl⟩
    · rintro ⟨e, ⟨he, hcolumn⟩, rfl⟩
      exact ⟨e.1, he, hcolumn⟩

/-- **The trees of a table** make it answer as the map that they store. -/
theorem Holds.serves (hd : table.Distinct) (h : table.Holds rows.get? txn.working) :
    table.Serves rows txn where
  lookup := h.backed.lookup_eq
  size := h.size_eq
  lastKey := h.lastKey_eq
  seek index hi value hlen hsized := h.seek_eq_filter hd hi hlen hsized
  scan index hi := h.scan_eq (index_of_mem hd hi) hi
  insert_invalid row := by
    rcases exec_insert_cases h.backed row with ⟨hno, why, hexec⟩ | ⟨hcomplete, -, hexec⟩ |
      ⟨hcomplete, -, -, damage, hexec⟩ | ⟨hcomplete, -, -, txn', hexec, -⟩ <;> rw [hexec]
    · exact iff_of_true ⟨why, rfl⟩ hno
    all_goals exact iff_of_false (fun ⟨_, he⟩ => (by cases he)) (not_not.2 hcomplete)
  insert_taken row := by
    rcases exec_insert_cases h.backed row with ⟨hno, why, hexec⟩ | ⟨hcomplete, hkey, hexec⟩ |
      ⟨-, hkey, -, damage, hexec⟩ | ⟨-, hkey, -, txn', hexec, -⟩ <;> rw [hexec]
    · exact iff_of_false (fun he => (by cases he)) fun hall => hno hall.1
    · exact iff_of_true rfl ⟨hcomplete, hkey⟩
    all_goals exact iff_of_false (fun he => (by cases he)) fun hall => by simp [hkey] at hall
  insert_ok row hstorable := by
    rcases exec_insert_cases h.backed row with ⟨hno, why, hexec⟩ | ⟨-, hkey, hexec⟩ |
      ⟨-, -, hlong, -⟩ | ⟨hcomplete, hkey, -, txn', hexec, -⟩
    · rw [hexec]
      exact iff_of_false (fun he => (by cases he)) fun hall => hno hall.1
    · rw [hexec]
      exact iff_of_false (fun he => (by cases he)) fun hall => by simp [hkey] at hall
    · exact absurd hstorable hlong
    · rw [hexec]
      exact iff_of_true rfl ⟨hcomplete, hkey⟩
  insert_failed row e he := by
    rcases exec_insert_cases h.backed row with ⟨-, why, hexec⟩ | ⟨-, -, hexec⟩ |
      ⟨-, -, -, damage, hexec⟩ | ⟨-, -, -, txn', hexec, -⟩ <;> rw [hexec] at he ⊢
    cases he
  delete key := by
    obtain ⟨txn', hexec, -⟩ := exec_delete hd h key
    rw [hexec]
    rfl

/-! ### Runs -/

/-- **One call** keeps the map in step with the trees. -/
theorem backed_step {state : Followed} (h : table.Backed state.rows.get? state.txn.working)
    (call : Call) :
    table.Backed (table.step state call).rows.get? (table.step state call).txn.working := by
  cases call with
  | insert row =>
      rw [step]
      rcases exec_insert_cases h row with ⟨-, why, hexec⟩ | ⟨-, -, hexec⟩ |
        ⟨-, -, -, damage, hexec⟩ | ⟨-, -, -, txn', hexec, hbacked⟩
      · rw [hexec]; exact h
      · rw [hexec]; exact h
      · rw [hexec]; exact h
      · rw [hexec]; exact hbacked
  | delete key =>
      obtain ⟨txn', hexec, hbacked, -⟩ := h.exec_delete key
      rw [update_get?_none] at hbacked
      rw [step, hexec]
      exact hbacked
  | commit => exact h

theorem backed_run (calls : List Call) {state : Followed}
    (h : table.Backed state.rows.get? state.txn.working) :
    table.Backed (calls.foldl table.step state).rows.get?
      (calls.foldl table.step state).txn.working := by
  induction calls generalizing state with
  | nil => exact h
  | cons call calls ih => exact ih (backed_step h call)

theorem holds_run (hd : table.Distinct) (calls : List Call) {state : Followed}
    (h : table.Holds state.rows.get? state.txn.working) :
    table.Holds (calls.foldl table.step state).rows.get?
      (calls.foldl table.step state).txn.working :=
  (backed_run calls h.backed).holds hd

/-- **A table is a finite map with exact indexes.**  After its creation, where nothing was in its
place, and any calls through it, it answers as the map that the successful ones of them made. -/
theorem serves_run {table : TableSchema} (hd : table.Distinct) {txn : Transaction}
    (hempty : ∀ tree, table.Owns tree → ∀ key, txn.working.cell tree key = none)
    (calls : List Call) :
    ∃ created, table.create.exec txn = (.ok (), created) ∧
      table.Serves (table.run created calls).rows (table.run created calls).txn := by
  obtain ⟨created, hcreate, hholds, -, -⟩ := exec_create table txn hempty
  have hstart : table.Holds (OrderedMap.empty : OrderedMap Bytes Row).get? created.working := hholds
  exact ⟨created, hcreate, (@holds_run table hd calls ⟨created, .empty⟩ hstart).serves hd⟩

/-- People by their number, with the city they live in and the year they came. -/
def people : TableSchema :=
  ⟨"people", 0, [⟨"by_city", 1, .variable⟩, ⟨"by_year", 2, .fixed 2⟩]⟩

theorem serves_run_of_people :
    let calls : List Call := [.insert ⟨[[1], [79, 115], [7, 229]]⟩, .insert ⟨[[2], [79], [7, 230]]⟩,
      .commit, .insert ⟨[[1], [], [7, 231]]⟩, .insert ⟨[[3], [79]]⟩, .delete [1]]
    people.Distinct ∧ ∃ created, people.create.exec (.on .empty) = (.ok (), created) ∧
      people.Serves (people.run created calls).rows (people.run created calls).txn ∧
      (people.run created calls).rows.entries = [([2], ⟨[[2], [79], [7, 230]]⟩)] := by
  intro calls
  have hd : people.Distinct := by
    show (people.indexes.map (·.name)).Nodup
    decide
  obtain ⟨created, hcreate, hserves⟩ := @serves_run people hd (.on .empty) (fun _ _ _ => rfl) calls
  refine ⟨hd, created, hcreate, hserves, ?_⟩
  cases hcreate
  decide

end TableSchema

end Rollup
