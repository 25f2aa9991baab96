import Rollup.Proofs.Storage.Schema
import Rollup.Proofs.Storage.Transaction
import Mathlib.Logic.Function.Basic

/-!
# Tables — a finite map with its indexes

`Holds` says that the trees of a table store a map from primary keys to rows: the rows themselves,
and in each index tree an entry for every row and none besides.  Indexes of one name share a tree,
where a row may take the entry of another one away; `Backed` is what is left then, and for different
names the two say the same.

* Insertion and deletion are those of the map, and fail for the reasons that can be read off it;
  they change no tree of anybody else (`Backed.exec_insert`, `Backed.exec_delete`, with
  `Elsewhere`).
* `seek` answers the rows of a value in key order, `scan` the values that occur.
-/

namespace Rollup.TableSchema

open Rollup.Action Function

/-- The trees of the table store these rows. -/
structure Holds (table : TableSchema) (rows : Bytes → Option Row) (s : Snapshot) : Prop where
  created : s.hasTree table.name = true
  indexed : ∀ index ∈ table.indexes, s.hasTree (table.indexTree index) = true
  fits : ∀ {key row}, rows key = some row → table.Fits key row
  cell : ∀ key stored, s.cell table.name key = some stored ↔
    ∃ row, rows key = some row ∧ row.encode = .ok stored
  entry : ∀ index ∈ table.indexes, ∀ entry key,
    s.cell (table.indexTree index) entry = some key ↔
      ∃ row, rows key = some row ∧ index.entry (row.column index.column) key = .ok entry

/-- The trees of the table store these rows.  What an index tree holds are entries of theirs, and an
index that has its name for itself has them all. -/
structure Backed (table : TableSchema) (rows : Bytes → Option Row) (s : Snapshot) : Prop where
  created : s.hasTree table.name = true
  indexed : ∀ index ∈ table.indexes, s.hasTree (table.indexTree index) = true
  fits : ∀ {key row}, rows key = some row → table.Fits key row
  cell : ∀ key stored, s.cell table.name key = some stored ↔
    ∃ row, rows key = some row ∧ row.encode = .ok stored
  marked : ∀ index ∈ table.indexes, ∀ entry key,
    s.cell (table.indexTree index) entry = some key →
      ∃ row, rows key = some row ∧ table.Marks table.indexes row key (table.indexTree index) entry
  entered : ∀ index ∈ table.indexes, table.Sole index → ∀ entry key row, rows key = some row →
    index.entry (row.column index.column) key = .ok entry →
      s.cell (table.indexTree index) entry = some key

/-- Between two snapshots, nothing but the content of the table's trees has changed. -/
structure Elsewhere (table : TableSchema) (s t : Snapshot) : Prop where
  hasTree : ∀ n, t.hasTree n = s.hasTree n
  cell : ∀ n, ¬ table.Owns n → ∀ k, t.cell n k = s.cell n k

variable {table : TableSchema} {rows : Bytes → Option Row} {s t : Snapshot} {txn : Transaction}

theorem Holds.backed (h : table.Holds rows s) : table.Backed rows s where
  created := h.created
  indexed := h.indexed
  fits := h.fits
  cell := h.cell
  marked index hi entry key hcell := by
    obtain ⟨row, hrow, he⟩ := (h.entry index hi entry key).1 hcell
    exact ⟨row, hrow, index, hi, rfl, he⟩
  entered index hi _ entry key row hrow he := (h.entry index hi entry key).2 ⟨row, hrow, he⟩

theorem Backed.holds (hd : table.Distinct) (h : table.Backed rows s) : table.Holds rows s where
  created := h.created
  indexed := h.indexed
  fits := h.fits
  cell := h.cell
  entry index hi entry key := by
    constructor
    · intro hcell
      obtain ⟨row, hrow, hmark⟩ := h.marked index hi entry key hcell
      exact ⟨row, hrow, (marks_indexTree_iff (hd.sole hi) hi).1 hmark⟩
    · rintro ⟨row, hrow, he⟩
      exact h.entered index hi (hd.sole hi) entry key row hrow he

/-- Only the table's own trees matter. -/
theorem Holds.congr (h : table.Holds rows s)
    (htree : ∀ n, s.hasTree n = true → t.hasTree n = true)
    (hcell : ∀ n, table.Owns n → ∀ k, t.cell n k = s.cell n k) : table.Holds rows t where
  created := htree _ h.created
  indexed index hi := htree _ (h.indexed index hi)
  fits := h.fits
  cell key stored := by rw [hcell _ (.inl rfl), h.cell]
  entry index hi entry key := by rw [hcell _ (.inr ⟨index, hi, rfl⟩), h.entry index hi]

/-! ### Creation -/

theorem exec_createIndexes (table : TableSchema) (l : List IndexSchema) (txn : Transaction) :
    ∃ txn', (l.forM table.createIndex).exec txn = (.ok (), txn') ∧
      (∀ n k, txn'.working.cell n k = txn.working.cell n k) ∧
      ∀ n, txn'.working.hasTree n = true ↔
        txn.working.hasTree n = true ∨ ∃ index ∈ l, n = table.indexTree index := by
  induction l generalizing txn with
  | nil => exact ⟨txn, rfl, fun _ _ => rfl, by simp⟩
  | cons index l ih =>
      have hstep : (table.createIndex index).exec txn =
          (.ok (), txn.openedAt (table.indexTree index)) := by
        rw [createIndex, exec_bind_ok (Transaction.exec_createTree _ _)]
        rfl
      obtain ⟨txn', h, hcell, htree⟩ := ih (txn.openedAt (table.indexTree index))
      refine ⟨txn', ?_, fun n k => by simp [hcell], fun n => ?_⟩
      · rw [exec_forM_cons, exec_bind_ok hstep, h]
      · rw [htree]
        simp
        tauto

/-- **A new table is empty**, if nothing was in its place. -/
theorem exec_create (table : TableSchema) (txn : Transaction)
    (hempty : ∀ n, table.Owns n → ∀ k, txn.working.cell n k = none) :
    ∃ txn', table.create.exec txn = (.ok (), txn') ∧
      table.Holds (fun _ => none) txn'.working ∧
      (∀ n k, txn'.working.cell n k = txn.working.cell n k) ∧
      ∀ n, txn'.working.hasTree n = true ↔ txn.working.hasTree n = true ∨ table.Owns n := by
  obtain ⟨txn', h, hcell, htree⟩ :=
    exec_createIndexes table table.indexes (txn.openedAt table.name)
  have hcell' : ∀ n k, txn'.working.cell n k = txn.working.cell n k := fun n k => by simp [hcell]
  have htree' : ∀ n, txn'.working.hasTree n = true ↔
      txn.working.hasTree n = true ∨ table.Owns n := fun n => by
    rw [htree, Owns]
    simp
    tauto
  refine ⟨txn', ?_, ⟨?_, fun index hi => ?_, nofun, fun key stored => ?_, ?_⟩, hcell', htree'⟩
  · rw [create, exec_bind_ok (Transaction.exec_createTree _ _), h]
  · exact (htree' _).2 (.inr (.inl rfl))
  · exact (htree' _).2 (.inr (.inr ⟨index, hi, rfl⟩))
  · simp [hcell', hempty _ (.inl rfl)]
  · intro index hi entry key
    simp [hcell', hempty _ (.inr ⟨index, hi, rfl⟩)]

/-! ### Index entries -/

/-- A step that sets the cell of an index entry. -/
def Sets (table : TableSchema) (row : Row) (key : Bytes) (content : Option Bytes)
    (step : IndexSchema → Transaction.Step Unit) : Prop :=
  ∀ (index : IndexSchema) (entry : Bytes) (txn : Transaction),
    txn.working.hasTree (table.indexTree index) = true →
    index.entry (row.column index.column) key = .ok entry →
    ∃ txn', (step index).exec txn = (.ok (), txn') ∧
      (∀ n, txn'.working.hasTree n = txn.working.hasTree n) ∧
      ∀ n k, txn'.working.cell n k =
        if n = table.indexTree index ∧ k = entry then content else txn.working.cell n k

theorem sets_insertEntry (table : TableSchema) (row : Row) (key : Bytes) :
    table.Sets row key (some key) fun index =>
      table.insertEntry key index (row.column index.column) := by
  intro index entry txn htree hentry
  refine ⟨txn.putAt (table.indexTree index) entry key, ?_, by simp, fun n k => ?_⟩
  · show (table.insertEntry key index (row.column index.column)).exec txn = _
    rw [insertEntry, hentry, exec_bind_ok (exec_lift _ _), Transaction.exec_put, if_pos htree]
  · rw [Transaction.working_putAt, Snapshot.cell_put htree]

theorem sets_deleteEntry (table : TableSchema) (row : Row) (key : Bytes) :
    table.Sets row key none (table.deleteEntry key row) := by
  intro index entry txn htree hentry
  refine ⟨txn.removeAt (table.indexTree index) entry, ?_, by simp, fun n k => ?_⟩
  · rw [deleteEntry, hentry, exec_bind_ok (exec_lift _ _), exec_bind, Transaction.exec_delete,
      if_pos htree]
    rfl
  · rw [Transaction.working_removeAt, Snapshot.cell_remove]

/-- Setting the entries of a row in some indexes sets the cells that it marks. -/
theorem Sets.exec_forM {row : Row} {key : Bytes} {content : Option Bytes}
    {step : IndexSchema → Transaction.Step Unit} (hstep : table.Sets row key content step)
    {l : List IndexSchema} {txn : Transaction}
    (h : ∀ index ∈ l, txn.working.hasTree (table.indexTree index) = true ∧
      ∃ entry, index.entry (row.column index.column) key = .ok entry) :
    ∃ txn', (l.forM step).exec txn = (.ok (), txn') ∧
      (∀ n, txn'.working.hasTree n = txn.working.hasTree n) ∧
      ∀ n k, (table.Marks l row key n k → txn'.working.cell n k = content) ∧
        (¬ table.Marks l row key n k → txn'.working.cell n k = txn.working.cell n k) := by
  induction l generalizing txn with
  | nil => exact ⟨txn, rfl, fun _ => rfl, fun n k => ⟨fun ⟨_, h, _⟩ => (by cases h), fun _ => rfl⟩⟩
  | cons index l ih =>
      obtain ⟨⟨htree, entry, hentry⟩, hl⟩ := List.forall_mem_cons.1 h
      obtain ⟨txn₁, h₁, htree₁, hcell₁⟩ := hstep index entry txn htree hentry
      obtain ⟨txn', h', htree', hcell⟩ := @ih txn₁ (by simpa [htree₁] using hl)
      refine ⟨txn', ?_, fun n => by rw [htree', htree₁], fun n k => ⟨fun hm => ?_, fun hm => ?_⟩⟩
      · rw [exec_forM_cons, exec_bind_ok h₁, h']
      · by_cases hrest : table.Marks l row key n k
        · exact (hcell n k).1 hrest
        · rw [(hcell n k).2 hrest, hcell₁, if_pos]
          obtain ⟨index', hi, rfl, he⟩ := hm
          rcases List.mem_cons.1 hi with rfl | hi
          · rw [hentry] at he
            cases he
            exact ⟨rfl, rfl⟩
          · exact absurd ⟨index', hi, rfl, he⟩ hrest
      · rw [(hcell n k).2 fun ⟨i, hi, he⟩ => hm ⟨i, List.mem_cons_of_mem _ hi, he⟩, hcell₁, if_neg]
        rintro ⟨rfl, rfl⟩
        exact hm ⟨index, List.mem_cons_self, rfl, hentry⟩

/-! ### Insertion -/

theorem zip_indexedValues {row : Row} {l : List IndexSchema} {values : List Bytes}
    (h : l.mapM (table.indexedValue row) = .ok values) :
    l.zip values = l.map fun index => (index, row.column index.column) := by
  rw [mapM_eq_ok_iff] at h
  induction h with
  | nil => rfl
  | cons hv _ ih => rw [List.zip_cons_cons, ih, List.map_cons, (column_of_indexedValue hv).1]

/-- The stored map after an insertion. -/
theorem Backed.insert (h : table.Backed rows s) {key : Bytes} {row : Row}
    (hfits : table.Fits key row) (hfree : rows key = none) {stored : Bytes}
    (hstored : row.encode = .ok stored) (htree : ∀ n, t.hasTree n = s.hasTree n)
    (hmarks : ∀ n k, table.Marks table.indexes row key n k → t.cell n k = some key)
    (hother : ∀ n k, ¬ table.Marks table.indexes row key n k →
      t.cell n k = (s.put table.name key stored).cell n k) :
    table.Backed (update rows key (some row)) t := by
  have hput : ∀ index entry, (s.put table.name key stored).cell (table.indexTree index) entry =
      s.cell (table.indexTree index) entry := fun index entry => by
    rw [Snapshot.cell_put h.created, if_neg fun e => table.indexTree_ne_name index e.1]
  constructor
  case created => rw [htree, h.created]
  case indexed => exact fun index hi => by rw [htree, h.indexed index hi]
  case fits =>
    intro k row' hk
    rcases eq_or_ne k key with rfl | hne
    · rw [update_self] at hk
      cases hk
      exact hfits
    · rw [update_of_ne hne] at hk
      exact h.fits hk
  case cell =>
    intro k stored'
    rw [hother _ _ (not_marks_name table row key k), Snapshot.cell_put h.created]
    rcases eq_or_ne k key with rfl | hne
    · simp [hstored]
    · simp [hne, h.cell]
  case marked =>
    intro index hi entry k hcell
    by_cases hmark : table.Marks table.indexes row key (table.indexTree index) entry
    · rw [hmarks _ _ hmark] at hcell
      cases hcell
      exact ⟨row, update_self .., hmark⟩
    · rw [hother _ _ hmark, hput] at hcell
      obtain ⟨row', hrow', hmark'⟩ := h.marked index hi entry k hcell
      have hne : k ≠ key := by
        rintro rfl
        rw [hfree] at hrow'
        cases hrow'
      exact ⟨row', by rwa [update_of_ne hne], hmark'⟩
  case entered =>
    intro index hi hsole entry k row' hrow' he'
    rcases eq_or_ne k key with rfl | hne
    · rw [update_self] at hrow'
      cases hrow'
      exact hmarks _ _ ⟨index, hi, rfl, he'⟩
    · rw [update_of_ne hne] at hrow'
      -- the entry of another row tells another key
      have hno : ¬ table.Marks table.indexes row key (table.indexTree index) entry := fun hmark =>
        hne (IndexSchema.entry_inj ((h.fits hrow').sized hi) (hfits.sized hi) he'
          ((marks_indexTree_iff hsole hi).1 hmark)).2
      rw [hother _ _ hno, hput]
      exact h.entered index hi hsole entry k row' hrow' he'

theorem Backed.exec_lookup (h : table.Backed rows txn.working) (key : Bytes) :
    (Transaction.view (·.lookup table.name key)).exec txn =
      (.ok (txn.working.cell table.name key), txn) := by
  rw [Transaction.exec_view, Snapshot.lookup_eq, if_pos h.created]

theorem Backed.cell_of_none (h : table.Backed rows s) {key : Bytes} (hk : rows key = none) :
    s.cell table.name key = none :=
  Option.eq_none_iff_forall_ne_some.2 fun stored hs => by
    obtain ⟨row, hrow, -⟩ := (h.cell key stored).1 hs
    rw [hk] at hrow
    cases hrow

theorem Backed.cell_of_some (h : table.Backed rows s) {key : Bytes} {row : Row}
    (hk : rows key = some row) :
    ∃ stored, row.encode = .ok stored ∧ s.cell table.name key = some stored := by
  obtain ⟨stored, hstored⟩ := (h.fits hk).stored
  exact ⟨stored, hstored, (h.cell key stored).2 ⟨row, hk, hstored⟩⟩

/-- **Insertion** enters a row under a free key, and all its entries. -/
theorem Backed.exec_insert (h : table.Backed rows txn.working) {key : Bytes} {row : Row}
    (hfits : table.Fits key row) (hfree : rows key = none) :
    ∃ txn', (table.insert row).exec txn = (.ok (), txn') ∧
      table.Backed (update rows key (some row)) txn'.working ∧
      table.Elsewhere txn.working txn'.working ∧
      ∀ n k, table.Marks table.indexes row key n k → txn'.working.cell n k = some key := by
  obtain ⟨stored, hstored⟩ := hfits.stored
  obtain ⟨values, hvalues⟩ := mapM_isOk_iff.2 hfits.indexed
  have hput : (Transaction.put table.name key stored).exec txn =
      (.ok (), txn.putAt table.name key stored) := by
    rw [Transaction.exec_put, if_pos h.created]
  have hready : ∀ index ∈ table.indexes,
      (txn.putAt table.name key stored).working.hasTree (table.indexTree index) = true ∧
        ∃ entry, index.entry (row.column index.column) key = .ok entry :=
    fun index hi => ⟨by simpa using h.indexed index hi, hfits.entry hi key⟩
  -- the loop over the indexes
  obtain ⟨txn', hloop, htree, hmarks⟩ := (sets_insertEntry table row key).exec_forM hready
  simp only [Transaction.working_putAt, Snapshot.hasTree_put] at htree hmarks
  refine ⟨txn', ?_, h.insert hfits hfree hstored htree (fun n k => (hmarks n k).1)
    fun n k => (hmarks n k).2, ⟨htree, fun n hn k => ?_⟩, fun n k => (hmarks n k).1⟩
  · rw [TableSchema.insert, hfits.key, exec_bind_ok (exec_lift _ _), hvalues,
      exec_bind_ok (exec_lift _ _), exec_bind_ok (h.exec_lookup key), h.cell_of_none hfree, hstored]
    show (Transaction.put table.name key stored >>= fun _ => _).exec txn = _
    rw [exec_bind_ok hput, zip_indexedValues hvalues, exec_forM_map, hloop]
  · rw [(hmarks n k).2 fun ⟨index, hi, e, _⟩ => hn (.inr ⟨index, hi, e⟩),
      Snapshot.cell_put h.created, if_neg fun e => hn (.inl e.1)]

theorem exec_insert_of_fits (hd : table.Distinct) (h : table.Holds rows txn.working)
    {key : Bytes} {row : Row} (hfits : table.Fits key row) (hfree : rows key = none) :
    ∃ txn', (table.insert row).exec txn = (.ok (), txn') ∧
      table.Holds (update rows key (some row)) txn'.working ∧
      table.Elsewhere txn.working txn'.working := by
  obtain ⟨txn', hexec, hbacked, helse, -⟩ := h.backed.exec_insert hfits hfree
  exact ⟨txn', hexec, hbacked.holds hd, helse⟩

theorem exec_insert_of_not (h : table.Holds rows txn.working) {row : Row}
    (hno : ¬ ∃ key, table.Fits key row ∧ rows key = none) :
    ∃ e, (table.insert row).exec txn = (.error e, txn) := by
  rw [TableSchema.insert]
  cases hkey : table.keyOf row with
  | error e => exact ⟨e, rfl⟩
  | ok key =>
      cases hvalues : table.indexes.mapM (table.indexedValue row) with
      | error e => exact ⟨e, rfl⟩
      | ok values =>
          rw [exec_bind_ok (exec_lift _ _), exec_bind_ok (exec_lift _ _),
            exec_bind_ok (h.backed.exec_lookup key)]
          cases hrow : rows key with
          | some row' =>
              obtain ⟨stored, -, hcell⟩ := h.backed.cell_of_some hrow
              rw [hcell]
              exact ⟨_, rfl⟩
          | none =>
              rw [h.backed.cell_of_none hrow]
              cases hstored : row.encode with
              | error e => exact ⟨.corrupted e, rfl⟩
              | ok stored =>
                  have hfits : table.Fits key row :=
                    ⟨hkey, ⟨stored, hstored⟩, mapM_isOk_iff.1 ⟨values, hvalues⟩⟩
                  exact absurd ⟨key, hfits, hrow⟩ hno

/-! ### Deletion -/

/-- The stored map after a deletion. -/
theorem Backed.delete (h : table.Backed rows s) {key : Bytes} {row : Row}
    (hrow : rows key = some row) (htree : ∀ n, t.hasTree n = s.hasTree n)
    (hmarks : ∀ n k, table.Marks table.indexes row key n k → t.cell n k = none)
    (hother : ∀ n k, ¬ table.Marks table.indexes row key n k →
      t.cell n k = (s.remove table.name key).cell n k) :
    table.Backed (update rows key none) t := by
  have hremove : ∀ index entry, (s.remove table.name key).cell (table.indexTree index) entry =
      s.cell (table.indexTree index) entry := fun index entry => by
    rw [Snapshot.cell_remove, if_neg fun e => table.indexTree_ne_name index e.1]
  have hstays : ∀ {k row'}, update rows key none k = some row' → k ≠ key ∧ rows k = some row' := by
    intro k row' hk
    rcases eq_or_ne k key with rfl | hne
    · rw [update_self] at hk
      cases hk
    · exact ⟨hne, by rwa [update_of_ne hne] at hk⟩
  constructor
  case created => rw [htree, h.created]
  case indexed => exact fun index hi => by rw [htree, h.indexed index hi]
  case fits => exact fun hk => h.fits (hstays hk).2
  case cell =>
    intro k stored
    rw [hother _ _ (not_marks_name table row key k), Snapshot.cell_remove]
    rcases eq_or_ne k key with rfl | hne
    · simp
    · simp [hne, h.cell]
  case marked =>
    intro index hi entry k hcell
    by_cases hmark : table.Marks table.indexes row key (table.indexTree index) entry
    · rw [hmarks _ _ hmark] at hcell
      cases hcell
    · rw [hother _ _ hmark, hremove] at hcell
      obtain ⟨row', hrow', hmark'⟩ := h.marked index hi entry k hcell
      have hne : k ≠ key := by
        rintro rfl
        rw [hrow] at hrow'
        cases hrow'
        exact hmark hmark'
      exact ⟨row', by rwa [update_of_ne hne], hmark'⟩
  case entered =>
    intro index hi hsole entry k row' hk he'
    obtain ⟨hne, hrow'⟩ := hstays hk
    have hno : ¬ table.Marks table.indexes row key (table.indexTree index) entry := fun hmark =>
      hne (IndexSchema.entry_inj ((h.fits hrow').sized hi) ((h.fits hrow).sized hi) he'
        ((marks_indexTree_iff hsole hi).1 hmark)).2
    rw [hother _ _ hno, hremove]
    exact h.entered index hi hsole entry k row' hrow' he'

theorem Backed.lookup_eq (h : table.Backed rows s) (key : Bytes) :
    table.lookup s key = .ok (rows key) := by
  rw [TableSchema.lookup, Snapshot.lookup_eq, if_pos h.created]
  cases hrow : rows key with
  | none => rw [h.cell_of_none hrow]; rfl
  | some row =>
      obtain ⟨stored, hstored, hcell⟩ := h.cell_of_some hrow
      rw [hcell]
      show (do return some (← (Row.decode stored).mapError StorageError.corrupted)) = _
      rw [Row.decode_of_encode hstored]
      rfl

/-- **Deletion** takes the row of a key away, if there is one. -/
theorem Backed.exec_delete (h : table.Backed rows txn.working) (key : Bytes) :
    ∃ txn', (table.delete key).exec txn = (.ok (rows key).isSome, txn') ∧
      table.Backed (update rows key none) txn'.working ∧
      table.Elsewhere txn.working txn'.working := by
  have hlookup : (Transaction.view (table.lookup · key)).exec txn = (.ok (rows key), txn) := by
    rw [Transaction.exec_view, h.lookup_eq]
  rw [TableSchema.delete, exec_bind_ok hlookup]
  cases hrow : rows key with
  | none =>
      refine ⟨txn, rfl, ?_, fun _ => rfl, fun _ _ _ => rfl⟩
      rwa [update_eq_self_iff.2 hrow.symm]
  | some row =>
      obtain ⟨stored, -, hcell⟩ := h.cell_of_some hrow
      -- the entries go first, then the row
      obtain ⟨txn₁, hloop, htree, hmarks⟩ := (sets_deleteEntry table row key).exec_forM
        fun index hi => ⟨h.indexed index hi, (h.fits hrow).entry hi key⟩
      have hname : txn₁.working.cell table.name key = some stored :=
        ((hmarks _ _).2 (not_marks_name table row key key)).trans hcell
      refine ⟨txn₁.removeAt table.name key, ?_, h.delete hrow (fun n => by simp [htree]) ?_ ?_,
        fun n => by simp [htree], fun n hn k => ?_⟩
      · show (table.indexes.forM (table.deleteEntry key row) >>= fun _ => _).exec txn = _
        rw [exec_bind_ok hloop, Transaction.exec_delete, htree, if_pos h.created, hname]
        rfl
      · intro n k hm
        rw [Transaction.working_removeAt, Snapshot.cell_remove, (hmarks n k).1 hm, ite_self]
      · intro n k hm
        rw [Transaction.working_removeAt, Snapshot.cell_remove, Snapshot.cell_remove,
          (hmarks n k).2 hm]
      · rw [Transaction.working_removeAt, Snapshot.cell_remove, if_neg fun e => hn (.inl e.1),
          (hmarks n k).2 fun ⟨index, hi, e, _⟩ => hn (.inr ⟨index, hi, e⟩)]

theorem exec_delete (hd : table.Distinct) (h : table.Holds rows txn.working) (key : Bytes) :
    ∃ txn', (table.delete key).exec txn = (.ok (rows key).isSome, txn') ∧
      table.Holds (update rows key none) txn'.working ∧
      table.Elsewhere txn.working txn'.working := by
  obtain ⟨txn', hexec, hbacked, helse⟩ := h.backed.exec_delete key
  exact ⟨txn', hexec, hbacked.holds hd, helse⟩

/-! ### Reading -/

theorem Backed.target_eq (h : table.Backed rows s) (index : IndexSchema) {key : Bytes} {row : Row}
    (hrow : rows key = some row) : table.target s index key = .ok row := by
  rw [target, h.lookup_eq, hrow]
  rfl

/-- Seeking reads the entries that begin with the lead, and then their rows, which are there. -/
theorem Backed.seek_eq_map (h : table.Backed rows s) {name : String} {index : IndexSchema}
    (hname : table.index name = .ok index) (hi : index ∈ table.indexes) {value lead : Bytes}
    (hlead : index.lead value = .ok lead) :
    table.seek s name value =
      .ok (((s.treeAt (table.indexTree index)).entries.filter fun e => lead.isPrefixOf e.1).map
        fun e => (rows e.2).getD ⟨[]⟩) := by
  rw [seek, hname]
  show (index.lead value >>= fun lead => _) = _
  rw [hlead]
  show (s.entriesFrom (table.indexTree index) lead >>= fun entries => _) = _
  rw [Snapshot.entriesFrom_eq, if_pos (h.indexed index hi), OrderedMap.entriesFrom_eq_filter]
  show List.mapM _ (List.takeWhile _ _) = _
  rw [Bytes.takeWhile_isPrefix_eq_filter (OrderedMap.ascending _)]
  refine mapM_eq_ok_map fun e he => ?_
  obtain ⟨row, hrow, -⟩ :=
    h.marked index hi _ _ (Snapshot.mem_entries_treeAt.1 (List.mem_of_mem_filter he))
  rw [h.target_eq index hrow, hrow]
  rfl

/-- The entries that begin with the lead of a value are those of its rows. -/
theorem Holds.mem_entries_iff (h : table.Holds rows s) {index : IndexSchema}
    (hi : index ∈ table.indexes) {value lead : Bytes} (hv : index.Sized value)
    (hlead : index.lead value = .ok lead) (e : Bytes × Bytes) :
    (e ∈ (s.treeAt (table.indexTree index)).entries ∧ lead <+: e.1) ↔
      e.1 = lead ++ e.2 ∧ ∃ row, rows e.2 = some row ∧ row.column index.column = value := by
  rw [Snapshot.mem_entries_treeAt, h.entry index hi]
  constructor
  · rintro ⟨⟨row, hrow, he⟩, hprefix⟩
    obtain ⟨lead', hlead', he⟩ := IndexSchema.entry_eq_ok_iff.1 he
    rw [he] at hprefix
    obtain rfl :=
      (IndexSchema.lead_isPrefix_iff hv ((h.fits hrow).sized hi) hlead hlead' _).1 hprefix
    rw [hlead] at hlead'
    cases hlead'
    exact ⟨he, row, hrow, rfl⟩
  · rintro ⟨he, row, hrow, rfl⟩
    exact ⟨⟨row, hrow, IndexSchema.entry_eq_ok_iff.2 ⟨lead, hlead, he⟩⟩,
      he ▸ List.prefix_append _ _⟩

/-- **Seeking** a value finds its rows, in key order. -/
theorem Holds.seek_eq (h : table.Holds rows s) {name : String} {index : IndexSchema}
    (hname : table.index name = .ok index) (hi : index ∈ table.indexes) {value lead : Bytes}
    (hv : index.Sized value) (hlead : index.lead value = .ok lead) :
    ∃ found, table.seek s name value = .ok found ∧
      (∀ row, row ∈ found ↔ ∃ key, rows key = some row ∧ row.column index.column = value) ∧
      found.Pairwise fun a b =>
        compare (a.column table.primaryKey) (b.column table.primaryKey) = .lt := by
  -- the entries that begin with the lead, and their rows
  have hmem : ∀ e : Bytes × Bytes, e ∈ ((s.treeAt (table.indexTree index)).entries.filter
      fun e => lead.isPrefixOf e.1) ↔
        e.1 = lead ++ e.2 ∧ ∃ row, rows e.2 = some row ∧ row.column index.column = value :=
    fun e => by rw [← h.mem_entries_iff hi hv hlead, List.mem_filter, List.isPrefixOf_iff_prefix]
  -- behind one lead the order of the entries is that of the keys
  have hasc := ((s.treeAt (table.indexTree index)).ascending.filter
    fun e => lead.isPrefixOf e.1)
  refine ⟨_, h.backed.seek_eq_map hname hi hlead, fun row => ?_, ?_⟩
  · rw [List.mem_map]
    constructor
    · rintro ⟨e, he, rfl⟩
      obtain ⟨-, row, hrow, hcol⟩ := (hmem e).1 he
      exact ⟨e.2, by rw [hrow]; rfl, by rw [hrow]; exact hcol⟩
    · rintro ⟨key, hrow, hcol⟩
      exact ⟨(lead ++ key, key), (hmem _).2 ⟨rfl, row, hrow, hcol⟩, by rw [hrow]; rfl⟩
  · rw [List.pairwise_map]
    refine hasc.imp_of_mem fun {a b} ha hb hlt => ?_
    obtain ⟨hea, rowa, hrowa, -⟩ := (hmem a).1 ha
    obtain ⟨heb, rowb, hrowb, -⟩ := (hmem b).1 hb
    rw [hea, heb, Bytes.compare_append rfl] at hlt
    rw [hrowa, hrowb]
    show compare (rowa.column _) (rowb.column _) = _
    rw [(h.fits hrowa).column_primaryKey, (h.fits hrowb).column_primaryKey]
    simpa using hlt

/-- **Scanning** an index finds the values that occur, in order. -/
theorem Holds.scan_eq (h : table.Holds rows s) {name : String} {index : IndexSchema}
    (hname : table.index name = .ok index) (hi : index ∈ table.indexes) :
    ∃ values, table.scan s name = .ok values ∧
      (∀ value, value ∈ values ↔ ∃ key row, rows key = some row ∧ row.column index.column = value) ∧
      values.Pairwise fun a b => compare a b = .lt := by
  have hscan : table.scan s name = .ok (OrderedMap.keys (OrderedMap.ofList
      ((((s.treeAt (table.indexTree index)).entriesFrom []).filterMap (index.value? ·.1)).map
        (·, ())))) := by
    rw [scan, hname]
    show (s.entriesFrom (table.indexTree index) [] >>= fun entries => _) = _
    rw [Snapshot.entriesFrom_eq, if_pos (h.indexed index hi)]
    rfl
  refine ⟨_, hscan, fun value => ?_, OrderedMap.keys_ascending _⟩
  simp only [OrderedMap.mem_keys_ofList, List.mem_map, List.mem_filterMap, Prod.mk.injEq,
    exists_const, and_true, exists_eq_right, OrderedMap.entriesFrom_eq_filter, List.mem_filter]
  constructor
  · rintro ⟨e, ⟨he, -⟩, hvalue⟩
    obtain ⟨row, hrow, hentry⟩ := (h.entry index hi _ _).1 (Snapshot.mem_entries_treeAt.1 he)
    rw [IndexSchema.value?_of_entry ((h.fits hrow).sized hi) hentry] at hvalue
    exact ⟨e.2, row, hrow, Option.some.inj hvalue⟩
  · rintro ⟨key, row, hrow, rfl⟩
    obtain ⟨entry, hentry⟩ := (h.fits hrow).entry hi key
    refine ⟨(entry, key), ⟨Snapshot.mem_entries_treeAt.2 ?_, ?_⟩, ?_⟩
    · exact (h.entry index hi entry key).2 ⟨row, hrow, hentry⟩
    · simpa using Bytes.compare_ne_lt_of_isPrefix (List.nil_prefix (l := entry))
    · exact IndexSchema.value?_of_entry ((h.fits hrow).sized hi) hentry

/-! ### What the writes keep -/

section

variable {may : Operation → Prop} {P : Transaction → Prop} (hP : Transaction.Kept may P)

include hP

theorem preserves_create {table : TableSchema}
    (hopen : ∀ tree, table.Owns tree → may (.createTree tree)) : Preserves P table.create :=
  (hP.createTree (hopen _ (.inl rfl))).bind fun _ => preserves_forM fun index hindex =>
    (hP.createTree (hopen _ (.inr ⟨index, hindex, rfl⟩))).bind fun _ => preserves_pure _

/-- Insertion writes under the primary key, and the primary key into the index trees. -/
theorem preserves_insert (table : TableSchema) (row : Row)
    (hput : ∀ key, table.keyOf row = .ok key → (∀ stored, may (.put table.name key stored)) ∧
      ∀ index ∈ table.indexes, ∀ entry, may (.put (table.indexTree index) entry key)) :
    Preserves P (table.insert row) := by
  intro txn h
  cases hkey : table.keyOf row with
  | error e =>
      rw [insert, hkey]
      exact h
  | ok key =>
      obtain ⟨hrow, hentry⟩ := hput key hkey
      -- both branches go on with the writes
      have hwrites : ∀ stored values, Preserves P (do
          Transaction.put table.name key stored
          (table.indexes.zip values).forM fun e => table.insertEntry key e.1 e.2) :=
        fun stored values => (hP.putStep (hrow stored)).bind fun _ => preserves_forM fun e he =>
          (preserves_lift _).bind fun _ => hP.putStep (hentry e.1 (List.of_mem_zip he).1 _)
      rw [insert, hkey, exec_bind_ok (exec_lift _ _)]
      refine Preserves.bind (preserves_lift _) (fun values =>
        (Transaction.preserves_view _).bind fun present => .ite ?_ ?_) txn h
      · exact (preserves_throw _).bind fun _ => (preserves_lift _).bind fun _ => hwrites _ values
      · exact (preserves_lift _).bind fun _ => hwrites _ values

theorem preserves_delete (table : TableSchema) (key : Bytes)
    (hdelete : ∀ tree, table.Owns tree → ∀ k, may (.delete tree k)) :
    Preserves P (table.delete key) := by
  refine (Transaction.preserves_view _).bind fun found => ?_
  cases found with
  | none => exact preserves_pure _
  | some row =>
      refine (preserves_forM fun index hindex => ?_).bind fun _ =>
        hP.deleteStep (hdelete _ (.inl rfl) _)
      exact (preserves_lift _).bind fun _ =>
        (hP.deleteStep (hdelete _ (.inr ⟨index, hindex, rfl⟩) _)).bind fun _ => preserves_pure _

end

end Rollup.TableSchema
