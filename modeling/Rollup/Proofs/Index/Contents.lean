import Rollup.Index.Basic
import Rollup.Proofs.Index.EntryTable

/-!
# Contents — what the trees of an index hold

`Contents` is an index as data: its stored definition and last etag, the recorded group keys, the
rows of the map entry table, and the blobs of every bucket.  `Holds` says that the trees of an index
store just that.  One write to a tree is one change of the contents (`Holds.put`, `Holds.remove`,
`Holds.elsewhere`).

The parts move in *lockstep* (`Lockstep`): there is a blob for every row, in the bucket of its hash,
and a group key for every bucket that is not empty.  Entering a document and removing an entry keep
them so (`lockstep_enter`, `lockstep_remove`).
-/

namespace Rollup

open Function

/-- What an index stores. -/
structure Contents where
  definition : Bytes
  last : Etag
  groupKeys : GroupHash → Option Bytes
  rows : Mappings
  blobs : GroupHash → Etag → Option Bytes

namespace Contents

/-! ### In the trees -/

/-- The cells of the trees outside the map entry table. -/
def cell (c : Contents) : Site → Bytes → Option Bytes
  | .settings, k =>
    if k = Index.definitionKey then some c.definition
    else if k = Index.lastEtagKey then some c.last.encode
    else none
  | .groupKeys, k => cellsOf GroupHash.decode c.groupKeys k
  | .bucket hash, k => cellsOf Etag.decode (c.blobs hash) k
  | .entries, _ | .documents, _ | .hashes, _ => none

/-- The trees of an index hold these contents; a bucket that is empty may have no tree. -/
structure Holds (index : String) (c : Contents) (s : Snapshot) : Prop where
  settings : s.hasTree (Site.settings.tree index) = true
  groupKeys : s.hasTree (Site.groupKeys.tree index) = true
  table : EntryTable.Stores index c.rows s
  cell : ∀ site : Site, ¬ site.InTable → ∀ k, s.cell (site.tree index) k = c.cell site k

namespace Holds

variable {index : String} {c c' : Contents} {s t : Snapshot} {site : Site} {key : Bytes}

/-- A change of one cell, as the contents see it. -/
theorem of_cell (h : Holds index c s) (hsite : ¬ site.InTable)
    (htree : ∀ n, s.hasTree n = true → t.hasTree n = true) {content : Option Bytes}
    (hcell : ∀ n k, t.cell n k =
      if n = site.tree index ∧ k = key then content else s.cell n k)
    (hrows : c'.rows = c.rows)
    (hc : ∀ b k, c'.cell b k = if b = site ∧ k = key then content else c.cell b k) :
    Holds index c' t where
  settings := htree _ h.settings
  groupKeys := htree _ h.groupKeys
  table := by
    rw [hrows]
    refine TableSchema.Holds.congr h.table htree fun n hn k => ?_
    obtain ⟨b, hb, rfl⟩ := EntryTable.owns_iff.1 hn
    rw [hcell, if_neg]
    rintro ⟨e, -⟩
    exact hsite (Site.tree_inj.1 e ▸ hb)
  cell b hb k := by simp only [hcell, hc, h.cell b hb k, Site.tree_inj]

theorem put (h : Holds index c s) (hsite : ¬ site.InTable)
    (htree : s.hasTree (site.tree index) = true) {value : Bytes} (hrows : c'.rows = c.rows)
    (hc : ∀ b k, c'.cell b k = if b = site ∧ k = key then some value else c.cell b k) :
    Holds index c' (s.put (site.tree index) key value) :=
  h.of_cell hsite (by simp) (Snapshot.cell_put htree key value) hrows hc

theorem remove (h : Holds index c s) (hsite : ¬ site.InTable) (hrows : c'.rows = c.rows)
    (hc : ∀ b k, c'.cell b k = if b = site ∧ k = key then none else c.cell b k) :
    Holds index c' (s.remove (site.tree index) key) :=
  h.of_cell hsite (by simp) (Snapshot.cell_remove s _ key) hrows hc

/-- Adding a tree changes nothing. -/
theorem addTree (h : Holds index c s) (tree : String) : Holds index c (s.addTree tree) where
  settings := by simp [h.settings]
  groupKeys := by simp [h.groupKeys]
  table := TableSchema.Holds.congr h.table (fun n hn => by simp [hn]) fun n _ k => by simp
  cell b hb k := by rw [Snapshot.cell_addTree, h.cell b hb k]

/-- A change of the map entry table. -/
theorem elsewhere (h : Holds index c s) {rows : Mappings}
    (helse : (EntryTable.schema index).Elsewhere s t) (hrows : EntryTable.Stores index rows t) :
    Holds index { c with rows } t where
  settings := by rw [helse.hasTree, h.settings]
  groupKeys := by rw [helse.hasTree, h.groupKeys]
  table := hrows
  cell b hb k := by
    rw [helse.cell _ (mt EntryTable.owns_site_iff.1 hb), h.cell b hb k]
    cases b <;> rfl

theorem definition_eq (h : Holds index c s) :
    s.cell (metaTree index) Index.definitionKey = some c.definition :=
  h.cell .settings Site.not_inTable_settings _

theorem last_eq (h : Holds index c s) :
    s.cell (metaTree index) Index.lastEtagKey = some c.last.encode :=
  h.cell .settings Site.not_inTable_settings _

theorem groupKey_eq (h : Holds index c s) (hash : GroupHash) :
    s.cell (groupKeyTree index) hash.encode = c.groupKeys hash :=
  (h.cell .groupKeys Site.not_inTable_groupKeys _).trans
    (cellsOf_encode GroupHash.decode_eq_ok_iff hash)

theorem bucket_eq (h : Holds index c s) (hash : GroupHash) (k : Bytes) :
    s.cell (bucketTree index hash) k = cellsOf Etag.decode (c.blobs hash) k := by
  rw [← Site.tree_bucket]
  exact h.cell (.bucket hash) (Site.not_inTable_bucket hash) k

end Holds

/-! ### Changes -/

/-- The contents with a blob put into a bucket, or taken out. -/
def setBlob (c : Contents) (hash : GroupHash) (etag : Etag) (blob : Option Bytes) : Contents :=
  { c with blobs := update c.blobs hash (update (c.blobs hash) etag blob) }

/-- The contents with a group key recorded, or forgotten. -/
def setGroupKey (c : Contents) (hash : GroupHash) (key : Option Bytes) : Contents :=
  { c with groupKeys := update c.groupKeys hash key }

def setLast (c : Contents) (etag : Etag) : Contents := { c with last := etag }

def setRow (c : Contents) (etag : Etag) (m : Option Mapping) : Contents :=
  { c with rows := update c.rows etag m }

theorem cell_setBlob (c : Contents) (hash : GroupHash) (etag : Etag) (blob : Option Bytes)
    (b : Site) (k : Bytes) :
    (c.setBlob hash etag blob).cell b k =
      if b = .bucket hash ∧ k = etag.encode then blob else c.cell b k := by
  cases b <;> simp only [cell, setBlob, reduceCtorEq, false_and, if_false, Site.bucket.injEq]
  next h =>
  rcases eq_or_ne h hash with rfl | hne
  · simp [cellsOf_update Etag.decode_eq_ok_iff]
  · simp [hne]

theorem cell_setGroupKey (c : Contents) (hash : GroupHash) (key : Option Bytes) (b : Site)
    (k : Bytes) :
    (c.setGroupKey hash key).cell b k =
      if b = .groupKeys ∧ k = hash.encode then key else c.cell b k := by
  cases b <;> simp only [cell, setGroupKey, reduceCtorEq, false_and, if_false, true_and]
  rw [cellsOf_update GroupHash.decode_eq_ok_iff]

theorem definitionKey_ne : Index.definitionKey ≠ Index.lastEtagKey := by decide

theorem cell_setLast (c : Contents) (etag : Etag) (b : Site) (k : Bytes) :
    (c.setLast etag).cell b k =
      if b = .settings ∧ k = Index.lastEtagKey then some etag.encode else c.cell b k := by
  cases b <;> simp only [cell, setLast, reduceCtorEq, false_and, if_false, true_and]
  rcases eq_or_ne k Index.lastEtagKey with rfl | hne
  · simp [definitionKey_ne.symm]
  · simp [hne]

/-- A document entered under an etag.  The key of its group is recorded, unless one is already. -/
def enter (c : Contents) (etag : Etag) (m : Mapping) (blob key : Bytes) : Contents :=
  (((c.setBlob m.hash etag (some blob)).setLast etag).setGroupKey m.hash
    (some ((c.groupKeys m.hash).getD key))).setRow etag (some m)

/-- A group that has something in its bucket. -/
def Occupied (c : Contents) (hash : GroupHash) : Prop := ∃ etag, (c.blobs hash etag).isSome = true

open Classical in
/-- An entry removed.  A group left empty loses its recorded key. -/
noncomputable def remove (c : Contents) (etag : Etag) (hash : GroupHash) : Contents :=
  let c' := (c.setBlob hash etag none).setRow etag none
  if c'.Occupied hash then c' else c'.setGroupKey hash none

section

variable (c : Contents) (etag : Etag) (hash : GroupHash) (m : Mapping) (blob key : Bytes)

theorem blobs_setBlob (b : Option Bytes) (h : GroupHash) (f : Etag) :
    (c.setBlob hash etag b).blobs h f = if h = hash ∧ f = etag then b else c.blobs h f := by
  rw [setBlob]
  rcases eq_or_ne h hash with rfl | hne
  · simp [update_apply]
  · simp [hne]

@[simp] theorem last_enter : (c.enter etag m blob key).last = etag := rfl

@[simp] theorem definition_enter : (c.enter etag m blob key).definition = c.definition := rfl

theorem rows_enter (f : Etag) :
    (c.enter etag m blob key).rows f = if f = etag then some m else c.rows f :=
  update_apply ..

theorem blobs_enter (h : GroupHash) (f : Etag) : (c.enter etag m blob key).blobs h f =
    if h = m.hash ∧ f = etag then some blob else c.blobs h f :=
  c.blobs_setBlob etag m.hash (some blob) h f

theorem groupKeys_enter (h : GroupHash) : (c.enter etag m blob key).groupKeys h =
    if h = m.hash then some ((c.groupKeys h).getD key) else c.groupKeys h := by
  show update c.groupKeys m.hash _ h = _
  rw [update_apply]
  split
  · next e => rw [e]
  · rfl

@[simp] theorem last_remove : (c.remove etag hash).last = c.last := by
  rw [remove]
  split <;> rfl

@[simp] theorem definition_remove : (c.remove etag hash).definition = c.definition := by
  rw [remove]
  split <;> rfl

theorem rows_remove (f : Etag) :
    (c.remove etag hash).rows f = if f = etag then none else c.rows f := by
  rw [remove]
  split <;> exact update_apply ..

theorem blobs_remove (h : GroupHash) (f : Etag) :
    (c.remove etag hash).blobs h f = if h = hash ∧ f = etag then none else c.blobs h f := by
  rw [remove]
  split <;> exact c.blobs_setBlob etag hash none h f

theorem groupKeys_remove_of_ne {h : GroupHash} (hne : h ≠ hash) :
    (c.remove etag hash).groupKeys h = c.groupKeys h := by
  rw [remove]
  split
  · rfl
  · exact update_of_ne hne ..

open Classical in
theorem groupKeys_remove_self : (c.remove etag hash).groupKeys hash =
    if (c.remove etag hash).Occupied hash then c.groupKeys hash else none := by
  have hocc : (c.remove etag hash).Occupied hash ↔
      ((c.setBlob hash etag none).setRow etag none).Occupied hash := by
    refine exists_congr fun f => ?_
    rw [blobs_remove]
    exact (congrArg (·.isSome = true) (c.blobs_setBlob etag hash none hash f).symm).to_iff
  rw [if_congr hocc rfl rfl, remove]
  split
  · rfl
  · exact update_self ..

end

/-! ### Lockstep -/

/-- The parts of the contents agree with each other. -/
structure Lockstep (c : Contents) : Prop where
  /-- A bucket holds the blobs of the rows of its hash. -/
  blobs : ∀ hash etag, (c.blobs hash etag).isSome = true ↔
    ∃ m, c.rows etag = some m ∧ m.hash = hash
  /-- The groups with a recorded key are those that are not empty. -/
  groupKeys : ∀ hash, (c.groupKeys hash).isSome = true ↔ c.Occupied hash
  /-- The last etag is not before any row's. -/
  bounded : ∀ etag m, c.rows etag = some m → etag.toNat ≤ c.last.toNat

variable {c : Contents} {etag : Etag} {m : Mapping}

theorem Lockstep.rows_of_lt (hl : c.Lockstep) (h : c.last.toNat < etag.toNat) :
    c.rows etag = none :=
  Option.eq_none_iff_forall_ne_some.2 fun m hm => absurd (hl.bounded etag m hm) (Nat.not_le.2 h)

/-- **Entering a document keeps lockstep.** -/
theorem lockstep_enter (hl : c.Lockstep) (h : c.last.toNat < etag.toNat) (blob key : Bytes) :
    (c.enter etag m blob key).Lockstep where
  blobs hash f := by
    rw [blobs_enter, rows_enter]
    rcases eq_or_ne f etag with rfl | hne
    · have hnone : (c.blobs hash f).isSome = false := by
        rw [← Bool.not_eq_true, hl.blobs]
        rintro ⟨m, hm, -⟩
        rw [hl.rows_of_lt h] at hm
        cases hm
      rcases eq_or_ne hash m.hash with rfl | hhash
      · simp
      · simp [hhash, hhash.symm, hnone]
    · simp [hne, hl.blobs]
  groupKeys hash := by
    -- the group of the document is occupied now, and the others as before
    have hocc : (c.enter etag m blob key).Occupied hash ↔ hash = m.hash ∨ c.Occupied hash := by
      simp only [Occupied, blobs_enter]
      rcases eq_or_ne hash m.hash with rfl | hhash
      · simp only [true_and, true_or, iff_true]
        exact ⟨etag, by simp⟩
      · simp [hhash]
    rw [hocc, groupKeys_enter]
    rcases eq_or_ne hash m.hash with rfl | hhash
    · simp
    · simp [hhash, hl.groupKeys]
  bounded f m' hm := by
    rw [rows_enter] at hm
    split at hm
    · next e => exact e ▸ Nat.le_refl _
    · exact Nat.le_of_lt (Nat.lt_of_le_of_lt (hl.bounded f m' hm) h)

/-- **Removing an entry keeps lockstep.** -/
theorem lockstep_remove (hl : c.Lockstep) (hm : c.rows etag = some m) :
    (c.remove etag m.hash).Lockstep where
  blobs hash f := by
    rw [blobs_remove, rows_remove]
    rcases eq_or_ne f etag with rfl | hne
    · rcases eq_or_ne hash m.hash with rfl | hhash
      · simp
      · -- an etag has one row, so one group
        have hnone : (c.blobs hash f).isSome = false := by
          rw [← Bool.not_eq_true, hl.blobs]
          rintro ⟨m', hm', rfl⟩
          rw [hm] at hm'
          cases hm'
          exact hhash rfl
        simp [hhash, hnone]
    · simp [hne, hl.blobs]
  groupKeys hash := by
    rcases eq_or_ne hash m.hash with rfl | hhash
    · have hmono : (c.remove etag m.hash).Occupied m.hash → c.Occupied m.hash := by
        rintro ⟨f, hf⟩
        rw [blobs_remove] at hf
        split at hf
        · cases hf
        · exact ⟨f, hf⟩
      rw [groupKeys_remove_self]
      split
      · next hocc => exact iff_of_true ((hl.groupKeys _).2 (hmono hocc)) hocc
      · next hocc => exact iff_of_false Bool.false_ne_true hocc
    · rw [groupKeys_remove_of_ne c etag m.hash hhash, hl.groupKeys]
      exact exists_congr fun f => by rw [blobs_remove, if_neg fun e => hhash e.1]
  bounded f m' hm' := by
    rw [rows_remove] at hm'
    rw [last_remove]
    split at hm'
    · cases hm'
    · exact hl.bounded f m' hm'

/-! ### The entries of a document -/

/-- Entries removed one by one. -/
noncomputable def removeAll (c : Contents) (entries : List Entry) : Contents :=
  entries.foldl (fun c e => c.remove e.etag e.hash) c

/-- The entries that the table has for a document, each once. -/
structure Finds (c : Contents) (document : DocumentKey) (entries : List Entry) : Prop where
  mem : ∀ e, e ∈ entries ↔ ∃ m, c.rows e.etag = some m ∧ m.document = document ∧
    e = EntryTable.entryOf e.etag m
  ascending : entries.Pairwise fun a b => a.etag.toNat < b.etag.toNat

theorem Finds.exists_iff {c : Contents} {document : DocumentKey} {entries : List Entry}
    (h : c.Finds document entries) (hash : GroupHash) (f : Etag) :
    (∃ e ∈ entries, e.hash = hash ∧ e.etag = f) ↔ c.rows f = some ⟨document, hash⟩ := by
  constructor
  · rintro ⟨e, he, rfl, rfl⟩
    obtain ⟨m, hm, rfl, hentry⟩ := (h.mem e).1 he
    rw [hm, hentry]
    rfl
  · intro hrow
    exact ⟨⟨f, document, hash⟩, (h.mem _).2 ⟨_, hrow, rfl, rfl⟩, rfl, rfl⟩

theorem rows_removeAll (c : Contents) (entries : List Entry) (f : Etag) :
    (c.removeAll entries).rows f = if ∃ e ∈ entries, e.etag = f then none else c.rows f := by
  induction entries generalizing c with
  | nil => simp [removeAll]
  | cons e entries ih =>
      show ((c.remove e.etag e.hash).removeAll entries).rows f = _
      rw [ih, rows_remove]
      by_cases h : e.etag = f
      · simp [h]
      · simp [h, Ne.symm h]

theorem blobs_removeAll (c : Contents) (entries : List Entry) (hash : GroupHash) (f : Etag) :
    (c.removeAll entries).blobs hash f =
      if ∃ e ∈ entries, e.hash = hash ∧ e.etag = f then none else c.blobs hash f := by
  induction entries generalizing c with
  | nil => simp [removeAll]
  | cons e entries ih =>
      show ((c.remove e.etag e.hash).removeAll entries).blobs hash f = _
      rw [ih, blobs_remove]
      by_cases h : e.hash = hash ∧ e.etag = f
      · simp [h]
      · have h' : ¬ (hash = e.hash ∧ f = e.etag) := fun e => h ⟨e.1.symm, e.2.symm⟩
        simp [h, h']

theorem last_removeAll (c : Contents) (entries : List Entry) :
    (c.removeAll entries).last = c.last := by
  induction entries generalizing c with
  | nil => rfl
  | cons e entries ih => exact (ih (c.remove e.etag e.hash)).trans (last_remove ..)

end Contents

end Rollup
