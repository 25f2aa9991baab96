import Rollup.Proofs.Index.Changes

/-!
# Ledgers — the live documents

A ledger keeps the live documents and the etags that were given to them, and nothing of how they
came there.  Which documents are live, and with what data, is in the changes alone
(`Ledger.documentsAfter`); the etags are those that were given out.  `Mirrors` says that each live
document has an etag and that the contents of an index are those of the ledger: a row and a blob for
each live document, and no others.  Changes keep it so (`Mirrors.appliedAll`), so what an index
holds does not depend on the way that led there.
-/

namespace Rollup

open Function

/-- What a change leaves under its key. -/
def Change.data? : Change → Option Value
  | .put document => some document.data
  | .delete _ => none

/-- The live documents, and the etags that were given to them. -/
structure Ledger where
  /-- The data that was put last under a key, and not deleted since. -/
  data : DocumentKey → Option Value
  /-- The etag that was given to that put, if one was given. -/
  etag : DocumentKey → Option Etag

namespace Ledger

def empty : Ledger := ⟨fun _ => none, fun _ => none⟩

/-- The documents after changes. -/
def documentsAfter (data : DocumentKey → Option Value) (changes : List Change) :
    DocumentKey → Option Value :=
  changes.foldl (fun data change => update data change.key change.data?) data

/-- The etags of the documents after changes; those that are given out go to the puts, in order. -/
def etagsAfter : (DocumentKey → Option Etag) → List Change → List Etag → DocumentKey → Option Etag
  | given, .put document :: changes, etags =>
    etagsAfter (update given document.key etags.head?) changes etags.tail
  | given, .delete key :: changes, etags => etagsAfter (update given key none) changes etags
  | given, [], _ => given

/-- The ledger after changes. -/
def record (ledger : Ledger) (changes : List Change) (etags : List Etag) : Ledger :=
  ⟨documentsAfter ledger.data changes, etagsAfter ledger.etag changes etags⟩

/-- The document is live, with this etag and this data. -/
@[mk_iff]
structure Has (ledger : Ledger) (key : DocumentKey) (etag : Etag) (data : Value) : Prop where
  data : ledger.data key = some data
  etag : ledger.etag key = some etag

/-- The ledger without a document. -/
def drop (ledger : Ledger) (key : DocumentKey) : Ledger :=
  ⟨update ledger.data key none, update ledger.etag key none⟩

/-- The ledger with a document. -/
def give (ledger : Ledger) (key : DocumentKey) (etag : Etag) (data : Value) : Ledger :=
  ⟨update ledger.data key (some data), update ledger.etag key (some etag)⟩

variable {ledger : Ledger} {key k : DocumentKey} {etag f : Etag} {data content : Value}

theorem not_has_empty : ¬ empty.Has key etag data := fun h => (by cases h.data)

/-- A document has one etag and one content. -/
theorem Has.inj (h : ledger.Has key etag data) (h' : ledger.Has key f content) :
    etag = f ∧ data = content :=
  ⟨Option.some.inj (h.etag.symm.trans h'.etag), Option.some.inj (h.data.symm.trans h'.data)⟩

theorem data_drop : (ledger.drop key).data k = if k = key then none else ledger.data k :=
  update_apply ..

theorem etag_drop : (ledger.drop key).etag k = if k = key then none else ledger.etag k :=
  update_apply ..

theorem data_give :
    (ledger.give key etag data).data k = if k = key then some data else ledger.data k :=
  update_apply ..

theorem etag_give :
    (ledger.give key etag data).etag k = if k = key then some etag else ledger.etag k :=
  update_apply ..

theorem has_drop : (ledger.drop key).Has k etag data ↔ k ≠ key ∧ ledger.Has k etag data := by
  rw [has_iff, has_iff, data_drop, etag_drop]
  by_cases h : k = key <;> simp [h]

theorem has_give (hkey : ledger.data key = none) :
    (ledger.give key etag data).Has k f content ↔
      (k = key ∧ f = etag ∧ content = data) ∨ ledger.Has k f content := by
  rw [has_iff, has_iff, data_give, etag_give]
  by_cases h : k = key
  · simp [h, hkey, eq_comm, and_comm]
  · simp [h]

theorem drop_give : (ledger.drop key).give key etag data = ledger.give key etag data := by
  rw [give, drop, update_idem, update_idem]
  rfl

end Ledger

namespace Index

/-- What a document contributes: the hash of its group, and its blob. -/
def contribution (ix : Index) (data : Value) : Except IndexError (GroupHash × Bytes) := do
  let (_, _, hash) ← ix.groupOf data
  let blob ← (ix.definition.mapped data).encode.mapError .encoding
  return (hash, blob)

variable {ix : Index} {ledger : Ledger} {c c' : Contents}

theorem contribution_eq_ok {data group : Value} {key blob : Bytes} {hash : GroupHash}
    (hgroup : ix.groupOf data = .ok (group, key, hash))
    (hblob : (ix.definition.mapped data).encode = .ok blob) :
    ix.contribution data = .ok (hash, blob) := by
  rw [contribution, hgroup, hblob]
  rfl

/-- The contents are those of the ledger. -/
structure Mirrors (ix : Index) (ledger : Ledger) (c : Contents) : Prop where
  /-- Every live document has an etag, and contributes something. -/
  total : ∀ key data, ledger.data key = some data →
    ∃ etag hash blob, ledger.Has key etag data ∧ ix.contribution data = .ok (hash, blob)
  rows : ∀ etag key hash, c.rows etag = some ⟨key, hash⟩ ↔
    ∃ data blob, ledger.Has key etag data ∧ ix.contribution data = .ok (hash, blob)
  blobs : ∀ hash etag blob, c.blobs hash etag = some blob ↔
    ∃ key data, ledger.Has key etag data ∧ ix.contribution data = .ok (hash, blob)
  bounded : ∀ key etag data, ledger.Has key etag data → etag.toNat ≤ c.last.toNat

theorem mirrors_empty (ix : Index) (definition : Bytes) (last : Etag)
    (groupKeys : GroupHash → Option Bytes) :
    Mirrors ix .empty ⟨definition, last, groupKeys, fun _ => none, fun _ _ => none⟩ where
  total _ _ h := (by cases h)
  rows _ _ _ := ⟨fun h => (by cases h), fun ⟨_, _, h, _⟩ => absurd h Ledger.not_has_empty⟩
  blobs _ _ _ := ⟨fun h => (by cases h), fun ⟨_, _, h, _⟩ => absurd h Ledger.not_has_empty⟩
  bounded _ _ _ h := absurd h Ledger.not_has_empty

namespace Mirrors

/-- Only the definition and the hash function of the index matter. -/
theorem congr (h : Mirrors ix ledger c) {ix' : Index} (hdefinition : ix'.definition = ix.definition)
    (hconfig : ix'.config = ix.config) : Mirrors ix' ledger c := by
  have hsame : ix'.contribution = ix.contribution := by
    funext data
    rw [contribution, contribution, groupOf, groupOf, hdefinition, hconfig]
  exact ⟨hsame ▸ h.total, hsame ▸ h.rows, hsame ▸ h.blobs, h.bounded⟩

theorem contributes (h : Mirrors ix ledger c) {key : DocumentKey} {data : Value}
    (hdata : ledger.data key = some data) :
    ∃ hash blob, ix.contribution data = .ok (hash, blob) := by
  obtain ⟨-, hash, blob, -, hc⟩ := h.total key data hdata
  exact ⟨hash, blob, hc⟩

/-- The row under the etag of a live document is that document's. -/
theorem key_of_row (h : Mirrors ix ledger c) {key k : DocumentKey} {etag : Etag}
    {hash : GroupHash} {data : Value} (hrow : c.rows etag = some ⟨key, hash⟩)
    (hk : ledger.Has k etag data) : k = key := by
  obtain ⟨hash', blob, hc⟩ := h.contributes hk.data
  have hrow' := (h.rows etag k hash').2 ⟨data, blob, hk, hc⟩
  rw [hrow] at hrow'
  cases hrow'
  rfl

/-- No two live documents share an etag. -/
theorem key_unique (h : Mirrors ix ledger c) {key key' : DocumentKey} {etag : Etag}
    {data data' : Value} (hkey : ledger.Has key etag data) (hkey' : ledger.Has key' etag data') :
    key = key' := by
  obtain ⟨hash, blob, hc⟩ := h.contributes hkey'.data
  exact h.key_of_row ((h.rows etag key' hash).2 ⟨data', blob, hkey', hc⟩) hkey

/-- **A document goes** when its entries are removed. -/
theorem remove (h : Mirrors ix ledger c) {key : DocumentKey} {entries : List Entry}
    (hfinds : c.Finds key entries) :
    Mirrors ix (ledger.drop key) (c.removeAll entries) := by
  -- what a live document contributed is not among the entries, so it is of another document
  have hother : ∀ {k etag data hash blob}, ledger.Has k etag data →
      ix.contribution data = .ok (hash, blob) →
      c.rows etag ≠ some ⟨key, hash⟩ → (ledger.drop key).Has k etag data :=
    fun {k etag data hash blob} hk hc hrow => Ledger.has_drop.2
      ⟨fun e => hrow (e ▸ (h.rows etag k hash).2 ⟨data, blob, hk, hc⟩), hk⟩
  have hgone : ∀ {k etag data hash}, c.rows etag = some ⟨key, hash⟩ →
      ¬ (ledger.drop key).Has k etag data := fun hrow hk =>
    (Ledger.has_drop.1 hk).1 (h.key_of_row hrow (Ledger.has_drop.1 hk).2)
  refine ⟨fun k data hk => ?_, fun etag k hash => ?_, fun hash etag blob => ?_,
    fun k etag data hk => ?_⟩
  · rw [Ledger.data_drop] at hk
    split at hk
    · cases hk
    · next hne =>
      obtain ⟨etag, hash, blob, hhas, hc⟩ := h.total k data hk
      exact ⟨etag, hash, blob, Ledger.has_drop.2 ⟨hne, hhas⟩, hc⟩
  · rw [Contents.rows_removeAll]
    by_cases hex : ∃ e ∈ entries, e.etag = etag
    · obtain ⟨e, he, rfl⟩ := hex
      rw [if_pos ⟨e, he, rfl⟩]
      have hrow := (hfinds.exists_iff e.hash e.etag).1 ⟨e, he, rfl, rfl⟩
      exact ⟨fun hr => (by cases hr), fun ⟨_, _, hk, _⟩ => absurd hk (hgone hrow)⟩
    · rw [if_neg hex, h.rows]
      constructor
      · rintro ⟨data, blob, hk, hc⟩
        refine ⟨data, blob, hother hk hc fun hrow => ?_, hc⟩
        obtain ⟨e, he, -, hetag⟩ := (hfinds.exists_iff hash etag).2 hrow
        exact hex ⟨e, he, hetag⟩
      · rintro ⟨data, blob, hk, hc⟩
        exact ⟨data, blob, (Ledger.has_drop.1 hk).2, hc⟩
  · rw [Contents.blobs_removeAll, if_congr (hfinds.exists_iff hash etag) rfl rfl]
    by_cases hrow : c.rows etag = some ⟨key, hash⟩
    · rw [if_pos hrow]
      exact ⟨fun hb => (by cases hb), fun ⟨_, _, hk, _⟩ => absurd hk (hgone hrow)⟩
    · rw [if_neg hrow, h.blobs]
      constructor
      · rintro ⟨k, data, hk, hc⟩
        exact ⟨k, data, hother hk hc hrow, hc⟩
      · rintro ⟨k, data, hk, hc⟩
        exact ⟨k, data, (Ledger.has_drop.1 hk).2, hc⟩
  · rw [Contents.last_removeAll]
    exact h.bounded k etag data (Ledger.has_drop.1 hk).2

/-- **A document comes** under an etag that was not in use. -/
theorem enter (h : Mirrors ix ledger c) {key : DocumentKey} (hkey : ledger.data key = none)
    {etag : Etag} (hlt : c.last.toNat < etag.toNat) {data : Value} {hash : GroupHash}
    {blob : Bytes} (hc : ix.contribution data = .ok (hash, blob)) (group : Bytes) :
    Mirrors ix (ledger.give key etag data) (c.enter etag ⟨key, hash⟩ blob group) := by
  -- the etag is past all that are in use
  have hfree : ∀ k content, ¬ ledger.Has k etag content := fun k content hk =>
    absurd (h.bounded k etag content hk) (Nat.not_le.2 hlt)
  refine ⟨fun k content hk => ?_, fun f k hash' => ?_, fun hash' f blob' => ?_,
    fun k f content hk => ?_⟩
  · rw [Ledger.data_give] at hk
    split at hk
    · next hself =>
      cases hk
      exact ⟨etag, hash, blob, (Ledger.has_give hkey).2 (.inl ⟨hself, rfl, rfl⟩), hc⟩
    · obtain ⟨f, hash', blob', hhas, hc'⟩ := h.total k content hk
      exact ⟨f, hash', blob', (Ledger.has_give hkey).2 (.inr hhas), hc'⟩
  · rw [Contents.rows_enter]
    simp only [Ledger.has_give hkey]
    by_cases hf : f = etag
    · subst hf
      rw [if_pos rfl]
      constructor
      · rintro ⟨⟩
        exact ⟨data, blob, .inl ⟨rfl, rfl, rfl⟩, hc⟩
      · rintro ⟨content, blob', ⟨rfl, -, rfl⟩ | hk, hc'⟩
        · rw [hc] at hc'
          cases hc'
          rfl
        · exact absurd hk (hfree k content)
    · rw [if_neg hf, h.rows]
      simp [hf]
  · rw [Contents.blobs_enter]
    simp only [Ledger.has_give hkey]
    by_cases hf : f = etag
    · subst hf
      constructor
      · intro hb
        split at hb
        · next e =>
          cases hb
          exact ⟨key, data, .inl ⟨rfl, rfl, rfl⟩, e.1 ▸ hc⟩
        · obtain ⟨k, content, hk, -⟩ := (h.blobs hash' f blob').1 hb
          exact absurd hk (hfree k content)
      · rintro ⟨k, content, ⟨rfl, -, rfl⟩ | hk, hc'⟩
        · rw [hc] at hc'
          cases hc'
          rw [if_pos ⟨rfl, rfl⟩]
        · exact absurd hk (hfree k content)
    · simp [hf, h.blobs]
  · rw [Contents.last_enter]
    rcases (Ledger.has_give hkey).1 hk with ⟨-, rfl, -⟩ | hk
    · exact Nat.le_refl _
    · exact Nat.le_of_lt (Nat.lt_of_le_of_lt (h.bounded k f content hk) hlt)

theorem applied (h : Mirrors ix ledger c) {change : Change} {result : BatchResult}
    (happlied : Applied ix change c c' result) (changes : List Change) (etags : List Etag) :
    ∃ ledger', Mirrors ix ledger' c' ∧
      ledger.record (change :: changes) (result.etags ++ etags) = ledger'.record changes etags := by
  cases happlied with
  | put hfinds hgroup hblob hlt =>
      refine
        ⟨_, (h.remove hfinds).enter (update_self ..) ?_ (contribution_eq_ok hgroup hblob) _, ?_⟩
      · rwa [Contents.last_removeAll]
      · rw [Ledger.drop_give]
        rfl
  | delete hfinds => exact ⟨_, h.remove hfinds, rfl⟩

/-- **Changes in order** keep the contents those of the ledger. -/
theorem appliedAll {changes : List Change} {result : BatchResult}
    (happlied : AppliedAll ix changes c c' result) (h : Mirrors ix ledger c) :
    Mirrors ix (ledger.record changes result.etags) c' := by
  induction happlied generalizing ledger with
  | nil => exact h
  | cons hfirst _ ih =>
      obtain ⟨ledger', h', hrecord⟩ := h.applied hfirst _ _
      show Mirrors ix (ledger.record _ (_ ++ _)) _
      rw [hrecord]
      exact ih h'

end Mirrors

end Index

end Rollup
