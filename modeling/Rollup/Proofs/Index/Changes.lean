import Rollup.Index.Batch
import Rollup.Proofs.Index.Update

/-!
# Changes — what a batch does before its commit

`Moves` is what all steps of an update have in common: they keep lockstep, and their books say which
groups may look different afterwards (`untouched`) and which may have lost something
(`unretracted`).  `Applied` is what a change does to the contents; every batch that gets to its
commit has applied its changes (`exec_applyChanges`).
-/

namespace Rollup

open Rollup.Action

namespace Update

/-- An update has come from these contents to those. -/
structure Moves (c : Contents) (u : Update) (c' : Contents) (u' : Update) : Prop where
  shows : Shows c' u'
  lockstep : c'.Lockstep
  index : u'.index = u.index
  definition : c'.definition = c.definition
  touched : ∀ h, u.touched.contains h = true → u'.touched.contains h = true
  retracted : ∀ h, u.retracted.contains h = true → u'.retracted.contains h = true
  /-- A group that loses something is touched. -/
  within : (∀ h, u.retracted.contains h = true → u.touched.contains h = true) →
    ∀ h, u'.retracted.contains h = true → u'.touched.contains h = true
  /-- A group that is not touched stays as it is. -/
  untouched : ∀ h, ¬ u'.touched.contains h = true →
    c'.groupKeys h = c.groupKeys h ∧ c'.blobs h = c.blobs h
  /-- A group that loses nothing is not left empty. -/
  unretracted : ∀ h, ¬ u'.retracted.contains h = true → c.Occupied h → c'.Occupied h

namespace Moves

variable {c c₁ c₂ : Contents} {u u₁ u₂ : Update}

theorem refl (h : Shows c u) (hl : c.Lockstep) : Moves c u c u where
  shows := h
  lockstep := hl
  index := rfl
  definition := rfl
  touched _ hh := hh
  retracted _ hh := hh
  within hh := hh
  untouched _ _ := ⟨rfl, rfl⟩
  unretracted _ _ ho := ho

theorem trans (h : Moves c u c₁ u₁) (h' : Moves c₁ u₁ c₂ u₂) : Moves c u c₂ u₂ where
  shows := h'.shows
  lockstep := h'.lockstep
  index := h'.index.trans h.index
  definition := h'.definition.trans h.definition
  touched k hk := h'.touched k (h.touched k hk)
  retracted k hk := h'.retracted k (h.retracted k hk)
  within hw := h'.within (h.within hw)
  untouched k hk := by
    obtain ⟨hkeys, hblobs⟩ := h.untouched k (mt (h'.touched k) hk)
    obtain ⟨hkeys', hblobs'⟩ := h'.untouched k hk
    exact ⟨hkeys'.trans hkeys, hblobs'.trans hblobs⟩
  unretracted k hk ho := h'.unretracted k hk (h.unretracted k (mt (h'.retracted k) hk) ho)

/-- Entering a document. -/
theorem enter (hl : c.Lockstep) {etag : Etag} {m : Mapping} {blob key : Bytes}
    (hlt : c.last.toNat < etag.toNat) (h : Shows (c.enter etag m blob key) u₁)
    (hindex : u₁.index = u.index) (htouched : u₁.touched = u.touched.insert m.hash ())
    (hretracted : u₁.retracted = u.retracted) : Moves c u (c.enter etag m blob key) u₁ where
  shows := h
  lockstep := Contents.lockstep_enter hl hlt blob key
  index := hindex
  definition := rfl
  touched k hk := by
    rw [htouched, OrderedMap.contains_insert]
    exact .inr hk
  retracted k hk := hretracted ▸ hk
  within hw k hk := by
    rw [htouched, OrderedMap.contains_insert]
    exact .inr (hw k (hretracted ▸ hk))
  untouched k hk := by
    rw [htouched, OrderedMap.contains_insert, not_or] at hk
    refine ⟨by rw [Contents.groupKeys_enter, if_neg hk.1], funext fun f => ?_⟩
    rw [Contents.blobs_enter, if_neg fun e => hk.1 e.1]
  unretracted k _ := by
    rintro ⟨f, hf⟩
    refine ⟨f, ?_⟩
    rw [Contents.blobs_enter]
    split
    · rfl
    · exact hf

/-- Removing an entry. -/
theorem remove (hl : c.Lockstep) {etag : Etag} {m : Mapping} (hm : c.rows etag = some m)
    (h : Shows (c.remove etag m.hash) u₁) (hindex : u₁.index = u.index)
    (htouched : u₁.touched = u.touched.insert m.hash ())
    (hretracted : u₁.retracted = u.retracted.insert m.hash ()) :
    Moves c u (c.remove etag m.hash) u₁ where
  shows := h
  lockstep := Contents.lockstep_remove hl hm
  index := hindex
  definition := Contents.definition_remove ..
  touched k hk := by
    rw [htouched, OrderedMap.contains_insert]
    exact .inr hk
  retracted k hk := by
    rw [hretracted, OrderedMap.contains_insert]
    exact .inr hk
  within hw k hk := by
    rw [hretracted, OrderedMap.contains_insert] at hk
    rw [htouched, OrderedMap.contains_insert]
    exact hk.imp_right (hw k)
  untouched k hk := by
    rw [htouched, OrderedMap.contains_insert, not_or] at hk
    refine ⟨Contents.groupKeys_remove_of_ne c etag m.hash hk.1, funext fun f => ?_⟩
    rw [Contents.blobs_remove, if_neg fun e => hk.1 e.1]
  unretracted k hk := by
    rw [hretracted, OrderedMap.contains_insert, not_or] at hk
    rintro ⟨f, hf⟩
    exact ⟨f, by rwa [Contents.blobs_remove, if_neg fun e => hk.1 e.1]⟩

end Moves

end Update

namespace Index

open Update

variable {ix : Index} {c : Contents} {u u' : Update}

/-! ### One change -/

theorem exec_removeEntries (h : Shows c u) (hl : c.Lockstep) (hix : u.index = ix.name)
    (document : DocumentKey) {entries : List Entry}
    (hrows : ∀ e ∈ entries, ∃ m, c.rows e.etag = some m ∧ m.hash = e.hash)
    (hne : entries.Pairwise fun a b => a.etag ≠ b.etag) :
    ∃ u', (entries.forM (ix.removeEntry document)).exec u = (.ok (), u') ∧
      Moves c u (c.removeAll entries) u' := by
  induction entries generalizing c u with
  | nil => exact ⟨u, rfl, .refl h hl⟩
  | cons e entries ih =>
      obtain ⟨⟨m, hm, hhash⟩, hrest⟩ := List.forall_mem_cons.1 hrows
      obtain ⟨hehead, hne⟩ := List.pairwise_cons.1 hne
      obtain ⟨txn, opened, events, hexec, hshows⟩ := exec_removeEntry h hix document e
      rw [← hhash] at hexec hshows
      have hmoves := Moves.remove hl hm hshows (u := u) rfl rfl rfl
      -- the other entries have other etags, so their rows are still there
      have hrest' : ∀ f ∈ entries, ∃ m', (c.remove e.etag m.hash).rows f.etag = some m' ∧
          m'.hash = f.hash := fun f hf => by
        rw [Contents.rows_remove, if_neg (hehead f hf).symm]
        exact hrest f hf
      obtain ⟨u', hexec', hmoves'⟩ := ih hshows hmoves.lockstep hix hrest' hne
      refine ⟨u', ?_, ?_⟩
      · rw [exec_forM_cons, exec_bind_ok hexec, hexec']
      · rw [hhash] at hmoves hmoves'
        exact hmoves.trans hmoves'

theorem exec_view_ofDocument (hix : u.index = ix.name) (key : DocumentKey) :
    (Update.view (EntryTable.ofDocument ix.name · key)).exec u =
      (EntryTable.ofDocument u.index u.snapshot key, u) := by
  rw [Update.view, exec_bind_ok (exec_get u), exec_lift, hix]

/-- **Removing a document** removes the entries that the table has for it. -/
theorem exec_removeDocument_of_short (h : Shows c u) (hl : c.Lockstep) (hix : u.index = ix.name)
    {key : DocumentKey} (hlen : key.length < Bytes.capacity 4) :
    ∃ entries u', c.Finds key entries ∧
      (ix.removeDocument key).exec u = (.ok entries.length, u') ∧
      Moves c u (c.removeAll entries) u' := by
  have hview := exec_view_ofDocument hix key
  obtain ⟨entries, hfound, hmem, hasc⟩ := EntryTable.ofDocument_eq h.holds.table hlen
  rw [hfound] at hview
  have hrows : ∀ e ∈ entries, ∃ m, c.rows e.etag = some m ∧ m.hash = e.hash := fun e he => by
    obtain ⟨m, hm, -, hentry⟩ := (hmem e).1 he
    exact ⟨m, hm, by rw [hentry]; rfl⟩
  -- no row is found twice
  have hne : entries.Pairwise fun a b => a.etag ≠ b.etag := hasc.imp fun hlt e => by
    rw [e] at hlt
    exact Nat.lt_irrefl _ hlt
  obtain ⟨u', hexec, hmoves⟩ := exec_removeEntries h hl hix key hrows hne
  refine ⟨entries, u', ⟨hmem, hasc⟩, ?_, hmoves⟩
  rw [removeDocument, exec_bind_ok hview, exec_bind_ok hexec]
  rfl

/-- It fails only on a key that is too long to be looked for. -/
theorem exec_removeDocument (h : Shows c u) (hl : c.Lockstep) (hix : u.index = ix.name)
    (key : DocumentKey) :
    (∃ e, (ix.removeDocument key).exec u = (.error e, u)) ∨
    ∃ entries u', c.Finds key entries ∧
      (ix.removeDocument key).exec u = (.ok entries.length, u') ∧
      Moves c u (c.removeAll entries) u' := by
  by_cases hlen : key.length < Bytes.capacity 4
  · exact .inr (exec_removeDocument_of_short h hl hix hlen)
  · have hview := exec_view_ofDocument hix key
    obtain ⟨e, hfound⟩ := @EntryTable.ofDocument_of_long u.index u.snapshot key hlen
    rw [hfound] at hview
    exact .inl ⟨e, by rw [removeDocument, exec_bind_error hview]⟩

/-- What a change does to the contents, and what it answers. -/
inductive Applied (ix : Index) : Change → Contents → Contents → BatchResult → Prop where
  | put {c : Contents} {document : Document} {entries : List Entry} {group : Value}
      {key blob : Bytes} {hash : GroupHash} {etag : Etag} (hfinds : c.Finds document.key entries)
      (hgroup : ix.groupOf document.data = .ok (group, key, hash))
      (hblob : (ix.definition.mapped document.data).encode = .ok blob)
      (hlt : c.last.toNat < etag.toNat) :
      Applied ix (.put document) c
        ((c.removeAll entries).enter etag ⟨document.key, hash⟩ blob key)
        { mapped := 1, retracted := entries.length, etags := [etag] }
  | delete {c : Contents} {key : DocumentKey} {entries : List Entry}
      (hfinds : c.Finds key entries) :
      Applied ix (.delete key) c (c.removeAll entries)
        { deleted := 1, retracted := entries.length }

theorem exec_applyChange (h : Shows c u) (hl : c.Lockstep) (hix : u.index = ix.name)
    {change : Change} {result : BatchResult}
    (hexec : (ix.applyChange change).exec u = (.ok result, u')) :
    ∃ c', Applied ix change c c' result ∧ Moves c u c' u' := by
  cases change with
  | put document =>
      rw [applyChange, exec_bind_eq_ok] at hexec
      obtain ⟨n, u₁, hremove, hexec⟩ := hexec
      rcases exec_removeDocument h hl hix document.key with
        ⟨e, he⟩ | ⟨entries, u₁', hfinds, he, hmoves⟩ <;> rw [he] at hremove <;> cases hremove
      rw [exec_bind_eq_ok] at hexec
      obtain ⟨etag, u₂, hmap, hexec⟩ := hexec
      cases hexec
      have hfree := hmoves.shows.rows_next hmoves.lockstep
      rcases exec_mapDocument hmoves.shows hfree (hmoves.index.trans hix) document with
        ⟨e, he⟩ | ⟨-, e, _, he⟩ |
          ⟨group, key, hash, blob, etag', txn, opened, events, hgroup, hblob, hnext, he, hshows⟩ <;>
        rw [he] at hmap <;> cases hmap
      -- the etag is one that the trees have not seen
      have hlt := hmoves.shows.lt_next hnext
      refine ⟨_, .put hfinds hgroup hblob (by rwa [Contents.last_removeAll] at hlt), ?_⟩
      exact hmoves.trans (.enter hmoves.lockstep hlt hshows rfl rfl rfl)
  | delete key =>
      rw [applyChange, exec_bind_eq_ok] at hexec
      obtain ⟨n, u₁, hremove, hexec⟩ := hexec
      rcases exec_removeDocument h hl hix key with
        ⟨e, he⟩ | ⟨entries, u₁', hfinds, he, hmoves⟩ <;> rw [he] at hremove <;> cases hremove
      cases hexec
      exact ⟨_, .delete hfinds, hmoves⟩

/-! ### A batch of changes -/

/-- What changes in order do to the contents, and what they answer together. -/
inductive AppliedAll (ix : Index) : List Change → Contents → Contents → BatchResult → Prop where
  | nil (c : Contents) : AppliedAll ix [] c c {}
  | cons {c c₁ c₂ : Contents} {change : Change} {changes : List Change}
      {first rest : BatchResult} (h : Applied ix change c c₁ first)
      (t : AppliedAll ix changes c₁ c₂ rest) :
      AppliedAll ix (change :: changes) c c₂ (first ++ rest)

theorem exec_applyChanges (h : Shows c u) (hl : c.Lockstep) (hix : u.index = ix.name)
    {changes : List Change} {result : BatchResult}
    (hexec : (ix.applyChanges changes).exec u = (.ok result, u')) :
    ∃ c', AppliedAll ix changes c c' result ∧ Moves c u c' u' := by
  induction changes generalizing c u result with
  | nil =>
      cases hexec
      exact ⟨c, .nil c, .refl h hl⟩
  | cons change changes ih =>
      rw [applyChanges, exec_bind_eq_ok] at hexec
      obtain ⟨first, u₁, hfirst, hexec⟩ := hexec
      rw [exec_adapt, Prod.mk.injEq, mapError_eq_ok_iff] at hfirst
      obtain ⟨c₁, happlied, hmoves⟩ := exec_applyChange h hl hix (Prod.ext hfirst.1 hfirst.2)
      rw [exec_bind_eq_ok] at hexec
      obtain ⟨rest, u₂, hrest, hexec⟩ := hexec
      cases hexec
      obtain ⟨c₂, happlied', hmoves'⟩ :=
        ih hmoves.shows hmoves.lockstep (hmoves.index.trans hix) hrest
      exact ⟨c₂, .cons happlied happlied', hmoves.trans hmoves'⟩

end Index

end Rollup
