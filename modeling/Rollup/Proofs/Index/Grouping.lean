import Rollup.Proofs.FieldPath.Rearranged
import Rollup.Proofs.Index.Creation

/-!
# Grouping — what of a document decides its group

A document enters an index by two projections, written in canonical form: its group key, whose
bytes are hashed, and what it contributes.  The bytes of a value tell the value up to the order of
the pairs in its maps, so this is how well they tell group keys apart (`hashed_bytes_identify`).

The order of the pairs in a document is lost on the way.  Rearranged documents are mapped by the
same step (`mapDocument_of_rearranged`), and batches of them do the same from every state
(`Live.runBatch_of_rearranged`).
-/

namespace Rollup

/-! ### Projections of rearranged documents -/

/-- Objects with rearranged fields, one by one, are written alike. -/
theorem Value.encode_object_eq {fields fields' : List (String × Value)}
    (h : List.Forall₂ (fun f f' => f.1 = f'.1 ∧ Rearranged f.2 f'.2) fields fields') :
    (object fields).encode = (object fields').encode := by
  have hpairs : RearrangedPairs (fields.map fun f => (.text f.1, f.2))
      (fields'.map fun f => (.text f.1, f.2)) := by
    rw [rearrangedPairs_iff, List.forall₂_map_left_iff, List.forall₂_map_right_iff]
    exact h.imp fun f f' hf => ⟨hf.1 ▸ .refl _, hf.2⟩
  rw [object, object, ofPairs_eq_ranked, ofPairs_eq_ranked, encode, encode,
    (reordered_ranked _).write_eq, (reordered_ranked _).write_eq,
    (Rearranged.map (.refl _) hpairs).write_eq]

namespace Definition

variable (d : Definition) {document document' : Value}

theorem encode_groupKey_of_rearranged (h : document.Rearranged document') :
    (d.groupKey document).encode = (d.groupKey document').encode := by
  refine Value.encode_object_eq ?_
  rw [List.forall₂_map_left_iff, List.forall₂_map_right_iff]
  exact List.forall₂_same.2 fun field _ => ⟨rfl, field.path.rearranged_readOrNull h⟩

theorem encode_mapped_of_rearranged (h : document.Rearranged document') :
    (d.mapped document).encode = (d.mapped document').encode := by
  refine Value.encode_object_eq ?_
  rw [List.forall₂_map_left_iff, List.forall₂_map_right_iff]
  refine List.forall₂_same.2 fun field _ => ?_
  cases field.aggregate with
  | count => exact ⟨rfl, .refl _⟩
  | sum => exact ⟨rfl, field.path.rearranged_readOrNull h⟩
  | first => exact ⟨rfl, field.path.rearranged_readOrNull h⟩

end Definition

namespace Index

variable (ix : Index)

/-! ### Group keys -/

/-- **The bytes that are hashed** are those of the group key, and they tell it up to the order of
the pairs in its maps, as the bytes of every value do that has fewer than `2 ^ 64`. -/
theorem hashed_bytes_identify :
    (∀ {v w : Value} {form form' : Bytes}, v.encode = .ok form → w.encode = .ok form' →
      form.length < Bytes.capacity 8 → (form = form' ↔ v.inOrder = w.inOrder)) ∧
    ∀ (ix : Index) {document document' key key' : Value} {stored stored' : Bytes}
      {hash hash' : GroupHash}, ix.groupOf document = .ok (key, stored, hash) →
      ix.groupOf document' = .ok (key', stored', hash') → stored.length < Bytes.capacity 8 →
      (hash = ix.config.hash stored ∧ hash' = ix.config.hash stored') ∧
        (stored = stored' ↔ (ix.definition.groupKey document).inOrder =
          (ix.definition.groupKey document').inOrder) := by
  refine ⟨Value.encode_eq_iff_of_short, ?_⟩
  intro ix document document' key key' stored stored' hash hash' h h' hlen
  obtain ⟨rfl, hstored, hhash⟩ := groupOf_eq_ok_iff.1 h
  obtain ⟨rfl, hstored', hhash'⟩ := groupOf_eq_ok_iff.1 h'
  exact ⟨⟨hhash, hhash'⟩, Value.encode_eq_iff_of_short hstored hstored' hlen⟩

/-- Two documents whose group keys have their pairs in different orders. -/
theorem hashed_bytes_identify_of_swapped :
    let v : Value := .map [(.text "a", .integer 1), (.text "b", .null)]
    let w : Value := .map [(.text "b", .null), (.text "a", .integer 1)]
    let stored : Bytes := [161, 97, 103, 162, 97, 97, 1, 97, 98, 246]
    let ix : Index := ⟨minimal, {}, .zero, {}⟩
    ix.groupOf (.map [(.text "g", v)]) =
        .ok (.map [(.text "g", v)], stored, GroupHash.ofBytes stored) ∧
      ix.groupOf (.map [(.text "g", w)]) =
        .ok (.map [(.text "g", w)], stored, GroupHash.ofBytes stored) ∧
      v.inOrder = w.inOrder ∧
      (minimal.groupKey (.map [(.text "g", v)])).inOrder =
        (minimal.groupKey (.map [(.text "g", w)])).inOrder := by
  intro v w stored ix
  have hkey : ∀ u : Value, ix.definition.groupKey (.map [(.text "g", u)]) = .map [(.text "g", u)] :=
    fun u => Value.ofPairs_of_perm (.refl _) (List.pairwise_singleton _ _)
  have hswap : v.Rearranged w :=
    (Value.Reordered.of_perm (.swap _ _ _) (by decide +kernel)).rearranged
  have hform : v.encode = .ok [162, 97, 97, 1, 97, 98, 246] :=
    (Value.decode_eq_ok_iff.1 (by rfl)).1
  have hstored : (Value.map [(.text "g", v)]).encode = .ok stored :=
    (Value.decode_eq_ok_iff.1 (by rfl)).1
  have hstored' : (Value.map [(.text "g", w)]).encode = .ok stored :=
    (Value.Rearranged.map (.refl _) (.cons (.refl _) hswap .nil)).encode_eq ▸ hstored
  have hgroup := groupOf_eq_ok_iff.2 ⟨(hkey v).symm, hstored, rfl⟩
  have hgroup' := groupOf_eq_ok_iff.2 ⟨(hkey w).symm, hstored', rfl⟩
  obtain ⟨hvalues, hkeys⟩ := hashed_bytes_identify
  exact ⟨hgroup, hgroup', (hvalues hform (hswap.encode_eq ▸ hform) (by decide)).1 rfl,
    (hkeys ix hgroup hgroup' (by decide)).2.1 rfl⟩

/-! ### Mapping -/

/-- **Rearranged documents** are mapped by the same step. -/
theorem mapDocument_of_rearranged (key : DocumentKey) {document document' : Value}
    (h : document.Rearranged document') :
    ix.mapDocument ⟨key, document⟩ = ix.mapDocument ⟨key, document'⟩ := by
  have hgroup := ix.definition.encode_groupKey_of_rearranged h
  have hblob := ix.definition.encode_mapped_of_rearranged h
  rw [mapDocument, mapDocument, groupOf, groupOf, hgroup, hblob]
  cases (ix.definition.groupKey document').encode <;> rfl

/-- **The order of the pairs** in the maps of a document, at any depth, has no effect.  Rearranged
documents do the same to every state of an index, or fail alike; they fall into one group, and what
they contribute is written alike.  For any path can be read before maps are put into canonical
order, or after. -/
theorem pair_order_irrelevant (key : DocumentKey) {document document' : Value}
    (h : document.Rearranged document') :
    (∀ u, (ix.mapDocument ⟨key, document⟩).exec u = (ix.mapDocument ⟨key, document'⟩).exec u) ∧
      (ix.groupOf document).map (·.2) = (ix.groupOf document').map (·.2) ∧
      (ix.definition.mapped document).encode = (ix.definition.mapped document').encode ∧
      ∀ (path : FieldPath) (v : Value), path.read v.inOrder = (path.read v).map Found.inOrder := by
  refine ⟨fun u => ?_, ?_, ix.definition.encode_mapped_of_rearranged h, FieldPath.read_inOrder⟩
  · rw [ix.mapDocument_of_rearranged key h]
  · rw [groupOf, groupOf, ix.definition.encode_groupKey_of_rearranged h]
    cases (ix.definition.groupKey document').encode <;> rfl

/-- Two documents with their pairs in different orders. -/
theorem pair_order_irrelevant_of_swapped :
    let document : Value := .map [(.text "g", .integer 1), (.text "h", .null)]
    let document' : Value := .map [(.text "h", .null), (.text "g", .integer 1)]
    let ix : Index := ⟨minimal, {}, .zero, {}⟩
    document.Rearranged document' ∧
      (∀ u, (ix.mapDocument ⟨[1], document⟩).exec u = (ix.mapDocument ⟨[1], document'⟩).exec u) ∧
      (ix.groupOf document).map (·.2) = (ix.groupOf document').map (·.2) ∧
      (ix.definition.mapped document).encode = (ix.definition.mapped document').encode := by
  intro document document' ix
  have hswap : document.Rearranged document' :=
    (Value.Reordered.of_perm (.swap _ _ _) (by decide +kernel)).rearranged
  obtain ⟨hexec, hgroup, hblob, -⟩ := ix.pair_order_irrelevant [1] hswap
  exact ⟨hswap, hexec, hgroup, hblob⟩

end Index

/-! ### Batches -/

/-- Changes that differ by the order of the pairs in their documents only. -/
inductive Change.Rearranged : Change → Change → Prop where
  | put (key : DocumentKey) {data data' : Value} (h : data.Rearranged data') :
      Rearranged (.put ⟨key, data⟩) (.put ⟨key, data'⟩)
  | delete (key : DocumentKey) : Rearranged (.delete key) (.delete key)

theorem Change.Rearranged.applyChange_eq (ix : Index) {change change' : Change}
    (h : change.Rearranged change') : ix.applyChange change = ix.applyChange change' := by
  cases h with
  | put key h => rw [Index.applyChange, Index.applyChange, ix.mapDocument_of_rearranged key h]
  | delete key => rfl

theorem Change.Rearranged.key_eq {change change' : Change} (h : change.Rearranged change') :
    change.key = change'.key := by
  cases h <;> rfl

theorem Index.applyChanges_of_rearranged (ix : Index) {changes changes' : List Change}
    (h : List.Forall₂ Change.Rearranged changes changes') :
    ix.applyChanges changes = ix.applyChanges changes' := by
  induction h with
  | nil => rfl
  | @cons change change' _ _ hchange _ ih =>
      have hname : ix.nameDocument change = ix.nameDocument change' :=
        funext fun cause => congrArg (IndexError.document ix.name · cause) hchange.key_eq
      rw [applyChanges, applyChanges, hchange.applyChange_eq, hname, ih]

/-- **Batches of rearranged documents** do the same from every state. -/
theorem Live.runBatch_of_rearranged {β σ : Type} [Backend β] (sink : Sink σ)
    {changes changes' : List Change} (h : List.Forall₂ Change.Rearranged changes changes') :
    (runBatch sink changes : Step β σ BatchResult) = runBatch sink changes' := by
  have hstage : ∀ live : Live β σ, live.stage changes = live.stage changes' := fun live => by
    rw [stage, stage, Index.prepare, Index.prepare, live.index.applyChanges_of_rearranged h]
  rw [runBatch, runBatch, commitBatch, commitBatch]
  simp only [hstage, h.length_eq]

end Rollup
