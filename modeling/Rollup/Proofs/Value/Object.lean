import Rollup.Value.Encoding
import Mathlib.Data.List.Nodup

/-!
# Objects — maps from field names

Putting the pairs of a map in canonical order rearranges them (`ofPairs_eq`), so a map made of
fields with distinct names has just these fields (`field?_object`).
-/

namespace Rollup.Value

/-- The pairs of a map, rearranged. -/
theorem ofPairs_eq (pairs : List (Value × Value)) :
    ∃ sorted, ofPairs pairs = .map sorted ∧ sorted.Perm pairs := by
  refine ⟨_, rfl, ?_⟩
  have h := (List.mergeSort_perm (pairs.map fun p => (orderBytes p.1, p)) keyLe).map (·.2)
  have hid : ((fun x : Bytes × Value × Value => x.2) ∘ fun p => (orderBytes p.1, p)) = id := rfl
  rwa [List.map_map, hid, List.map_id] at h

theorem field?_map (pairs : List (Value × Value)) (name : String) :
    (Value.map pairs).field? name =
      (pairs.find? fun p => p.1.asText == some name).map (·.2) := by
  show (pairs.find? _).bind _ = _
  cases pairs.find? fun p => p.1.asText == some name <;> rfl

/-- **The fields of an object** with distinct names. -/
theorem field?_object {fields : List (String × Value)} (hnames : (fields.map (·.1)).Nodup)
    {name : String} {v : Value} (h : (name, v) ∈ fields) :
    (object fields).field? name = some v := by
  obtain ⟨sorted, heq, hperm⟩ := ofPairs_eq (fields.map fun f => (.text f.1, f.2))
  rw [object, heq, field?_map]
  have hmem : ∀ p, p ∈ sorted ↔ ∃ f ∈ fields, (Value.text f.1, f.2) = p := fun p => by
    rw [hperm.mem_iff, List.mem_map]
  cases hfind : sorted.find? fun p => p.1.asText == some name with
  | none =>
      have hnone := List.find?_eq_none.1 hfind _ ((hmem _).2 ⟨_, h, rfl⟩)
      exact absurd (beq_self_eq_true (some name)) hnone
  | some p =>
      obtain ⟨f, hf, rfl⟩ := (hmem p).1 (List.mem_of_find?_eq_some hfind)
      have hname : f.1 = name := by simpa [asText] using List.find?_some hfind
      have hsame : f = (name, v) := List.inj_on_of_nodup_map hnames hf h hname
      rw [hsame]
      rfl

end Rollup.Value
