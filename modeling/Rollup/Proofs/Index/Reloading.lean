import Rollup.Proofs.Index.Definition
import Rollup.Proofs.Index.Reopening
import Rollup.Proofs.Value.Acceptance
import Rollup.Proofs.Value.Stream

/-!
# Reloading — a definition survives being stored

A definition is stored as a value, and that value as its canonical form; when it is loaded, the form
is decoded and the fields of the value are looked up by their names.  The stored form nests three
levels deep at most, so it can always be written (`nesting_toValue_le`).  What is read out of a
value, whatever else lies in it and in whatever order, has parsed paths (`parsed_of_ofValue`) and
keeps to the limits that the value keeps to (`within_of_ofValue`).

**Survival** (`reload_survives`).  A definition is found again just when it is valid, its paths were
parsed and its stored form keeps to the limits of the reader; and what is read out of a value within
these limits is such a definition.
-/

namespace Rollup

namespace Value

/-! ### Nesting and limits of objects -/

theorem nestingItems_le_iff {items : List Value} {n : Nat} :
    nestingItems items ≤ n ↔ ∀ item ∈ items, item.nesting < n := by
  induction items with
  | nil => simp [nestingItems]
  | cons item items ih =>
      rw [nestingItems, List.forall_mem_cons, ← ih]
      omega

theorem nestingPairs_le_iff {pairs : List (Value × Value)} {n : Nat} :
    nestingPairs pairs ≤ n ↔ ∀ q ∈ pairs, q.1.nesting < n ∧ q.2.nesting < n := by
  induction pairs with
  | nil => simp [nestingPairs]
  | cons q pairs ih =>
      rw [nestingPairs, List.forall_mem_cons, ← ih]
      omega

theorem nesting_array_le_iff {items : List Value} {n : Nat} :
    (array items).nesting ≤ n ↔ ∀ item ∈ items, item.nesting < n := by
  rw [nesting, nestingItems_le_iff]

theorem nesting_object_le_iff {fields : List (String × Value)} {n : Nat} :
    (object fields).nesting ≤ n ↔ ∀ f ∈ fields, 0 < n ∧ f.2.nesting < n := by
  obtain ⟨sorted, heq, hperm⟩ := ofPairs_eq (fields.map fun f => (.text f.1, f.2))
  rw [object, heq, nesting, nestingPairs_le_iff]
  simp only [hperm.mem_iff, List.forall_mem_map, nesting]

theorem limited_object_iff {fields : List (String × Value)} {bytes items : Nat} :
    (object fields).Limited bytes items ↔ fields.length ≤ items ∧
      ∀ f ∈ fields, (text f.1).Limited bytes items ∧ f.2.Limited bytes items := by
  obtain ⟨sorted, heq, hperm⟩ := ofPairs_eq (fields.map fun f => (.text f.1, f.2))
  rw [object, heq]
  simp only [Limited, limitedPairs_iff]
  simp only [hperm.length_eq, hperm.mem_iff, List.length_map, List.forall_mem_map, Limited]

theorem limited_array_iff {vs : List Value} {bytes items : Nat} :
    (array vs).Limited bytes items ↔ vs.length ≤ items ∧ ∀ v ∈ vs, v.Limited bytes items := by
  simp only [Limited, limitedItems_iff]

/-- What lies in a value keeps to the limits of the value. -/
theorem Limited.field? {v w : Value} {name : String} {bytes items : Nat}
    (h : v.Limited bytes items) (hw : v.field? name = some w) : w.Limited bytes items := by
  cases v
  case map pairs =>
    rw [field?_map, Option.map_eq_some_iff] at hw
    obtain ⟨q, hq, rfl⟩ := hw
    simp only [Limited] at h
    exact (limitedPairs_iff.1 h.2 q (List.mem_of_find?_eq_some hq)).2
  all_goals cases hw

end Value

namespace Definition

open Value

/-! ### Reading the parts of a stored definition -/

theorem textField_eq_ok_iff {v : Value} {name text : String} :
    textField v name = .ok text ↔ v.field? name = some (.text text) := by
  rw [textField]
  cases v.field? name with
  | none => simp
  | some w => cases w <;> simp [asText]

theorem listField_eq_ok_iff {v : Value} {name : String} {items : List Value} :
    listField v name = .ok items ↔ v.field? name = some (.array items) := by
  rw [listField]
  cases v.field? name with
  | none => simp
  | some w => cases w <;> simp [asArray]

theorem name_ofName {text : String} {aggregate : Aggregate}
    (h : Aggregate.ofName text = .ok aggregate) : aggregate.name = text := by
  rw [Aggregate.ofName] at h
  split_ifs at h with hfirst hcount hsum <;> cases h
  · exact hfirst.symm
  · exact hcount.symm
  · exact hsum.symm

/-- **A field that is read** is made of three texts of the value; its path was parsed from one. -/
theorem ofValue_field_eq_ok {v : Value} {field : IndexField}
    (h : IndexField.ofValue v = .ok field) :
    v.field? "name" = some (.text field.name) ∧ v.field? "path" = some (.text field.path.text) ∧
      v.field? "op" = some (.text field.aggregate.name) ∧ IndexField.Parsed field := by
  obtain ⟨name, hname, h⟩ := bind_eq_ok_iff.1 h
  obtain ⟨path, hpath, h⟩ := bind_eq_ok_iff.1 h
  obtain ⟨op, hop, h⟩ := bind_eq_ok_iff.1 h
  obtain ⟨aggregate, haggregate, h⟩ := bind_eq_ok_iff.1 h
  rw [IndexField.make] at h
  cases hparse : FieldPath.parse path with
  | error e =>
      rw [hparse] at h
      cases h
  | ok parsed =>
      rw [hparse] at h
      cases h
      refine ⟨textField_eq_ok_iff.1 hname, ?_, ?_, path, hparse⟩
      · rw [FieldPath.text_of_parse hparse]
        exact textField_eq_ok_iff.1 hpath
      · rw [name_ofName haggregate]
        exact textField_eq_ok_iff.1 hop

/-- **A definition that is read** is made of two texts and two lists of the value, and is valid. -/
theorem ofValue_eq_ok {v : Value} {d : Definition} (h : ofValue v = .ok d) :
    v.field? "name" = some (.text d.name) ∧ v.field? "collection" = some (.text d.collection) ∧
      (∃ items, v.field? "map" = some (.array items) ∧
        items.mapM IndexField.ofValue = .ok d.fields) ∧
      (∃ items, v.field? "group_by" = some (.array items) ∧
        items.mapM IndexField.ofValue = .ok d.groupBy) ∧
      d.validate = .ok () := by
  obtain ⟨name, hname, h⟩ := bind_eq_ok_iff.1 h
  obtain ⟨collection, hcollection, h⟩ := bind_eq_ok_iff.1 h
  obtain ⟨mapItems, hmap, h⟩ := bind_eq_ok_iff.1 h
  obtain ⟨fields, hfields, h⟩ := bind_eq_ok_iff.1 h
  obtain ⟨groupItems, hgroup, h⟩ := bind_eq_ok_iff.1 h
  obtain ⟨groupBy, hgroupBy, h⟩ := bind_eq_ok_iff.1 h
  obtain ⟨_, hvalid, h⟩ := bind_eq_ok_iff.1 h
  cases h
  exact ⟨textField_eq_ok_iff.1 hname, textField_eq_ok_iff.1 hcollection,
    ⟨mapItems, listField_eq_ok_iff.1 hmap, hfields⟩,
    ⟨groupItems, listField_eq_ok_iff.1 hgroup, hgroupBy⟩, hvalid⟩

theorem validate_of_ofValue {v : Value} {d : Definition} (h : ofValue v = .ok d) :
    d.validate = .ok () := (ofValue_eq_ok h).2.2.2.2

/-- Whatever is read has parsed paths. -/
theorem parsed_of_ofValue {v : Value} {d : Definition} (h : ofValue v = .ok d) : d.Parsed := by
  obtain ⟨-, -, ⟨mapItems, -, hfields⟩, ⟨groupItems, -, hgroupBy⟩, -⟩ := ofValue_eq_ok h
  have hread : ∀ {items : List Value} {fields}, items.mapM IndexField.ofValue = .ok fields →
      ∀ field ∈ fields, IndexField.Parsed field := fun h field hfield => by
    obtain ⟨item, -, hitem⟩ := (mem_of_mapM h).1 hfield
    exact (ofValue_field_eq_ok hitem).2.2.2
  intro field hfield
  rcases List.mem_append.1 hfield with hfield | hfield
  · exact hread hfields field hfield
  · exact hread hgroupBy field hfield

/-! ### Nesting and limits of the stored form -/

theorem within_text_of_le {s : String} (h : (Utf8.encode s).length ≤ 16) : (text s).Within := by
  simp only [Within, Limited]
  exact Nat.le_trans h (by decide)

/-- What is stored of a field keeps to the limits just when its name and its path do. -/
theorem within_toValue_field_iff {field : IndexField} : field.toValue.Within ↔
    (text field.name).Within ∧ (text field.path.text).Within := by
  have hop : (text field.aggregate.name).Within :=
    within_text_of_le (by cases field.aggregate <;> decide +kernel)
  rw [IndexField.toValue, Within, limited_object_iff]
  simp only [List.forall_mem_cons, List.length_cons, List.length_nil]
  constructor
  · rintro ⟨-, ⟨-, hname⟩, ⟨-, hpath⟩, -⟩
    exact ⟨hname, hpath⟩
  · rintro ⟨hname, hpath⟩
    exact ⟨by decide, ⟨within_text_of_le (by decide +kernel), hname⟩,
      ⟨within_text_of_le (by decide +kernel), hpath⟩,
      ⟨within_text_of_le (by decide +kernel), hop⟩, by simp⟩

/-- **What is stored keeps to the limits** just when its names, paths and lists do. -/
theorem within_toValue_iff {d : Definition} : d.toValue.Within ↔
    (text d.name).Within ∧ (text d.collection).Within ∧
      (d.fields.length ≤ maxItems ∧ ∀ field ∈ d.fields, field.toValue.Within) ∧
      (d.groupBy.length ≤ maxItems ∧ ∀ field ∈ d.groupBy, field.toValue.Within) := by
  rw [toValue, Within, limited_object_iff]
  simp only [List.forall_mem_cons, List.length_cons, List.length_nil, limited_array_iff,
    List.length_map, List.forall_mem_map]
  constructor
  · rintro ⟨-, ⟨-, hname⟩, ⟨-, hcollection⟩, ⟨-, hfields⟩, ⟨-, hgroupBy⟩, -⟩
    exact ⟨hname, hcollection, hfields, hgroupBy⟩
  · rintro ⟨hname, hcollection, hfields, hgroupBy⟩
    exact ⟨by decide, ⟨within_text_of_le (by decide +kernel), hname⟩,
      ⟨within_text_of_le (by decide +kernel), hcollection⟩,
      ⟨within_text_of_le (by decide +kernel), hfields⟩,
      ⟨within_text_of_le (by decide +kernel), hgroupBy⟩, by simp⟩

theorem nesting_toValue_le (d : Definition) : d.toValue.nesting ≤ 3 := by
  have hfield : ∀ field : IndexField, field.toValue.nesting ≤ 1 := fun field => by
    rw [IndexField.toValue, nesting_object_le_iff]
    simp [nesting]
  have hfields : ∀ l : List IndexField,
      (array (l.map IndexField.toValue)).nesting ≤ 2 := fun l => by
    rw [nesting_array_le_iff, List.forall_mem_map]
    exact fun field _ => Nat.lt_succ_of_le (hfield field)
  rw [toValue, nesting_object_le_iff]
  simp only [List.forall_mem_cons, nesting]
  exact ⟨by decide, by decide, ⟨by decide, Nat.lt_succ_of_le (hfields _)⟩,
    ⟨by decide, Nat.lt_succ_of_le (hfields _)⟩, by simp⟩

/-- A definition can always be written down. -/
theorem exists_encode_toValue (d : Definition) : ∃ form, d.toValue.encode = .ok form :=
  nesting_le_iff.1 (Nat.le_trans (nesting_toValue_le d) (by decide))

theorem within_of_ofValue_field {v : Value} {field : IndexField} (hwithin : v.Within)
    (h : IndexField.ofValue v = .ok field) : field.toValue.Within := by
  obtain ⟨hname, hpath, -, -⟩ := ofValue_field_eq_ok h
  exact within_toValue_field_iff.2 ⟨hwithin.field? hname, hwithin.field? hpath⟩

/-- **What is read** keeps to the limits that the value keeps to. -/
theorem within_of_ofValue {v : Value} {d : Definition} (hwithin : v.Within)
    (h : ofValue v = .ok d) : d.toValue.Within := by
  obtain ⟨hname, hcollection, ⟨mapItems, hmap, hfields⟩, ⟨groupItems, hgroup, hgroupBy⟩, -⟩ :=
    ofValue_eq_ok h
  have hread : ∀ {items : List Value} {fields}, (array items).Within →
      items.mapM IndexField.ofValue = .ok fields →
        fields.length ≤ maxItems ∧ ∀ field ∈ fields, field.toValue.Within := by
    intro items fields hitems h
    obtain ⟨hcount, hitems⟩ := limited_array_iff.1 hitems
    rw [(mapM_eq_ok_iff.1 h).length_eq] at hcount
    refine ⟨hcount, fun field hfield => ?_⟩
    obtain ⟨item, hitem, hfield⟩ := (mem_of_mapM h).1 hfield
    exact within_of_ofValue_field (hitems item hitem) hfield
  exact within_toValue_iff.2 ⟨hwithin.field? hname, hwithin.field? hcollection,
    hread (hwithin.field? hmap) hfields, hread (hwithin.field? hgroup) hgroupBy⟩

/-! ### Storing and loading -/

/-- The definition that is loaded after this one is stored. -/
def reload (d : Definition) : Except IndexError Definition := do
  let stored ← d.toValue.encode.mapError .encoding
  ofValue (← (decode stored).mapError .encoding)

/-- Whatever is loaded was read out of a value within the limits of the reader. -/
theorem read_of_reload {d found : Definition} (h : d.reload = .ok found) :
    ∃ v : Value, v.Within ∧ ofValue v = .ok found := by
  obtain ⟨stored, -, h⟩ := bind_eq_ok_iff.1 h
  obtain ⟨v, hv, hfound⟩ := bind_eq_ok_iff.1 h
  rw [mapError_eq_ok_iff, decode_eq_ok_iff] at hv
  exact ⟨v, hv.2.2, hfound⟩

/-- Within the limits, it is the stored value that is read again. -/
theorem reload_of_within {d : Definition} (h : d.toValue.Within) :
    d.reload = ofValue d.toValue := by
  obtain ⟨form, hform⟩ := exists_encode_toValue d
  have hdecode : decode form = .ok d.toValue := decode_encode (canonical_toValue d) h hform
  rw [reload, hform]
  show ((decode form).mapError IndexError.encoding >>= ofValue) = _
  rw [hdecode]
  rfl

theorem reload_eq_self_iff {d : Definition} :
    d.reload = .ok d ↔ d.validate = .ok () ∧ d.Parsed ∧ d.toValue.Within := by
  constructor
  · intro h
    obtain ⟨v, hwithin, hv⟩ := read_of_reload h
    exact ⟨validate_of_ofValue hv, parsed_of_ofValue hv, within_of_ofValue hwithin hv⟩
  · rintro ⟨hvalid, hparsed, hwithin⟩
    rw [reload_of_within hwithin, ofValue_toValue hvalid hparsed]

/-- **Survival**.  A definition is loaded as it was stored just when it is valid, its paths were
parsed and its stored form keeps to the limits of the reader.  What is read out of any value within
these limits is valid, and is loaded as it is stored. -/
theorem reload_survives :
    (∀ d : Definition, d.reload = .ok d ↔ d.validate = .ok () ∧ d.Parsed ∧ d.toValue.Within) ∧
      ∀ (v : Value) (d : Definition), v.Within → ofValue v = .ok d →
        d.validate = .ok () ∧ d.reload = .ok d := by
  refine ⟨fun d => reload_eq_self_iff, fun v d hwithin h => ?_⟩
  have hvalid := validate_of_ofValue h
  exact ⟨hvalid, reload_eq_self_iff.2 ⟨hvalid, parsed_of_ofValue h, within_of_ofValue hwithin h⟩⟩

/-- A stored form with a field that no definition has, its fields in no canonical order. -/
def strayForm : Value :=
  .map [(.text "group_by", .array [.map [(.text "op", .text "None"), (.text "name", .text "k"),
      (.text "path", .text "k")]]),
    (.text "version", .integer 2), (.text "name", .text "i"), (.text "map", .array []),
    (.text "collection", .text "c")]

theorem reload_survives_of_stray :
    Index.minimal.reload = .ok Index.minimal ∧ ∃ d, ofValue strayForm = .ok d ∧
      d.validate = .ok () ∧ d.reload = .ok d := by
  obtain ⟨hsurvives, hread⟩ := reload_survives
  have hwithin : strayForm.Within := by
    simp only [strayForm, Within, Limited, LimitedPairs, LimitedItems]
    decide +kernel
  have hstray : ∃ d, ofValue strayForm = .ok d := exists_of_isOk (by decide +kernel)
  obtain ⟨d, hd⟩ := hstray
  refine
    ⟨(hsurvives _).2 ⟨by decide +kernel, Index.parsed_minimal, Index.within_minimal⟩, d, hd, ?_⟩
  exact hread strayForm d hwithin hd

end Definition

end Rollup
