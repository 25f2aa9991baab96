import Rollup.Index.Definition
import Rollup.Proofs.FieldPath
import Rollup.Proofs.Value.Canonical

/-!
# Definitions — what a valid one projects a document to

In a valid definition the names of all fields are distinct (`nodup_names_of_validate`), so what a
document contributes has each aggregated field, with one for a count and the value at the path for
the others (`field?_mapped`).  A valid definition whose paths were parsed is found again from its
stored form (`ofValue_toValue`), and that form can be written down (`encode_toValue`).
-/

namespace Rollup

namespace Definition

/-! ### Names -/

theorem firstDuplicate_eq_none_iff {seen names : List String} :
    firstDuplicate seen names = none ↔ names.Nodup ∧ ∀ name ∈ names, name ∉ seen := by
  induction names generalizing seen with
  | nil => simp [firstDuplicate]
  | cons name names ih =>
      rw [firstDuplicate]
      split
      · next h => simp_all
      · next h =>
        rw [ih, List.nodup_cons, List.forall_mem_cons]
        simp only [List.contains_eq_mem, decide_eq_true_eq] at h
        simp only [List.mem_cons, not_or]
        constructor
        · rintro ⟨hnodup, hnames⟩
          exact ⟨⟨fun hmem => (hnames name hmem).1 rfl, hnodup⟩, h, fun n hn => (hnames n hn).2⟩
        · rintro ⟨⟨hname, hnodup⟩, -, hnames⟩
          exact ⟨hnodup, fun n hn => ⟨fun e => hname (e ▸ hn), hnames n hn⟩⟩

/-- The names of a valid definition are distinct. -/
theorem nodup_names_of_validate {d : Definition} (h : d.validate = .ok ()) :
    ((d.fields ++ d.groupBy).map (·.name)).Nodup := by
  rw [validate] at h
  cases hflaw : d.flaw? with
  | some flaw => rw [hflaw] at h; cases h
  | none =>
      rw [flaw?] at hflaw
      split at hflaw
      · cases hflaw
      · split at hflaw
        · cases hflaw
        · split at hflaw
          · cases hflaw
          · exact (firstDuplicate_eq_none_iff.1 (Option.map_eq_none_iff.1 hflaw)).1

/-! ### Projections -/

/-- What a field contributes. -/
def contributed (field : IndexField) (document : Value) : Value :=
  match field.aggregate with
  | .count => .integer 1
  | .sum | .first => field.path.readOrNull document

theorem mapped_eq (d : Definition) (document : Value) :
    d.mapped document =
      .object (d.fields.map fun field => (field.name, contributed field document)) := by
  rw [mapped]
  refine congrArg Value.object (List.map_congr_left fun field _ => ?_)
  rw [contributed]
  cases field.aggregate <;> rfl

/-- **What a document contributes** has every aggregated field. -/
theorem field?_mapped {d : Definition} (h : d.validate = .ok ()) (document : Value)
    {field : IndexField} (hfield : field ∈ d.fields) :
    (d.mapped document).field? field.name = some (contributed field document) := by
  have hnodup := nodup_names_of_validate h
  rw [List.map_append] at hnodup
  rw [mapped_eq]
  refine Value.field?_object ?_ (List.mem_map.2 ⟨field, hfield, rfl⟩)
  rw [List.map_map]
  exact hnodup.of_append_left

/-! ### Stored form -/

theorem textField_object {fields : List (String × Value)} (hnames : (fields.map (·.1)).Nodup)
    {name text : String} (h : (name, .text text) ∈ fields) :
    textField (.object fields) name = .ok text := by
  rw [textField, Value.field?_object hnames h]
  rfl

theorem listField_object {fields : List (String × Value)} (hnames : (fields.map (·.1)).Nodup)
    {name : String} {items : List Value} (h : (name, .array items) ∈ fields) :
    listField (.object fields) name = .ok items := by
  rw [listField, Value.field?_object hnames h]
  rfl

theorem ofName_name (aggregate : Aggregate) : Aggregate.ofName aggregate.name = .ok aggregate := by
  cases aggregate <;> rfl

/-- The path of the field was parsed from a text. -/
def IndexField.Parsed (field : IndexField) : Prop := ∃ text, FieldPath.parse text = .ok field.path

theorem ofValue_toValue_field {field : IndexField} (h : IndexField.Parsed field) :
    IndexField.ofValue field.toValue = .ok field := by
  obtain ⟨text, h⟩ := h
  have hname : textField field.toValue "name" = .ok field.name :=
    textField_object (by simp) (by simp)
  have hpath : textField field.toValue "path" = .ok field.path.text :=
    textField_object (by simp) (by simp)
  have hop : textField field.toValue "op" = .ok field.aggregate.name :=
    textField_object (by simp) (by simp)
  have hmake : IndexField.make field.name field.path.text field.aggregate = .ok field := by
    rw [IndexField.make, FieldPath.parse_text h]
    rfl
  simp only [IndexField.ofValue, hname, hpath, hop, bind, Except.bind, ofName_name, hmake]

/-- Every path of the definition was parsed from a text. -/
def Parsed (d : Definition) : Prop := ∀ field ∈ d.fields ++ d.groupBy, IndexField.Parsed field

/-- **A definition is found again from its stored form.** -/
theorem ofValue_toValue {d : Definition} (hvalid : d.validate = .ok ()) (hparsed : d.Parsed) :
    ofValue d.toValue = .ok d := by
  have hname : textField d.toValue "name" = .ok d.name := textField_object (by simp) (by simp)
  have hcollection : textField d.toValue "collection" = .ok d.collection :=
    textField_object (by simp) (by simp)
  have hfields : listField d.toValue "map" = .ok (d.fields.map IndexField.toValue) :=
    listField_object (by simp) (by simp)
  have hgroupBy : listField d.toValue "group_by" = .ok (d.groupBy.map IndexField.toValue) :=
    listField_object (by simp) (by simp)
  have hread : ∀ l : List IndexField, (∀ field ∈ l, field ∈ d.fields ++ d.groupBy) →
      (l.map IndexField.toValue).mapM IndexField.ofValue = .ok l := fun l hl => by
    rw [mapM_eq_ok_iff, List.forall₂_map_left_iff, List.forall₂_same]
    exact fun field hfield => ofValue_toValue_field (hparsed field (hl field hfield))
  have hreadFields := hread d.fields fun _ h => List.mem_append_left _ h
  have hreadGroupBy := hread d.groupBy fun _ h => List.mem_append_right _ h
  simp only [ofValue, hname, hcollection, hfields, hgroupBy, bind, Except.bind, hreadFields,
    hreadGroupBy, hvalid]
  rfl

/-- The stored form of a definition is canonical. -/
theorem canonical_toValue (d : Definition) : d.toValue.Canonical := by
  have hfields : ∀ l : List IndexField, (Value.array (l.map IndexField.toValue)).Canonical :=
    fun l => by
      rw [Value.Canonical, Value.canonicalItems_iff]
      refine List.forall_mem_map.2 fun field _ => Value.canonical_object (by simp) ?_
      simp [Value.canonical_text]
  refine Value.canonical_object (by simp) ?_
  simp [Value.canonical_text, hfields]

/-! ### The stored form -/

open Value

/-- A field as it is written inside of a definition. -/
def writtenField (field : IndexField) : Written :=
  (Written.piece (head 5 3)).andThen (.concat
    [(write 3 (.text "op")).andThen (write 3 (.text field.aggregate.name)),
      (write 3 (.text "name")).andThen (write 3 (.text field.name)),
      (write 3 (.text "path")).andThen (write 3 (.text field.path.text))])

def writtenFields (fields : List IndexField) : Written :=
  (Written.piece (head 4 fields.length)).andThen (.concat (fields.map writtenField))

def written (d : Definition) : Written :=
  (Written.piece (head 5 4)).andThen (.concat
    [(write 1 (.text "map")).andThen (writtenFields d.fields),
      (write 1 (.text "name")).andThen (write 1 (.text d.name)),
      (write 1 (.text "group_by")).andThen (writtenFields d.groupBy),
      (write 1 (.text "collection")).andThen (write 1 (.text d.collection))])

theorem write_toValue_field (field : IndexField) : write 2 field.toValue = writtenField field := by
  have hperm : ([("op", .text field.aggregate.name), ("name", .text field.name),
      ("path", .text field.path.text)] : List (String × Value)).Perm
        [("name", .text field.name), ("path", .text field.path.text),
          ("op", .text field.aggregate.name)] :=
    @List.perm_append_comm _ [_] [_, _]
  have hasc : AscendingNames ["op", "name", "path"] := by decide +kernel
  exact write_object (by decide : 2 < maxDepth) hperm hasc

theorem write_fields (fields : List IndexField) :
    write 1 (.array (fields.map IndexField.toValue)) = writtenFields fields := by
  rw [write_array_eq (by decide), writeItems_eq_map, List.map_map, List.length_map]
  exact congrArg (fun l => Written.andThen _ (.concat l))
    (List.map_congr_left fun field _ => write_toValue_field field)

/-- **The stored form of a definition**, with the names in canonical order. -/
theorem encode_toValue (d : Definition) : d.toValue.encode =
    if d.written.complete then .ok d.written.bytes else .error (.tooDeep maxDepth) := by
  have hperm : ([("map", .array (d.fields.map IndexField.toValue)), ("name", .text d.name),
      ("group_by", .array (d.groupBy.map IndexField.toValue)),
      ("collection", .text d.collection)] : List (String × Value)).Perm
        [("name", .text d.name), ("collection", .text d.collection),
          ("map", .array (d.fields.map IndexField.toValue)),
          ("group_by", .array (d.groupBy.map IndexField.toValue))] :=
    (((List.Perm.swap _ _ []).cons _).cons _).trans
      (@List.perm_middle _ _ [_, _] [_]).symm
  have hasc : AscendingNames ["map", "name", "group_by", "collection"] := by decide +kernel
  have hwrite : write 0 d.toValue = d.written := by
    rw [written, ← write_fields, ← write_fields]
    exact write_object (by decide : 0 < maxDepth) hperm hasc
  rw [encode, hwrite]

end Definition

end Rollup
