import Rollup.Proofs.Value.Reading

/-!
# Streams of values

A value is written whole just when its parts lie at most `maxDepth` levels deep in it
(`encode_isOk_iff`).  So values written one behind the other to a buffer append their canonical
forms to it, or one of them is nested too deeply; and a reader of what was written finds the values
again, in their order, and nothing behind them (`stream_roundtrip`).
-/

namespace Rollup.Value

open Rollup.Action

/-! ### Nesting -/

mutual
/-- How many levels deep the deepest part of a value lies in it. -/
def nesting : Value → Nat
  | .array items => nestingItems items
  | .map pairs => nestingPairs pairs
  | _ => 0

def nestingItems : List Value → Nat
  | [] => 0
  | item :: items => max (nesting item + 1) (nestingItems items)

def nestingPairs : List (Value × Value) → Nat
  | [] => 0
  | (key, value) :: pairs => max (max (nesting key) (nesting value) + 1) (nestingPairs pairs)
end

theorem complete_leaf {depth : Nat} {v : Value}
    (h : depth ≤ maxDepth → (write depth v).complete = true) :
    (write depth v).complete = true ↔ depth + 0 ≤ maxDepth := ⟨depth_le_of_complete, h⟩

mutual
/-- **A value is written whole** just when there is room for its deepest part. -/
theorem complete_write : ∀ (v : Value) {depth : Nat},
    (write depth v).complete = true ↔ depth + v.nesting ≤ maxDepth
  | .null, _ => by
    simp only [nesting]
    exact complete_leaf fun h => by rw [write_null h, Written.complete_piece]
  | .bool _, _ => by
    simp only [nesting]
    exact complete_leaf fun h => by rw [write_bool h, Written.complete_piece]
  | .integer _, _ => by
    simp only [nesting]
    exact complete_leaf fun h => by rw [write_integer h, Written.complete_piece]
  | .bytes _, _ => by
    simp only [nesting]
    exact complete_leaf fun h => by rw [write_bytes h, Written.complete_piece]
  | .text _, _ => by
    simp only [nesting]
    exact complete_leaf fun h => by rw [write_text h, Written.complete_piece]
  | .array items, _ => by
    rw [complete_array_iff, complete_writeItems items, nesting]
  | .map pairs, _ => by
    rw [complete_map_iff, complete_writePairs pairs, nesting]

theorem complete_writeItems : ∀ (items : List Value) {depth : Nat},
    (depth ≤ maxDepth ∧ ∀ w ∈ writeItems (depth + 1) items, w.complete = true) ↔
      depth + nestingItems items ≤ maxDepth
  | [], _ => by simp [writeItems, nestingItems]
  | item :: items, depth => by
    rw [writeItems, List.forall_mem_cons, and_left_comm, complete_writeItems items,
      complete_write item, nestingItems]
    omega

theorem complete_writePairs : ∀ (pairs : List (Value × Value)) {depth : Nat},
    (depth ≤ maxDepth ∧
        ∀ w ∈ writePairs (depth + 1) pairs, w.1.complete = true ∧ w.2.complete = true) ↔
      depth + nestingPairs pairs ≤ maxDepth
  | [], _ => by simp [writePairs, nestingPairs]
  | (key, value) :: pairs, depth => by
    rw [writePairs, List.forall_mem_cons, and_left_comm, complete_writePairs pairs,
      complete_write key, complete_write value, nestingPairs]
    omega
end

/-! ### Writing a stream -/

/-- **A canonical form exists** just when the value is not nested too deeply. -/
theorem encode_eq (v : Value) : v.encode =
    if v.nesting ≤ maxDepth then .ok (write 0 v).bytes else .error (.tooDeep maxDepth) := by
  simp only [encode, complete_write, Nat.zero_add]

theorem nesting_le_iff {v : Value} : v.nesting ≤ maxDepth ↔ ∃ form, v.encode = .ok form := by
  rw [encode_eq]
  split
  · next h => exact ⟨fun _ => ⟨_, rfl⟩, fun _ => h⟩
  · next h => exact ⟨fun h' => absurd h' h, fun ⟨_, h'⟩ => by cases h'⟩

/-- **A value is emitted** as its canonical form behind the buffer. -/
theorem exec_emit (v : Value) (buffer : Bytes) :
    v.emit.exec buffer = (if v.nesting ≤ maxDepth then .ok () else .error (.tooDeep maxDepth),
      buffer ++ (write 0 v).bytes) := by
  have hcomplete : (write 0 v).complete = true ↔ v.nesting ≤ maxDepth := by
    rw [complete_write, Nat.zero_add]
  rw [emit, exec_bind_ok (exec_modify _ _)]
  by_cases h : v.nesting ≤ maxDepth
  · rw [if_pos h, if_pos (hcomplete.2 h)]
    rfl
  · rw [if_neg h, if_neg (mt hcomplete.1 h)]
    rfl

theorem exec_emit_of_encode {v : Value} {form : Bytes} (h : v.encode = .ok form)
    (buffer : Bytes) : v.emit.exec buffer = (.ok (), buffer ++ form) := by
  rw [exec_emit, if_pos (nesting_le_iff.2 ⟨form, h⟩), (encode_eq_ok_iff.1 h).2]

theorem exec_emit_all {vs : List Value} {forms : List Bytes}
    (h : List.Forall₂ (fun v form => v.encode = .ok form) vs forms) (buffer : Bytes) :
    (vs.forM emit).exec buffer = (.ok (), buffer ++ forms.flatten) := by
  induction h generalizing buffer with
  | nil => rw [exec_forM_nil, List.flatten_nil, List.append_nil]
  | cons hv _ ih =>
      rw [exec_forM_cons, exec_bind_ok (exec_emit_of_encode hv buffer), ih, List.flatten_cons,
        List.append_assoc]

/-- The values in front of one that is nested too deeply are of no help to it. -/
theorem exec_emit_all_of_deep {vs : List Value} {v : Value} (hv : v ∈ vs)
    (hdeep : maxDepth < v.nesting) (buffer : Bytes) :
    ((vs.forM emit).exec buffer).1 = .error (.tooDeep maxDepth) := by
  induction vs generalizing buffer with
  | nil => cases hv
  | cons w vs ih =>
      rw [exec_forM_cons, exec_bind, exec_emit]
      by_cases hw : w.nesting ≤ maxDepth
      · rw [if_pos hw]
        obtain rfl | hv := List.mem_cons.1 hv
        · exact absurd hw (Nat.not_le.2 hdeep)
        · exact ih hv _
      · rw [if_neg hw]

/-! ### Reading it back -/

theorem reads_all {vs : List Value} {forms : List Bytes}
    (hcanon : ∀ v ∈ vs, v.Canonical) (hwithin : ∀ v ∈ vs, v.Within)
    (h : List.Forall₂ (fun v form => v.encode = .ok form) vs forms) :
    Reads (read.times vs.length) forms.flatten vs := by
  refine Reads.times ?_
  induction h with
  | nil => exact .nil
  | cons hv _ ih =>
      obtain ⟨hc, hcs⟩ := List.forall_mem_cons.1 hcanon
      obtain ⟨hw, hws⟩ := List.forall_mem_cons.1 hwithin
      exact .cons (reads_encode hc hw hv) (ih hcs hws)

theorem exists_forms {vs : List Value} (h : ∀ v ∈ vs, v.nesting ≤ maxDepth) :
    ∃ forms, List.Forall₂ (fun v form => v.encode = .ok form) vs forms := by
  induction vs with
  | nil => exact ⟨[], .nil⟩
  | cons v vs ih =>
      obtain ⟨hv, hvs⟩ := List.forall_mem_cons.1 h
      obtain ⟨form, hform⟩ := nesting_le_iff.1 hv
      obtain ⟨forms, hforms⟩ := ih hvs
      exact ⟨form :: forms, .cons hform hforms⟩

/-- **A stream of values** that are canonical and keep to the limits of the reader.  They can be
written one behind the other just when none is nested too deeply, and otherwise that is the error.
What is written is the canonical form of each, and a reader finds them again and nothing else. -/
theorem stream_roundtrip (vs : List Value) (hcanon : ∀ v ∈ vs, v.Canonical)
    (hwithin : ∀ v ∈ vs, v.Within) (buffer : Bytes) :
    ((vs.forM emit).exec buffer).1 =
        (if ∀ v ∈ vs, v.nesting ≤ maxDepth then .ok () else .error (.tooDeep maxDepth)) ∧
      (((vs.forM emit).exec buffer).1 = .ok () → ∃ forms,
        List.Forall₂ (fun v form => v.encode = .ok form) vs forms ∧
        ((vs.forM emit).exec buffer).2 = buffer ++ forms.flatten ∧
        (read.times vs.length).exec forms.flatten = (.ok vs, [])) := by
  by_cases h : ∀ v ∈ vs, v.nesting ≤ maxDepth
  · obtain ⟨forms, hforms⟩ := exists_forms h
    rw [if_pos h, exec_emit_all hforms buffer]
    exact ⟨rfl, fun _ => ⟨forms, hforms, rfl, (reads_all hcanon hwithin hforms).exec_form⟩⟩
  · rw [if_neg h]
    obtain ⟨v, hv⟩ := not_forall.1 h
    obtain ⟨hv, hdeep⟩ := Classical.not_imp.1 hv
    have hemit := exec_emit_all_of_deep hv (Nat.lt_of_not_le hdeep) buffer
    refine ⟨hemit, fun hok => ?_⟩
    rw [hemit] at hok
    cases hok

theorem stream_roundtrip_of_two :
    ((([.map [(.integer 1, .null), (.text "ab", .array [.bool true, .integer (-25)])],
        .bytes [0, 255]] : List Value).forM emit).exec []).1 = .ok () ∧
      (read.times 2).exec
          ((([.map [(.integer 1, .null), (.text "ab", .array [.bool true, .integer (-25)])],
            .bytes [0, 255]] : List Value).forM emit).exec []).2 =
        (.ok [.map [(.integer 1, .null), (.text "ab", .array [.bool true, .integer (-25)])],
          .bytes [0, 255]], []) := by
  obtain ⟨hanswer, hread⟩ := stream_roundtrip
    [.map [(.integer 1, .null), (.text "ab", .array [.bool true, .integer (-25)])], .bytes [0, 255]]
    (by simp [Canonical, CanonicalPairs, CanonicalItems]; decide)
    (by simp [Within, Limited, LimitedPairs, LimitedItems]; decide) []
  rw [if_pos (by decide)] at hanswer
  obtain ⟨forms, -, hwritten, hback⟩ := hread hanswer
  rw [List.nil_append] at hwritten
  exact ⟨hanswer, hwritten ▸ hback⟩

end Rollup.Value
