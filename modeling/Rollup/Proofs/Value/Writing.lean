import Rollup.Proofs.Value.Object

/-!
# Writing — the parts of a canonical form

A value whose maps are in canonical order (`Ordered`) is written part by part, in the order in
which it stands (`bytes_write_array`, `bytes_write_map`).  What is written does not depend on the
depth, as long as there is room for it (`write_eq_of_le`).
-/

namespace Rollup.Value

/-! ### Pieces -/

namespace Written

@[simp] theorem bytes_piece (bytes : Bytes) : (piece bytes).bytes = bytes := rfl

@[simp] theorem complete_piece (bytes : Bytes) : (piece bytes).complete = true := rfl

theorem complete_andThen {a b : Written} :
    (a.andThen b).complete = true ↔ a.complete = true ∧ b.complete = true := by
  rw [andThen]
  cases h : a.complete <;> simp [h]

theorem bytes_andThen {a b : Written} (h : a.complete = true) :
    (a.andThen b).bytes = a.bytes ++ b.bytes := by
  rw [andThen, if_pos h]

theorem complete_concat {parts : List Written} :
    (concat parts).complete = true ↔ ∀ part ∈ parts, part.complete = true := by
  induction parts with
  | nil => simp [concat, nothing]
  | cons part parts ih =>
      show (part.andThen (concat parts)).complete = true ↔ _
      rw [complete_andThen, ih, List.forall_mem_cons]

theorem bytes_concat {parts : List Written} (h : ∀ part ∈ parts, part.complete = true) :
    (concat parts).bytes = (parts.map bytes).flatten := by
  induction parts with
  | nil => rfl
  | cons part parts ih =>
      obtain ⟨hpart, hparts⟩ := List.forall_mem_cons.1 h
      show (part.andThen (concat parts)).bytes = _
      rw [bytes_andThen hpart, ih hparts]
      rfl

end Written

/-! ### Lists -/

theorem writeItems_eq_map (depth : Nat) (items : List Value) :
    writeItems depth items = items.map (write depth) := by
  induction items with
  | nil => simp [writeItems]
  | cons item items ih => simp [writeItems, ih]

theorem writePairs_eq_map (depth : Nat) (pairs : List (Value × Value)) :
    writePairs depth pairs = pairs.map fun p => (write depth p.1, write depth p.2) := by
  induction pairs with
  | nil => simp [writePairs]
  | cons p pairs ih => simp [writePairs, ih]

theorem depth_le_of_complete {depth : Nat} {v : Value} (h : (write depth v).complete = true) :
    depth ≤ maxDepth := by
  by_contra hlt
  rw [write.eq_def, if_pos (Nat.lt_of_not_le hlt)] at h
  cases h

section

variable {depth : Nat} (h : depth ≤ maxDepth)

include h

theorem write_null : write depth .null = .piece [0xF6] := by
  rw [write.eq_def, if_neg (Nat.not_lt.2 h)]

theorem write_bool (b : Bool) : write depth (.bool b) = .piece [if b then 0xF5 else 0xF4] := by
  rw [write.eq_def, if_neg (Nat.not_lt.2 h)]
  cases b <;> rfl

theorem write_integer (n : Int64) : write depth (.integer n) = .piece (integerBytes n) := by
  rw [write.eq_def, if_neg (Nat.not_lt.2 h)]

theorem write_bytes (content : Bytes) :
    write depth (.bytes content) = .piece (head 2 content.length ++ content) := by
  rw [write.eq_def, if_neg (Nat.not_lt.2 h)]

theorem write_text (s : String) :
    write depth (.text s) = .piece (head 3 (Utf8.encode s).length ++ Utf8.encode s) := by
  rw [write.eq_def, if_neg (Nat.not_lt.2 h)]

end

theorem write_array_eq {depth : Nat} (h : depth ≤ maxDepth) (items : List Value) :
    write depth (.array items) =
      (Written.piece (head 4 items.length)).andThen (.concat (writeItems (depth + 1) items)) := by
  rw [write.eq_def, if_neg (Nat.not_lt.2 h)]

theorem complete_array_iff {depth : Nat} {items : List Value} :
    (write depth (.array items)).complete = true ↔
      depth ≤ maxDepth ∧ ∀ w ∈ writeItems (depth + 1) items, w.complete = true := by
  by_cases hdepth : depth ≤ maxDepth
  · rw [write_array_eq hdepth, Written.complete_andThen, Written.complete_concat]
    simp [hdepth]
  · exact ⟨fun h => absurd (depth_le_of_complete h) hdepth, fun h => absurd h.1 hdepth⟩

theorem complete_array {depth : Nat} {items : List Value}
    (h : (write depth (.array items)).complete = true) :
    ∀ w ∈ writeItems (depth + 1) items, w.complete = true := (complete_array_iff.1 h).2

/-- The pairs of a map, in the order in which they are written. -/
def sortedPairs (depth : Nat) (pairs : List (Value × Value)) : List (Bytes × Written) :=
  ((writePairs depth pairs).map fun p => (p.1.bytes, p.2)).mergeSort keyLe

theorem write_map_eq {depth : Nat} (h : depth ≤ maxDepth) (pairs : List (Value × Value)) :
    write depth (.map pairs) =
      if (writePairs (depth + 1) pairs).all (·.1.complete) then
        (Written.piece (head 5 pairs.length)).andThen
          (.concat ((sortedPairs (depth + 1) pairs).map fun p => (Written.piece p.1).andThen p.2))
      else ⟨[], false⟩ := by
  rw [write.eq_def, if_neg (Nat.not_lt.2 h)]
  rfl

theorem mem_sortedPairs {depth : Nat} {pairs : List (Value × Value)} {p : Bytes × Written} :
    p ∈ sortedPairs depth pairs ↔ ∃ w ∈ writePairs depth pairs, (w.1.bytes, w.2) = p := by
  rw [sortedPairs, List.mem_mergeSort, List.mem_map]

theorem complete_map_iff {depth : Nat} {pairs : List (Value × Value)} :
    (write depth (.map pairs)).complete = true ↔ depth ≤ maxDepth ∧
      ∀ w ∈ writePairs (depth + 1) pairs, w.1.complete = true ∧ w.2.complete = true := by
  by_cases hdepth : depth ≤ maxDepth
  · rw [write_map_eq hdepth]
    split
    · next hkeys =>
      rw [Written.complete_andThen, Written.complete_concat]
      refine ⟨fun h => ⟨hdepth, fun w hw => ⟨List.all_eq_true.1 hkeys w hw, ?_⟩⟩, fun h =>
        ⟨Written.complete_piece _, ?_⟩⟩
      · have hsorted := mem_sortedPairs.2 ⟨w, hw, rfl⟩
        exact (Written.complete_andThen.1 (h.2 _ (List.mem_map.2 ⟨_, hsorted, rfl⟩))).2
      · intro part hpart
        obtain ⟨p, hp, rfl⟩ := List.mem_map.1 hpart
        obtain ⟨w, hw, rfl⟩ := mem_sortedPairs.1 hp
        exact Written.complete_andThen.2 ⟨rfl, (h.2 w hw).2⟩
    · next hkeys =>
      refine ⟨fun h => (by cases h), fun h => ?_⟩
      exact absurd (List.all_eq_true.2 fun w hw => (h.2 w hw).1) hkeys
  · exact ⟨fun h => absurd (depth_le_of_complete h) hdepth, fun h => absurd h.1 hdepth⟩

theorem complete_map {depth : Nat} {pairs : List (Value × Value)}
    (h : (write depth (.map pairs)).complete = true) :
    ∀ w ∈ writePairs (depth + 1) pairs, w.1.complete = true ∧ w.2.complete = true :=
  (complete_map_iff.1 h).2

/-! ### Depth -/

mutual
/-- What is written whole at some depth is written so at every smaller one. -/
theorem write_eq_of_le : ∀ (v : Value) {depth depth' : Nat}, (write depth v).complete = true →
    depth' ≤ depth → write depth' v = write depth v
  | .array items, _, _, h, hle => by
    have hdepth := depth_le_of_complete h
    rw [write_array_eq hdepth, write_array_eq (Nat.le_trans hle hdepth),
      writeItems_eq_of_le items (complete_array h) (Nat.succ_le_succ hle)]
  | .map pairs, _, _, h, hle => by
    have hdepth := depth_le_of_complete h
    rw [write_map_eq hdepth, write_map_eq (Nat.le_trans hle hdepth), sortedPairs, sortedPairs,
      writePairs_eq_of_le pairs (complete_map h) (Nat.succ_le_succ hle)]
  | .null, _, _, h, hle => by
    have hdepth := depth_le_of_complete h
    rw [write_null hdepth, write_null (Nat.le_trans hle hdepth)]
  | .bool _, _, _, h, hle => by
    have hdepth := depth_le_of_complete h
    rw [write_bool hdepth, write_bool (Nat.le_trans hle hdepth)]
  | .integer _, _, _, h, hle => by
    have hdepth := depth_le_of_complete h
    rw [write_integer hdepth, write_integer (Nat.le_trans hle hdepth)]
  | .bytes _, _, _, h, hle => by
    have hdepth := depth_le_of_complete h
    rw [write_bytes hdepth, write_bytes (Nat.le_trans hle hdepth)]
  | .text _, _, _, h, hle => by
    have hdepth := depth_le_of_complete h
    rw [write_text hdepth, write_text (Nat.le_trans hle hdepth)]

theorem writeItems_eq_of_le : ∀ (items : List Value) {depth depth' : Nat},
    (∀ w ∈ writeItems depth items, w.complete = true) → depth' ≤ depth →
      writeItems depth' items = writeItems depth items
  | [], _, _, _, _ => by rw [writeItems, writeItems]
  | item :: items, _, _, h, hle => by
    rw [writeItems] at h
    obtain ⟨hitem, hitems⟩ := List.forall_mem_cons.1 h
    rw [writeItems, writeItems, write_eq_of_le item hitem hle, writeItems_eq_of_le items hitems hle]

theorem writePairs_eq_of_le : ∀ (pairs : List (Value × Value)) {depth depth' : Nat},
    (∀ w ∈ writePairs depth pairs, w.1.complete = true ∧ w.2.complete = true) →
      depth' ≤ depth → writePairs depth' pairs = writePairs depth pairs
  | [], _, _, _, _ => by rw [writePairs, writePairs]
  | (key, value) :: pairs, _, _, h, hle => by
    rw [writePairs] at h
    obtain ⟨⟨hkey, hvalue⟩, hpairs⟩ := List.forall_mem_cons.1 h
    rw [writePairs, writePairs, write_eq_of_le key hkey hle, write_eq_of_le value hvalue hle,
      writePairs_eq_of_le pairs hpairs hle]
end

/-- A key is ordered by what is written of it. -/
theorem orderBytes_eq {depth : Nat} {key : Value} (h : (write depth key).complete = true) :
    orderBytes key = (write depth key).bytes := by
  have hzero := write_eq_of_le key h (Nat.zero_le depth)
  simp only [orderBytes, encode, hzero, h, if_true]

/-! ### Canonical values -/

mutual
/-- In every map, at every depth, the keys stand in the order of what is written of them. -/
def Ordered : Value → Prop
  | .array items => OrderedItems items
  | .map pairs => OrderedPairs pairs ∧
      pairs.Pairwise fun a b => (Bytes.shortlex (orderBytes a.1) (orderBytes b.1)).isLE = true
  | _ => True

def OrderedItems : List Value → Prop
  | [] => True
  | item :: items => Ordered item ∧ OrderedItems items

def OrderedPairs : List (Value × Value) → Prop
  | [] => True
  | (key, value) :: pairs => (Ordered key ∧ Ordered value) ∧ OrderedPairs pairs
end

mutual
/-- In every map, at every depth, the keys ascend strictly by what is written of them. -/
def Canonical : Value → Prop
  | .array items => CanonicalItems items
  | .map pairs => CanonicalPairs pairs ∧
      pairs.Pairwise fun a b => Bytes.shortlex (orderBytes a.1) (orderBytes b.1) = .lt
  | _ => True

def CanonicalItems : List Value → Prop
  | [] => True
  | item :: items => Canonical item ∧ CanonicalItems items

def CanonicalPairs : List (Value × Value) → Prop
  | [] => True
  | (key, value) :: pairs => (Canonical key ∧ Canonical value) ∧ CanonicalPairs pairs
end

theorem isLE_of_ascending {pairs : List (Value × Value)}
    (hasc : pairs.Pairwise fun a b => Bytes.shortlex (orderBytes a.1) (orderBytes b.1) = .lt) :
    pairs.Pairwise fun a b => (Bytes.shortlex (orderBytes a.1) (orderBytes b.1)).isLE = true :=
  hasc.imp Ordering.isLE_of_eq_lt

mutual
theorem Canonical.ordered : ∀ {v : Value}, v.Canonical → v.Ordered
  | .array items, h => by
    rw [Canonical] at h
    rw [Ordered]
    exact h.ordered
  | .map pairs, h => by
    rw [Canonical] at h
    rw [Ordered]
    exact ⟨h.1.ordered, isLE_of_ascending h.2⟩
  | .null, _ | .bool _, _ | .integer _, _ | .bytes _, _ | .text _, _ => by simp only [Ordered]

theorem CanonicalItems.ordered : ∀ {items : List Value}, CanonicalItems items → OrderedItems items
  | [], _ => by simp only [OrderedItems]
  | _ :: _, h => by
    rw [CanonicalItems] at h
    rw [OrderedItems]
    exact ⟨h.1.ordered, h.2.ordered⟩

theorem CanonicalPairs.ordered : ∀ {pairs : List (Value × Value)}, CanonicalPairs pairs →
    OrderedPairs pairs
  | [], _ => by simp only [OrderedPairs]
  | (_, _) :: _, h => by
    rw [CanonicalPairs] at h
    rw [OrderedPairs]
    exact ⟨⟨h.1.1.ordered, h.1.2.ordered⟩, h.2.ordered⟩
end

theorem write_map_of_ordered {depth : Nat} {pairs : List (Value × Value)} (h : depth ≤ maxDepth)
    (hkeys : ∀ p ∈ pairs, (write (depth + 1) p.1).complete = true)
    (hle : pairs.Pairwise fun a b =>
      (Bytes.shortlex (orderBytes a.1) (orderBytes b.1)).isLE = true) :
    write depth (.map pairs) = (Written.piece (head 5 pairs.length)).andThen
      (.concat (pairs.map fun p => (write (depth + 1) p.1).andThen (write (depth + 1) p.2))) := by
  have hsorted : sortedPairs (depth + 1) pairs =
      pairs.map fun p => ((write (depth + 1) p.1).bytes, write (depth + 1) p.2) := by
    rw [sortedPairs, writePairs_eq_map, List.map_map]
    refine List.mergeSort_of_pairwise (List.pairwise_map.2 ?_)
    refine hle.imp_of_mem fun {a b} ha hb hab => ?_
    rwa [orderBytes_eq (hkeys a ha), orderBytes_eq (hkeys b hb)] at hab
  have hall : (writePairs (depth + 1) pairs).all (·.1.complete) = true := by
    rw [writePairs_eq_map, List.all_map, List.all_eq_true]
    exact hkeys
  have hparts : (pairs.map fun p => (Written.piece (write (depth + 1) p.1).bytes).andThen
      (write (depth + 1) p.2)) =
      pairs.map fun p => (write (depth + 1) p.1).andThen (write (depth + 1) p.2) :=
    List.map_congr_left fun p hp => by
      rw [Written.andThen, Written.andThen, if_pos (hkeys p hp)]
      rfl
  rw [write_map_eq h, if_pos hall, hsorted, List.map_map]
  exact congrArg (fun parts => (Written.piece (head 5 pairs.length)).andThen (.concat parts)) hparts

/-- **A map in canonical order** is written pair by pair. -/
theorem bytes_write_map {depth : Nat} {pairs : List (Value × Value)}
    (h : (write depth (.map pairs)).complete = true)
    (hle : pairs.Pairwise fun a b =>
      (Bytes.shortlex (orderBytes a.1) (orderBytes b.1)).isLE = true) :
    (write depth (.map pairs)).bytes = head 5 pairs.length ++
      (pairs.map fun p =>
        (write (depth + 1) p.1).bytes ++ (write (depth + 1) p.2).bytes).flatten := by
  have hcomplete := complete_map h
  rw [writePairs_eq_map, List.forall_mem_map] at hcomplete
  rw [write_map_of_ordered (depth_le_of_complete h) (fun p hp => (hcomplete p hp).1) hle,
    Written.bytes_andThen (Written.complete_piece _), Written.bytes_concat, List.map_map]
  · refine congrArg (head 5 pairs.length ++ ·) (congrArg List.flatten ?_)
    exact List.map_congr_left fun p hp => Written.bytes_andThen (hcomplete p hp).1
  · intro w hw
    obtain ⟨p, hp, rfl⟩ := List.mem_map.1 hw
    exact Written.complete_andThen.2 (hcomplete p hp)

/-- **An array** is written item by item. -/
theorem bytes_write_array {depth : Nat} {items : List Value}
    (h : (write depth (.array items)).complete = true) :
    (write depth (.array items)).bytes = head 4 items.length ++
      (items.map fun item => (write (depth + 1) item).bytes).flatten := by
  have hcomplete := complete_array h
  rw [write_array_eq (depth_le_of_complete h), Written.bytes_andThen (Written.complete_piece _),
    Written.bytes_concat hcomplete, writeItems_eq_map, List.map_map]
  rfl

end Rollup.Value
