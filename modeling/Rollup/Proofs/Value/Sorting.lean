import Rollup.Proofs.Value.Acceptance

/-!
# Canonical order — what an encoding tells of its value

Putting the maps of a value in canonical order, at every depth, does not change what is written of
the value (`write_inOrder`).  Nothing else is lost: the forms of values in canonical order can be
told apart even where more bytes follow (`eq_of_append`), so two values have one encoding just when
they are equal in canonical order (`encode_eq_iff`).

The reader asks for more than the writer.  It refuses a map with two keys that are written alike,
and what is too long for it; all else it reads back, in canonical order (`decode_of_encode_iff`).
-/

namespace Rollup.Value

/-! ### Maps in canonical order -/

mutual
/-- A value with the maps in it, at every depth, in canonical order; pairs whose keys are written
alike keep their order. -/
def inOrder : Value → Value
  | .array items => .array (inOrderItems items)
  | .map pairs => ofPairs (inOrderPairs pairs)
  | .null => .null
  | .bool b => .bool b
  | .integer n => .integer n
  | .bytes content => .bytes content
  | .text s => .text s

def inOrderItems : List Value → List Value
  | [] => []
  | item :: items => inOrder item :: inOrderItems items

def inOrderPairs : List (Value × Value) → List (Value × Value)
  | [] => []
  | (key, value) :: pairs => (inOrder key, inOrder value) :: inOrderPairs pairs
end

theorem inOrderItems_eq_map (items : List Value) : inOrderItems items = items.map inOrder := by
  induction items with
  | nil => rfl
  | cons item items ih => rw [inOrderItems, ih, List.map_cons]

theorem inOrderPairs_eq_map (pairs : List (Value × Value)) :
    inOrderPairs pairs = pairs.map fun q => (q.1.inOrder, q.2.inOrder) := by
  induction pairs with
  | nil => rfl
  | cons q pairs ih => rw [inOrderPairs, ih, List.map_cons]

mutual
/-- In no map, at no depth, are two keys written alike. -/
def Distinct : Value → Prop
  | .array items => DistinctItems items
  | .map pairs => DistinctPairs pairs ∧ pairs.Pairwise fun a b => orderBytes a.1 ≠ orderBytes b.1
  | _ => True

def DistinctItems : List Value → Prop
  | [] => True
  | item :: items => Distinct item ∧ DistinctItems items

def DistinctPairs : List (Value × Value) → Prop
  | [] => True
  | (key, value) :: pairs => (Distinct key ∧ Distinct value) ∧ DistinctPairs pairs
end

/-- Pairs in the order in which `ofPairs` puts them. -/
def ranked (pairs : List (Value × Value)) : List (Value × Value) :=
  ((pairs.map fun p => (orderBytes p.1, p)).mergeSort keyLe).map (·.2)

theorem ofPairs_eq_ranked (pairs : List (Value × Value)) : ofPairs pairs = .map (ranked pairs) :=
  rfl

theorem ranked_perm (pairs : List (Value × Value)) : (ranked pairs).Perm pairs := by
  have h := (List.mergeSort_perm (pairs.map fun p => (orderBytes p.1, p)) keyLe).map (·.2)
  rw [List.map_map] at h
  exact h.trans (List.Perm.of_eq (List.map_id _))

theorem ranked_ordered (pairs : List (Value × Value)) : (ranked pairs).Pairwise fun a b =>
    (Bytes.shortlex (orderBytes a.1) (orderBytes b.1)).isLE = true := by
  refine List.pairwise_map.2 ((List.pairwise_mergeSort keyLe_trans keyLe_total
    (pairs.map fun p => (orderBytes p.1, p))).imp_of_mem fun {a b} ha hb hab => ?_)
  obtain ⟨p, -, rfl⟩ := List.mem_map.1 (List.mem_mergeSort.1 ha)
  obtain ⟨q, -, rfl⟩ := List.mem_map.1 (List.mem_mergeSort.1 hb)
  exact hab

/-! ### What is written of a value in canonical order -/

theorem writePairs_ranked {depth : Nat} {pairs : List (Value × Value)}
    (hkeys : ∀ q ∈ pairs, (write depth q.1).complete = true) :
    (writePairs depth (ranked pairs)).map (fun p => (p.1.bytes, p.2)) =
      sortedPairs depth pairs := by
  let form (e : Bytes × (Value × Value)) : Bytes × Written :=
    ((write depth e.2.1).bytes, write depth e.2.2)
  have hform : ∀ e ∈ pairs.map fun p => (orderBytes p.1, p), (form e).1 = e.1 := by
    intro e he
    obtain ⟨q, hq, rfl⟩ := List.mem_map.1 he
    exact (orderBytes_eq (hkeys q hq)).symm
  -- sorting by the order bytes and sorting by what is written is the same
  have hsort : ((pairs.map fun p => (orderBytes p.1, p)).mergeSort keyLe).map form =
      ((pairs.map fun p => (orderBytes p.1, p)).map form).mergeSort keyLe :=
    List.map_mergeSort fun a ha b hb => by rw [keyLe, keyLe, hform a ha, hform b hb]
  rw [List.map_map] at hsort
  rw [sortedPairs, writePairs_eq_map, writePairs_eq_map, List.map_map, List.map_map, ranked,
    List.map_map]
  exact hsort

theorem sortedPairs_ranked {depth : Nat} {pairs : List (Value × Value)}
    (hkeys : ∀ q ∈ pairs, (write depth q.1).complete = true) :
    sortedPairs depth (ranked pairs) = sortedPairs depth pairs := by
  rw [sortedPairs, writePairs_ranked hkeys, sortedPairs]
  exact List.mergeSort_of_pairwise (List.pairwise_mergeSort keyLe_trans keyLe_total _)

theorem write_ofPairs {depth : Nat} (hdepth : depth ≤ maxDepth) {pairs : List (Value × Value)}
    (hkeys : ∀ q ∈ pairs, (write (depth + 1) q.1).complete = true) :
    write depth (ofPairs pairs) = write depth (.map pairs) := by
  have hall : ∀ qs : List (Value × Value), (∀ q ∈ qs, q ∈ pairs) →
      (writePairs (depth + 1) qs).all (·.1.complete) = true := by
    intro qs hqs
    rw [writePairs_eq_map, List.all_map, List.all_eq_true]
    exact fun q hq => hkeys q (hqs q hq)
  rw [ofPairs_eq_ranked, write_map_eq hdepth, write_map_eq hdepth, sortedPairs_ranked hkeys,
    if_pos (hall _ fun q hq => (ranked_perm pairs).mem_iff.1 hq), if_pos (hall _ fun q hq => hq),
    (ranked_perm pairs).length_eq]

mutual
/-- **Canonical order** does not change what is written. -/
theorem write_inOrder : ∀ (v : Value) {depth : Nat}, (write depth v).complete = true →
    write depth v.inOrder = write depth v
  | .array items, depth, h => by
    have hitems := writeItems_inOrder items (complete_array h)
    rw [inOrder, write_array_eq (depth_le_of_complete h), write_array_eq (depth_le_of_complete h),
      hitems, inOrderItems_eq_map, List.length_map]
  | .map pairs, depth, h => by
    have hdepth := depth_le_of_complete h
    have hpairs := writePairs_inOrder pairs (complete_map h)
    have hkeys : ∀ q ∈ inOrderPairs pairs, (write (depth + 1) q.1).complete = true := by
      have hcomplete := complete_map h
      rw [← hpairs, writePairs_eq_map, List.forall_mem_map] at hcomplete
      exact fun q hq => (hcomplete q hq).1
    have hlength : (inOrderPairs pairs).length = pairs.length := by
      rw [inOrderPairs_eq_map, List.length_map]
    rw [inOrder, write_ofPairs hdepth hkeys, write_map_eq hdepth, write_map_eq hdepth, sortedPairs,
      hpairs, hlength, sortedPairs]
  | .null, _, _ | .bool _, _, _ | .integer _, _, _ | .bytes _, _, _ | .text _, _, _ => by
    rw [inOrder]

theorem writeItems_inOrder : ∀ (items : List Value) {depth : Nat},
    (∀ w ∈ writeItems depth items, w.complete = true) →
      writeItems depth (inOrderItems items) = writeItems depth items
  | [], _, _ => rfl
  | item :: items, depth, h => by
    rw [writeItems] at h
    obtain ⟨hitem, hitems⟩ := List.forall_mem_cons.1 h
    rw [inOrderItems, writeItems, writeItems, write_inOrder item hitem,
      writeItems_inOrder items hitems]

theorem writePairs_inOrder : ∀ (pairs : List (Value × Value)) {depth : Nat},
    (∀ w ∈ writePairs depth pairs, w.1.complete = true ∧ w.2.complete = true) →
      writePairs depth (inOrderPairs pairs) = writePairs depth pairs
  | [], _, _ => rfl
  | (key, value) :: pairs, depth, h => by
    rw [writePairs] at h
    obtain ⟨⟨hkey, hvalue⟩, hpairs⟩ := List.forall_mem_cons.1 h
    rw [inOrderPairs, writePairs, writePairs, write_inOrder key hkey, write_inOrder value hvalue,
      writePairs_inOrder pairs hpairs]
end

theorem encode_inOrder {v : Value} {form : Bytes} (h : v.encode = .ok form) :
    v.inOrder.encode = .ok form := by
  obtain ⟨hcomplete, hbytes⟩ := encode_eq_ok_iff.1 h
  rw [encode_eq_ok_iff, write_inOrder v hcomplete]
  exact ⟨hcomplete, hbytes⟩

/-! ### What canonical order keeps -/

theorem orderedItems_iff {items : List Value} :
    OrderedItems items ↔ ∀ item ∈ items, item.Ordered := by
  induction items with
  | nil => simp [OrderedItems]
  | cons item items ih => simp [OrderedItems, ih]

theorem orderedPairs_iff {pairs : List (Value × Value)} :
    OrderedPairs pairs ↔ ∀ q ∈ pairs, q.1.Ordered ∧ q.2.Ordered := by
  induction pairs with
  | nil => simp [OrderedPairs]
  | cons q pairs ih => simp [OrderedPairs, ih]

theorem ordered_ofPairs {pairs : List (Value × Value)}
    (h : OrderedPairs pairs) : (ofPairs pairs).Ordered := by
  rw [ofPairs_eq_ranked, Ordered, orderedPairs_iff]
  refine ⟨fun q hq => ?_, ranked_ordered pairs⟩
  exact orderedPairs_iff.1 h q ((ranked_perm pairs).mem_iff.1 hq)

mutual
theorem ordered_inOrder : ∀ v : Value, v.inOrder.Ordered
  | .array items => by
    rw [inOrder, Ordered]
    exact ordered_inOrderItems items
  | .map pairs => by
    rw [inOrder]
    exact ordered_ofPairs (ordered_inOrderPairs pairs)
  | .null | .bool _ | .integer _ | .bytes _ | .text _ => by simp only [inOrder, Ordered]

theorem ordered_inOrderItems : ∀ items : List Value, OrderedItems (inOrderItems items)
  | [] => by simp only [inOrderItems, OrderedItems]
  | item :: items => by
    rw [inOrderItems, OrderedItems]
    exact ⟨ordered_inOrder item, ordered_inOrderItems items⟩

theorem ordered_inOrderPairs : ∀ pairs : List (Value × Value), OrderedPairs (inOrderPairs pairs)
  | [] => by simp only [inOrderPairs, OrderedPairs]
  | (key, value) :: pairs => by
    rw [inOrderPairs, OrderedPairs]
    exact ⟨⟨ordered_inOrder key, ordered_inOrder value⟩, ordered_inOrderPairs pairs⟩
end

section

variable {bytes items : Nat}

mutual
theorem limited_inOrder : ∀ v : Value, v.inOrder.Limited bytes items ↔ v.Limited bytes items
  | .array vs => by
    rw [inOrder, Limited, Limited, limited_inOrderItems vs, inOrderItems_eq_map, List.length_map]
  | .map pairs => by
    have hperm := ranked_perm (inOrderPairs pairs)
    have hlength : (ranked (inOrderPairs pairs)).length = pairs.length := by
      rw [hperm.length_eq, inOrderPairs_eq_map, List.length_map]
    rw [inOrder, ofPairs_eq_ranked, Limited, Limited, hlength, ← limited_inOrderPairs pairs,
      limitedPairs_iff, limitedPairs_iff]
    simp only [hperm.mem_iff]
  | .null | .bool _ | .integer _ | .bytes _ | .text _ => by rw [inOrder]

theorem limited_inOrderItems : ∀ vs : List Value,
    LimitedItems bytes items (inOrderItems vs) ↔ LimitedItems bytes items vs
  | [] => by rw [inOrderItems]
  | v :: vs => by
    rw [inOrderItems, LimitedItems, LimitedItems, limited_inOrder v, limited_inOrderItems vs]

theorem limited_inOrderPairs : ∀ pairs : List (Value × Value),
    LimitedPairs bytes items (inOrderPairs pairs) ↔ LimitedPairs bytes items pairs
  | [] => by rw [inOrderPairs]
  | (key, value) :: pairs => by
    rw [inOrderPairs, LimitedPairs, LimitedPairs, limited_inOrder key, limited_inOrder value,
      limited_inOrderPairs pairs]
end

end

theorem orderBytes_inOrder {depth : Nat} {key : Value} (h : (write depth key).complete = true) :
    orderBytes key.inOrder = orderBytes key := by
  have hwrite := write_inOrder key h
  rw [orderBytes_eq h, orderBytes_eq (hwrite ▸ h), hwrite]

theorem canonical_ofPairs_iff {pairs : List (Value × Value)} :
    (ofPairs pairs).Canonical ↔ CanonicalPairs pairs ∧
      pairs.Pairwise fun a b => orderBytes a.1 ≠ orderBytes b.1 := by
  constructor
  · intro h
    have hperm := ranked_perm pairs
    rw [ofPairs_eq_ranked, Canonical, canonicalPairs_iff] at h
    refine ⟨canonicalPairs_iff.2 fun q hq => h.1 q (hperm.mem_iff.2 hq), ?_⟩
    refine (hperm.pairwise_iff fun h => h.symm).1 (h.2.imp fun hlt heq => ?_)
    rw [heq, @Std.ReflCmp.compare_self _ Bytes.shortlex] at hlt
    cases hlt
  · rintro ⟨hcanon, hne⟩
    exact canonical_ofPairs (canonicalPairs_iff.1 hcanon) hne

mutual
/-- **Canonical order makes a value canonical** just when no two keys of a map are written alike. -/
theorem canonical_inOrder_iff : ∀ (v : Value) {depth : Nat}, (write depth v).complete = true →
    (v.inOrder.Canonical ↔ v.Distinct)
  | .array items, depth, h => by
    rw [inOrder, Canonical, Distinct]
    exact canonical_inOrderItems_iff items (complete_array h)
  | .map pairs, depth, h => by
    have hcomplete := complete_map h
    rw [inOrder, canonical_ofPairs_iff, Distinct, canonical_inOrderPairs_iff pairs hcomplete,
      inOrderPairs_eq_map, List.pairwise_map]
    rw [writePairs_eq_map, List.forall_mem_map] at hcomplete
    refine and_congr_right fun _ => List.Pairwise.iff_of_mem fun {a b} ha hb => ?_
    rw [orderBytes_inOrder (hcomplete a ha).1, orderBytes_inOrder (hcomplete b hb).1]
  | .null, _, _ | .bool _, _, _ | .integer _, _, _ | .bytes _, _, _ | .text _, _, _ => by
    simp only [inOrder, Canonical, Distinct]

theorem canonical_inOrderItems_iff : ∀ (items : List Value) {depth : Nat},
    (∀ w ∈ writeItems depth items, w.complete = true) →
      (CanonicalItems (inOrderItems items) ↔ DistinctItems items)
  | [], _, _ => by simp only [inOrderItems, CanonicalItems, DistinctItems]
  | item :: items, depth, h => by
    rw [writeItems] at h
    obtain ⟨hitem, hitems⟩ := List.forall_mem_cons.1 h
    rw [inOrderItems, CanonicalItems, DistinctItems, canonical_inOrder_iff item hitem,
      canonical_inOrderItems_iff items hitems]

theorem canonical_inOrderPairs_iff : ∀ (pairs : List (Value × Value)) {depth : Nat},
    (∀ w ∈ writePairs depth pairs, w.1.complete = true ∧ w.2.complete = true) →
      (CanonicalPairs (inOrderPairs pairs) ↔ DistinctPairs pairs)
  | [], _, _ => by simp only [inOrderPairs, CanonicalPairs, DistinctPairs]
  | (key, value) :: pairs, depth, h => by
    rw [writePairs] at h
    obtain ⟨⟨hkey, hvalue⟩, hpairs⟩ := List.forall_mem_cons.1 h
    rw [inOrderPairs, CanonicalPairs, DistinctPairs, canonical_inOrder_iff key hkey,
      canonical_inOrder_iff value hvalue, canonical_inOrderPairs_iff pairs hpairs]
end

/-! ### Telling forms apart -/

/-- The head of an item, whatever follows, tells its major type and its argument. -/
theorem head_append_inj {major major' n n' : Nat} (hmajor : major < 8) (hmajor' : major' < 8)
    (hn : n < Bytes.capacity 8) (hn' : n' < Bytes.capacity 8) {s t : Bytes}
    (h : head major n ++ s = head major' n' ++ t) : major = major' ∧ n = n' ∧ s = t := by
  obtain ⟨initial, tail, hhead, rfl, hread⟩ := head_eq hmajor hn
  obtain ⟨initial', tail', hhead', rfl, hread'⟩ := head_eq hmajor' hn'
  rw [hhead, hhead', List.cons_append, List.cons_append] at h
  obtain ⟨rfl, hrest⟩ := List.cons.inj h
  have hback := hread s
  rw [hrest, hread' t] at hback
  cases hback
  exact ⟨rfl, rfl, rfl⟩

/-- The major type of the head of a value. -/
def major : Value → Nat
  | .integer n => if 0 ≤ n.toInt then 0 else 1
  | .bytes _ => 2
  | .text _ => 3
  | .array _ => 4
  | .map _ => 5
  | .null | .bool _ => 7

/-- The argument of the head of a value. -/
def argument : Value → Nat
  | .integer n => if 0 ≤ n.toInt then n.toInt.toNat else (-1 - n.toInt).toNat
  | .bytes content => content.length
  | .text s => (Utf8.encode s).length
  | .array items => items.length
  | .map pairs => pairs.length
  | .null => 22
  | .bool b => if b then 21 else 20

/-- What stands behind the head of a value. -/
def body (depth : Nat) : Value → Bytes
  | .bytes content => content
  | .text s => Utf8.encode s
  | .array items => (items.map fun item => (write (depth + 1) item).bytes).flatten
  | .map pairs => pairsForm (depth + 1) pairs
  | _ => []

theorem major_lt (v : Value) : v.major < 8 := by
  cases v <;> simp only [major]
  case integer n => split <;> decide
  all_goals decide

theorem argument_lt {v : Value} (h : v.Limited maxArgument maxArgument) :
    v.argument < Bytes.capacity 8 := by
  cases v with
  | integer n =>
      have hmin : -2 ^ 63 ≤ n.toInt := n.le_toInt
      have hmax : n.toInt < 2 ^ 63 := n.toInt_lt
      have hcapacity : Bytes.capacity 8 = 2 ^ 64 := rfl
      simp only [argument]
      split <;> omega
  | bytes content =>
      simp only [Limited] at h
      exact lt_of_le_maxArgument h
  | text s =>
      simp only [Limited] at h
      exact lt_of_le_maxArgument h
  | array items =>
      simp only [Limited] at h
      exact lt_of_le_maxArgument h.1
  | map pairs =>
      simp only [Limited] at h
      exact lt_of_le_maxArgument h.1
  | null => decide
  | bool b => cases b <;> decide

theorem integerBytes_eq (n : Int64) :
    integerBytes n = head (major (.integer n)) (argument (.integer n)) := by
  rw [integerBytes]
  simp only [major, argument]
  split
  · next m hm =>
    have hm : n.toInt = (m : Int) := hm
    rw [if_pos (by omega), if_pos (by omega), hm, Int.toNat_natCast]
  · next m hm =>
    have hneg : (-1 - n.toInt).toNat = m := by omega
    rw [if_neg (by omega), if_neg (by omega), hneg]

/-- **A value in canonical order** is written as its head and what stands behind it. -/
theorem bytes_write_eq {depth : Nat} {v : Value} (h : (write depth v).complete = true)
    (hordered : v.Ordered) :
    (write depth v).bytes = head v.major v.argument ++ body depth v := by
  have hdepth := depth_le_of_complete h
  cases v with
  | integer n =>
      rw [write_integer hdepth, Written.bytes_piece, integerBytes_eq]
      exact (List.append_nil _).symm
  | bytes content => rw [write_bytes hdepth]; rfl
  | text s => rw [write_text hdepth]; rfl
  | array items => exact bytes_write_array h
  | map pairs =>
      rw [Ordered] at hordered
      exact bytes_write_map h hordered.2
  | null => rw [write_null hdepth]; rfl
  | bool b => rw [write_bool hdepth]; cases b <;> rfl

/-- A value in canonical order that is written whole at this depth, with lengths that fit into their
heads. -/
structure Legible (depth : Nat) (v : Value) : Prop where
  ordered : v.Ordered
  limited : v.Limited maxArgument maxArgument
  complete : (write depth v).complete = true

theorem Legible.items {depth : Nat} {items : List Value} (h : Legible depth (.array items)) :
    ∀ item ∈ items, Legible (depth + 1) item := by
  obtain ⟨hordered, hlimited, hcomplete⟩ := h
  have hcomplete := complete_array hcomplete
  rw [writeItems_eq_map, List.forall_mem_map] at hcomplete
  rw [Ordered, orderedItems_iff] at hordered
  simp only [Limited, limitedItems_iff] at hlimited
  exact fun item hitem => ⟨hordered item hitem, hlimited.2 item hitem, hcomplete item hitem⟩

theorem Legible.pairs {depth : Nat} {pairs : List (Value × Value)}
    (h : Legible depth (.map pairs)) :
    ∀ q ∈ pairs, Legible (depth + 1) q.1 ∧ Legible (depth + 1) q.2 := by
  obtain ⟨hordered, hlimited, hcomplete⟩ := h
  have hcomplete := complete_map hcomplete
  rw [writePairs_eq_map, List.forall_mem_map] at hcomplete
  rw [Ordered, orderedPairs_iff] at hordered
  simp only [Limited, limitedPairs_iff] at hlimited
  exact fun q hq =>
    ⟨⟨(hordered.1 q hq).1, (hlimited.2 q hq).1, (hcomplete q hq).1⟩,
      (hordered.1 q hq).2, (hlimited.2 q hq).2, (hcomplete q hq).2⟩

/-- Where the forms of two values stand before some rest, their heads agree. -/
theorem Legible.split {depth : Nat} {v w : Value} (hv : Legible depth v) (hw : Legible depth w)
    {s t : Bytes} (h : (write depth v).bytes ++ s = (write depth w).bytes ++ t) :
    v.major = w.major ∧ v.argument = w.argument ∧ body depth v ++ s = body depth w ++ t := by
  rw [bytes_write_eq hv.complete hv.ordered, bytes_write_eq hw.complete hw.ordered,
    List.append_assoc, List.append_assoc] at h
  exact head_append_inj (major_lt v) (major_lt w) (argument_lt hv.limited)
    (argument_lt hw.limited) h

theorem major_ne_integer {m : Nat} (h : 2 ≤ m) (n : Int64) : m ≠ major (.integer n) := by
  simp only [major]
  split <;> omega

theorem integer_of_major {w : Value} {n : Int64} (hmajor : major (.integer n) = w.major)
    (hargument : argument (.integer n) = w.argument) : w = .integer n := by
  cases w with
  | integer m =>
      refine congrArg Value.integer (Int64.toInt_inj.1 ?_)
      simp only [major, argument] at hmajor hargument
      split_ifs at hmajor hargument <;> omega
  | _ => exact absurd hmajor.symm (major_ne_integer (by simp [major]) n)

/-- Lists of one length are told apart if their items are. -/
theorem eq_of_flatten_append {α : Type} {form : α → Bytes} {good : α → Prop} {as bs : List α}
    (hlength : as.length = bs.length) (hgood : ∀ b ∈ bs, good b)
    (happart : ∀ a ∈ as, ∀ {b : α} {s t : Bytes}, good b → form a ++ s = form b ++ t →
      a = b ∧ s = t) {s t : Bytes}
    (h : (as.map form).flatten ++ s = (bs.map form).flatten ++ t) : as = bs ∧ s = t := by
  induction as generalizing bs with
  | nil =>
      obtain rfl := List.length_eq_zero_iff.1 hlength.symm
      exact ⟨rfl, h⟩
  | cons a as ih =>
      cases bs with
      | nil => cases hlength
      | cons b bs =>
          simp only [List.map_cons, List.flatten_cons, List.append_assoc] at h
          obtain ⟨hfirst, hothers⟩ := List.forall_mem_cons.1 happart
          obtain ⟨hb, hbs⟩ := List.forall_mem_cons.1 hgood
          obtain ⟨hab, hrest⟩ := hfirst hb h
          obtain ⟨habs, hst⟩ := ih (Nat.succ.inj hlength) hbs hothers hrest
          exact ⟨by rw [hab, habs], hst⟩

mutual
/-- **Unique readability.**  A form, whatever follows it, tells its value and where it ends. -/
theorem eq_of_append : ∀ (v : Value) {w : Value} {depth : Nat} {s t : Bytes}, Legible depth v →
    Legible depth w → (write depth v).bytes ++ s = (write depth w).bytes ++ t → v = w ∧ s = t
  | .array items, w, depth, s, t, hv, hw, h => by
    obtain ⟨hmajor, hargument, hbody⟩ := hv.split hw h
    cases w with
    | array items' =>
        obtain ⟨rfl, hst⟩ := eq_of_flatten_append hargument hw.items
          (eq_of_append_items items hv.items) hbody
        exact ⟨rfl, hst⟩
    | integer n => exact absurd hmajor (major_ne_integer (by simp [major]) n)
    | _ => cases hmajor
  | .map pairs, w, depth, s, t, hv, hw, h => by
    obtain ⟨hmajor, hargument, hbody⟩ := hv.split hw h
    cases w with
    | map pairs' =>
        obtain ⟨rfl, hst⟩ := eq_of_flatten_append hargument hw.pairs
          (eq_of_append_pairs pairs hv.pairs) hbody
        exact ⟨rfl, hst⟩
    | integer n => exact absurd hmajor (major_ne_integer (by simp [major]) n)
    | _ => cases hmajor
  | .integer n, w, depth, s, t, hv, hw, h => by
    obtain ⟨hmajor, hargument, hbody⟩ := hv.split hw h
    obtain rfl := integer_of_major hmajor hargument
    exact ⟨rfl, hbody⟩
  | .bytes content, w, depth, s, t, hv, hw, h => by
    obtain ⟨hmajor, hargument, hbody⟩ := hv.split hw h
    cases w with
    | bytes content' =>
        obtain ⟨rfl, hst⟩ := List.append_inj hbody hargument
        exact ⟨rfl, hst⟩
    | integer n => exact absurd hmajor (major_ne_integer (by simp [major]) n)
    | _ => cases hmajor
  | .text content, w, depth, s, t, hv, hw, h => by
    obtain ⟨hmajor, hargument, hbody⟩ := hv.split hw h
    cases w with
    | text content' =>
        obtain ⟨hutf8, hst⟩ := List.append_inj hbody hargument
        exact ⟨congrArg Value.text (utf8_injective hutf8), hst⟩
    | integer n => exact absurd hmajor (major_ne_integer (by simp [major]) n)
    | _ => cases hmajor
  | .null, w, depth, s, t, hv, hw, h => by
    obtain ⟨hmajor, hargument, hbody⟩ := hv.split hw h
    cases w with
    | null => exact ⟨rfl, hbody⟩
    | bool b => cases b <;> cases hargument
    | integer n => exact absurd hmajor (major_ne_integer (by simp [major]) n)
    | _ => cases hmajor
  | .bool b, w, depth, s, t, hv, hw, h => by
    obtain ⟨hmajor, hargument, hbody⟩ := hv.split hw h
    cases w with
    | bool b' =>
        cases b <;> cases b' <;> first | exact ⟨rfl, hbody⟩ | cases hargument
    | null => cases b <;> cases hargument
    | integer n => exact absurd hmajor (major_ne_integer (by simp [major]) n)
    | _ => cases hmajor

theorem eq_of_append_items : ∀ (items : List Value) {depth : Nat},
    (∀ item ∈ items, Legible depth item) →
      ∀ item ∈ items, ∀ {w : Value} {s t : Bytes}, Legible depth w →
        (write depth item).bytes ++ s = (write depth w).bytes ++ t → item = w ∧ s = t
  | [], _, _ => fun _ hitem => (by cases hitem)
  | item :: items, depth, h => by
    obtain ⟨hitem, hitems⟩ := List.forall_mem_cons.1 h
    exact List.forall_mem_cons.2 ⟨fun hw => eq_of_append item hitem hw,
      eq_of_append_items items hitems⟩

theorem eq_of_append_pairs : ∀ (pairs : List (Value × Value)) {depth : Nat},
    (∀ q ∈ pairs, Legible depth q.1 ∧ Legible depth q.2) →
      ∀ q ∈ pairs, ∀ {r : Value × Value} {s t : Bytes}, Legible depth r.1 ∧ Legible depth r.2 →
        ((write depth q.1).bytes ++ (write depth q.2).bytes) ++ s =
          ((write depth r.1).bytes ++ (write depth r.2).bytes) ++ t → q = r ∧ s = t
  | [], _, _ => fun _ hq => (by cases hq)
  | (key, value) :: pairs, depth, h => by
    obtain ⟨⟨hkey, hvalue⟩, hpairs⟩ := List.forall_mem_cons.1 h
    refine List.forall_mem_cons.2 ⟨?_, eq_of_append_pairs pairs hpairs⟩
    intro r s t hr happend
    rw [List.append_assoc, List.append_assoc] at happend
    obtain ⟨rfl, hbehind⟩ := eq_of_append key hkey hr.1 happend
    obtain ⟨rfl, hst⟩ := eq_of_append value hvalue hr.2 hbehind
    exact ⟨rfl, hst⟩
end

/-! ### Encodings -/

/-- No length in a value is too large for its head, if what is written of the value is not. -/
theorem limited_of_encode {v : Value} {form : Bytes} (h : v.encode = .ok form)
    (hlen : form.length < Bytes.capacity 8) : v.Limited maxArgument maxArgument := by
  obtain ⟨hcomplete, hbytes⟩ := encode_eq_ok_iff.1 (encode_inOrder h)
  rw [← limited_inOrder]
  exact limited_of_length v.inOrder (ordered_inOrder v) hcomplete
    (Nat.le_sub_one_of_lt (hbytes ▸ hlen))

theorem legible_of_encode {v : Value} {form : Bytes} (h : v.encode = .ok form)
    (hordered : v.Ordered) (hlimited : v.Limited maxArgument maxArgument) :
    Legible 0 v ∧ (write 0 v).bytes = form := by
  obtain ⟨hcomplete, hbytes⟩ := encode_eq_ok_iff.1 h
  exact ⟨⟨hordered, hlimited, hcomplete⟩, hbytes⟩

/-- **An encoding tells its value**, up to the order of the pairs in its maps. -/
theorem encode_eq_iff {v w : Value} {form form' : Bytes} (hv : v.encode = .ok form)
    (hw : w.encode = .ok form') (hlv : v.Limited maxArgument maxArgument)
    (hlw : w.Limited maxArgument maxArgument) : form = form' ↔ v.inOrder = w.inOrder := by
  have hv' := encode_inOrder hv
  have hw' := encode_inOrder hw
  constructor
  · rintro rfl
    obtain ⟨hlegible, hbytes⟩ :=
      legible_of_encode hv' (ordered_inOrder v) ((limited_inOrder v).2 hlv)
    obtain ⟨hlegible', hbytes'⟩ :=
      legible_of_encode hw' (ordered_inOrder w) ((limited_inOrder w).2 hlw)
    exact (eq_of_append v.inOrder (s := []) (t := []) hlegible hlegible'
      (by rw [hbytes, hbytes'])).1
  · intro h
    rw [h, hw'] at hv'
    exact (Except.ok.inj hv').symm

/-- The bytes of a value tell it up to the order of pairs, if there are not too many of them. -/
theorem encode_eq_iff_of_short {v w : Value} {form form' : Bytes} (hv : v.encode = .ok form)
    (hw : w.encode = .ok form') (hlen : form.length < Bytes.capacity 8) :
    form = form' ↔ v.inOrder = w.inOrder := by
  refine ⟨fun h => ?_, fun h => ?_⟩
  · exact (encode_eq_iff hv hw (limited_of_encode hv hlen)
      (limited_of_encode hw (h ▸ hlen))).1 h
  · have horder := encode_inOrder hv
    rw [h, encode_inOrder hw] at horder
    exact (Except.ok.inj horder).symm

/-- What the reader asks of a value beyond the writer: no two keys of a map are written alike, and
strings and lists keep to its limits. -/
def Readable (v : Value) : Prop := v.Distinct ∧ v.Within

/-- **What was written is read back** just when it is readable, and then in canonical order. -/
theorem decode_of_encode_iff {v w : Value} {form : Bytes} (h : v.encode = .ok form)
    (hlen : form.length < Bytes.capacity 8) :
    decode form = .ok w ↔ v.Readable ∧ w = v.inOrder := by
  have hcanon := canonical_inOrder_iff v (encode_eq_ok_iff.1 h).1
  have hwithin : v.inOrder.Within ↔ v.Within := limited_inOrder v
  constructor
  · intro hw
    obtain ⟨hform, hcanonical, hkeeps⟩ := decode_eq_ok_iff.1 hw
    obtain ⟨hlegible, hbytes⟩ := legible_of_encode hform hcanonical.ordered hkeeps.limited
    obtain ⟨hlegible', hbytes'⟩ := legible_of_encode (encode_inOrder h) (ordered_inOrder v)
      ((limited_inOrder v).2 (limited_of_encode h hlen))
    obtain ⟨rfl, -⟩ := eq_of_append w (s := []) (t := []) hlegible hlegible'
      (by rw [hbytes, hbytes'])
    exact ⟨⟨hcanon.1 hcanonical, hwithin.1 hkeeps⟩, rfl⟩
  · rintro ⟨⟨hdistinct, hkeeps⟩, rfl⟩
    exact decode_encode (hcanon.2 hdistinct) (hwithin.2 hkeeps) (encode_inOrder h)

theorem decode_isOk_iff {v : Value} {form : Bytes} (h : v.encode = .ok form)
    (hlen : form.length < Bytes.capacity 8) : (∃ w, decode form = .ok w) ↔ v.Readable := by
  simp only [decode_of_encode_iff h hlen]
  exact ⟨fun ⟨_, hreadable, _⟩ => hreadable, fun hreadable => ⟨_, hreadable, rfl⟩⟩

end Rollup.Value
