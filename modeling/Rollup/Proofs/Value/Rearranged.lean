import Rollup.Proofs.Value.Object
import Rollup.Proofs.Value.Sorting

/-!
# Rearranged values — the order of the pairs in maps

Two values are rearranged if they differ by the order of the pairs in their maps only, at any
depth, and pairs whose keys are written alike keep theirs (`Rearranged`).  Canonical order is one
such order (`rearranged_inOrder`).

Writing a map sorts its pairs by what is written of their keys, and a stable sort forgets every
other order (`Reordered.sortedPairs_eq`).  So rearranged values are written alike, at every depth
and also where that fails (`Rearranged.write_eq`).  A look-up takes the first pair with a name, and
finds rearranged values in rearranged maps (`Rearranged.field?`).
-/

namespace Rollup.Value

/-! ### Stable sorting -/

section

variable {α : Type}

theorem keyLe_of_eq {a b : Bytes × α} (h : a.1 = b.1) : keyLe a b = true := by
  rw [keyLe, h, @Std.ReflCmp.compare_self _ Bytes.shortlex]
  rfl

/-- Sorting keeps the order of what stands under one key. -/
theorem filter_mergeSort {P : Bytes × α → Bool} {l : List (Bytes × α)} {key : Bytes}
    (h : ∀ e ∈ l, P e = true → e.1 = key) : (l.mergeSort keyLe).filter P = l.filter P := by
  have hsorted : (l.filter P).Pairwise fun a b => keyLe a b = true :=
    List.pairwise_of_forall_mem_list fun a ha b hb => by
      rw [List.mem_filter] at ha hb
      exact keyLe_of_eq ((h a ha.1 ha.2).trans (h b hb.1 hb.2).symm)
  have hsub := (List.sublist_mergeSort keyLe_trans keyLe_total hsorted List.filter_sublist).filter P
  rw [List.filter_filter] at hsub
  simp only [Bool.and_self] at hsub
  refine (hsub.eq_of_length ?_).symm
  exact ((List.mergeSort_perm l keyLe).filter P).length_eq.symm

/-- A sorted list is told by what stands under each of its keys. -/
theorem eq_of_filter_eq {l l' : List (Bytes × α)} (hl : l.Pairwise fun a b => keyLe a b = true)
    (hl' : l'.Pairwise fun a b => keyLe a b = true)
    (h : ∀ key, l.filter (fun e => e.1 = key) = l'.filter (fun e => e.1 = key)) : l = l' := by
  have hmem : ∀ e, e ∈ l ↔ e ∈ l' := fun e => by
    have := congrArg (e ∈ ·) (h e.1)
    simpa using this
  induction l generalizing l' with
  | nil => exact (List.eq_nil_iff_forall_not_mem.2 fun e he => by simpa using (hmem e).2 he).symm
  | cons a l ih =>
      cases l' with
      | nil => simpa using (hmem a).1
      | cons b l' =>
          obtain ⟨ha, htail⟩ := List.pairwise_cons.1 hl
          obtain ⟨hb, htail'⟩ := List.pairwise_cons.1 hl'
          -- both lists begin with a least key, and under that key with the same
          have hab : keyLe a b = true := by
            rcases List.mem_cons.1 ((hmem b).2 List.mem_cons_self) with rfl | hmem'
            · exact keyLe_of_eq rfl
            · exact ha b hmem'
          have hba : keyLe b a = true := by
            rcases List.mem_cons.1 ((hmem a).1 List.mem_cons_self) with rfl | hmem'
            · exact keyLe_of_eq rfl
            · exact hb a hmem'
          have hkey : a.1 = b.1 := Bytes.eq_of_shortlex (Std.OrientedCmp.isLE_antisymm hab hba)
          have hfirst := h a.1
          rw [List.filter_cons_of_pos (by simp), List.filter_cons_of_pos (by simp [hkey])] at hfirst
          obtain ⟨rfl, hrest⟩ := List.cons.inj hfirst
          have htails : ∀ key, l.filter (fun e => e.1 = key) = l'.filter (fun e => e.1 = key) := by
            intro key
            by_cases hk : a.1 = key
            · exact hk ▸ hrest
            · have hother := h key
              rwa [List.filter_cons_of_neg (by simpa using hk),
                List.filter_cons_of_neg (by simpa using hk)] at hother
          refine congrArg (a :: ·) (ih htail htail' htails fun e => ?_)
          have := congrArg (e ∈ ·) (htails e.1)
          simpa using this

/-- **A stable sort** is told by the order under each key. -/
theorem mergeSort_eq_of_filter_eq {l l' : List (Bytes × α)}
    (h : ∀ key, l.filter (fun e => e.1 = key) = l'.filter (fun e => e.1 = key)) :
    l.mergeSort keyLe = l'.mergeSort keyLe := by
  have hstable : ∀ (m : List (Bytes × α)) (key : Bytes),
      (m.mergeSort keyLe).filter (fun e => e.1 = key) = m.filter (fun e => e.1 = key) :=
    fun m key => filter_mergeSort fun e _ he => of_decide_eq_true he
  refine eq_of_filter_eq (List.pairwise_mergeSort keyLe_trans keyLe_total l)
    (List.pairwise_mergeSort keyLe_trans keyLe_total l') fun key => ?_
  rw [hstable, hstable, h key]

end

/-! ### Pairs in another order -/

/-- The same pairs in another order; those whose keys are written alike keep theirs. -/
structure Reordered (pairs pairs' : List (Value × Value)) : Prop where
  perm : pairs.Perm pairs'
  alike : ∀ form : Bytes, pairs.filter (fun q => q.1.encode = .ok form) =
    pairs'.filter (fun q => q.1.encode = .ok form)

namespace Reordered

variable {pairs pairs' : List (Value × Value)}

theorem refl (pairs : List (Value × Value)) : Reordered pairs pairs := ⟨.refl _, fun _ => rfl⟩

theorem symm (h : Reordered pairs pairs') : Reordered pairs' pairs :=
  ⟨h.perm.symm, fun form => (h.alike form).symm⟩

/-- Where no two keys are written alike, every order will do. -/
theorem of_perm (h : pairs.Perm pairs')
    (hkeys : pairs.Pairwise fun a b => a.1.encode ≠ b.1.encode) : Reordered pairs pairs' where
  perm := h
  alike form := by
    have hperm := h.filter fun q => decide (q.1.encode = .ok form)
    have hdistinct := hkeys.filter fun q => decide (q.1.encode = .ok form)
    have hform : ∀ q ∈ pairs.filter fun q => q.1.encode = .ok form, q.1.encode = .ok form :=
      fun q hq => of_decide_eq_true (List.mem_filter.1 hq).2
    generalize pairs.filter _ = alike at hperm hdistinct hform ⊢
    match alike with
    | [] => exact (List.nil_perm.1 hperm).symm
    | [q] => exact (List.singleton_perm.1 hperm)
    | a :: b :: _ =>
        have hab := List.rel_of_pairwise_cons hdistinct List.mem_cons_self
        exact absurd ((hform a (by simp)).trans (hform b (by simp)).symm) hab

/-- The first pair with a name is the same. -/
theorem find?_eq (h : Reordered pairs pairs') (name : String) :
    (pairs.find? fun q => q.1.asText == some name) =
      pairs'.find? fun q => q.1.asText == some name := by
  obtain ⟨form, hform⟩ : ∃ form, (Value.text name).encode = .ok form := ⟨_, rfl⟩
  -- the pairs with this name are among those whose keys are written like it
  have hname : ∀ qs : List (Value × Value), (qs.find? fun q => q.1.asText == some name) =
      (qs.filter fun q => q.1.encode = .ok form).find? fun q => q.1.asText == some name := by
    intro qs
    rw [List.find?_filter]
    refine congrArg (qs.find? ·) (funext fun q => ?_)
    by_cases hq : q.1.asText = some name
    · have hkey : q.1 = .text name := by
        revert hq
        cases q.1 <;> simp [asText]
      simp [hkey, asText, hform]
    · simp [hq]
  rw [hname pairs, hname pairs', h.alike]

/-- **Pairs are written in an order** that forgets how they stood. -/
theorem sortedPairs_eq (h : Reordered pairs pairs') {depth : Nat}
    (hkeys : ∀ q ∈ pairs, (write depth q.1).complete = true) :
    sortedPairs depth pairs = sortedPairs depth pairs' := by
  have hkeys' : ∀ q ∈ pairs', (write depth q.1).complete = true :=
    fun q hq => hkeys q (h.perm.mem_iff.2 hq)
  have hform : ∀ (qs : List (Value × Value)) (key : Bytes),
      (∀ q ∈ qs, (write depth q.1).complete = true) →
      (((writePairs depth qs).map fun p => (p.1.bytes, p.2)).filter fun e => e.1 = key) =
        (qs.filter fun q => q.1.encode = .ok key).map fun q =>
          ((write depth q.1).bytes, write depth q.2) := by
    intro qs key hqs
    rw [writePairs_eq_map, List.map_map, List.filter_map]
    refine congrArg _ (List.filter_congr fun q hq => decide_eq_decide.2 ?_)
    rw [encode_eq_ok_iff, write_eq_of_le q.1 (hqs q hq) (Nat.zero_le depth)]
    exact ⟨fun hbytes => ⟨hqs q hq, hbytes⟩, fun hbytes => hbytes.2⟩
  refine mergeSort_eq_of_filter_eq fun key => ?_
  rw [hform pairs key hkeys, hform pairs' key hkeys', h.alike]

theorem write_eq (h : Reordered pairs pairs') (depth : Nat) :
    write depth (.map pairs) = write depth (.map pairs') := by
  by_cases hdepth : depth ≤ maxDepth
  · have hall : (writePairs (depth + 1) pairs).all (·.1.complete) =
        (writePairs (depth + 1) pairs').all (·.1.complete) := by
      rw [writePairs_eq_map, writePairs_eq_map, List.all_map, List.all_map]
      exact h.perm.all_eq
    rw [write_map_eq hdepth, write_map_eq hdepth, ← hall, h.perm.length_eq]
    split
    · next hkeys =>
      rw [writePairs_eq_map, List.all_map, List.all_eq_true] at hkeys
      rw [h.sortedPairs_eq hkeys]
    · rfl
  · rw [write.eq_def, write.eq_def, if_pos (Nat.lt_of_not_le hdepth),
      if_pos (Nat.lt_of_not_le hdepth)]

end Reordered

/-- Pairs in the order of what ranks them. -/
def rankedBy (rank : Value × Value → Bytes) (pairs : List (Value × Value)) :
    List (Value × Value) :=
  ((pairs.map fun q => (rank q, q)).mergeSort keyLe).map (·.2)

/-- **Sorting by what is written of the keys** gives another order of the pairs. -/
theorem reordered_rankedBy {rank : Value × Value → Bytes} (pairs : List (Value × Value))
    (hrank : ∀ q ∈ pairs, ∀ form, q.1.encode = .ok form → rank q = form) :
    Reordered (rankedBy rank pairs) pairs where
  perm := by
    have h := (List.mergeSort_perm (pairs.map fun q => (rank q, q)) keyLe).map (·.2)
    rw [List.map_map] at h
    exact h.trans (.of_eq (List.map_id _))
  alike form := by
    have hform : ∀ e ∈ pairs.map fun q => (rank q, q),
        decide (e.2.1.encode = .ok form) = true → e.1 = form := by
      intro e he hform
      obtain ⟨q, hq, rfl⟩ := List.mem_map.1 he
      exact hrank q hq form (of_decide_eq_true hform)
    have hback := congrArg (List.map Prod.snd) (filter_mergeSort hform)
    rw [List.filter_map (l := pairs), List.map_map] at hback
    rw [rankedBy, List.filter_map]
    exact hback.trans (List.map_id _)

/-- Ranking what is made of the pairs. -/
theorem ranked_map (f : Value × Value → Value × Value) (pairs : List (Value × Value)) :
    ranked (pairs.map f) = (rankedBy (fun q => orderBytes (f q).1) pairs).map f := by
  let image (e : Bytes × Value × Value) : Bytes × Value × Value := (e.1, f e.2)
  have hsort : ((pairs.map fun q => (orderBytes (f q).1, q)).mergeSort keyLe).map image =
      ((pairs.map fun q => (orderBytes (f q).1, q)).map image).mergeSort keyLe :=
    List.map_mergeSort fun _ _ _ _ => rfl
  have hback := congrArg (List.map Prod.snd) hsort
  rw [List.map_map, List.map_map] at hback
  rw [ranked, rankedBy, List.map_map, List.map_map]
  exact hback.symm

/-- Canonical order is another order of the pairs. -/
theorem reordered_ranked (pairs : List (Value × Value)) : Reordered (ranked pairs) pairs :=
  reordered_rankedBy pairs fun q _ form hform => by
    show orderBytes q.1 = form
    rw [orderBytes, hform]

/-! ### Rearranged values -/

mutual
/-- The values differ by the order of pairs in maps only. -/
inductive Rearranged : Value → Value → Prop where
  | refl (v : Value) : Rearranged v v
  | array {items items' : List Value} (h : RearrangedItems items items') :
      Rearranged (.array items) (.array items')
  | map {pairs pairs' pairs'' : List (Value × Value)} (h : Reordered pairs pairs')
      (h' : RearrangedPairs pairs' pairs'') : Rearranged (.map pairs) (.map pairs'')

inductive RearrangedItems : List Value → List Value → Prop where
  | nil : RearrangedItems [] []
  | cons {item item' : Value} {items items' : List Value} (h : Rearranged item item')
      (h' : RearrangedItems items items') : RearrangedItems (item :: items) (item' :: items')

inductive RearrangedPairs : List (Value × Value) → List (Value × Value) → Prop where
  | nil : RearrangedPairs [] []
  | cons {key key' value value' : Value} {pairs pairs' : List (Value × Value)}
      (hkey : Rearranged key key') (hvalue : Rearranged value value')
      (h : RearrangedPairs pairs pairs') :
      RearrangedPairs ((key, value) :: pairs) ((key', value') :: pairs')
end

theorem rearrangedItems_iff {items items' : List Value} :
    RearrangedItems items items' ↔ List.Forall₂ Rearranged items items' := by
  constructor
  · intro h
    induction items generalizing items' with
    | nil => cases h; exact .nil
    | cons item items ih => cases h with | cons h h' => exact .cons h (ih h')
  · intro h
    induction h with
    | nil => exact .nil
    | cons h _ ih => exact .cons h ih

theorem rearrangedPairs_iff {pairs pairs' : List (Value × Value)} :
    RearrangedPairs pairs pairs' ↔
      List.Forall₂ (fun p q => Rearranged p.1 q.1 ∧ Rearranged p.2 q.2) pairs pairs' := by
  constructor
  · intro h
    induction pairs generalizing pairs' with
    | nil => cases h; exact .nil
    | cons p pairs ih => cases h with | cons hk hv h => exact .cons ⟨hk, hv⟩ (ih h)
  · intro h
    induction h with
    | nil => exact .nil
    | @cons p q _ _ h _ ih => exact .cons h.1 h.2 ih

theorem Reordered.rearranged {pairs pairs' : List (Value × Value)} (h : Reordered pairs pairs') :
    Rearranged (.map pairs) (.map pairs') :=
  .map h (rearrangedPairs_iff.2 (List.forall₂_same.2 fun _ _ => ⟨.refl _, .refl _⟩))

mutual
/-- **Rearranged values are written alike**, whole or up to where that fails. -/
theorem Rearranged.write_eq : ∀ {v w : Value}, Rearranged v w → ∀ depth : Nat,
    write depth v = write depth w
  | _, _, .refl _, _ => rfl
  | _, _, .array h, depth => by
    by_cases hdepth : depth ≤ maxDepth
    · rw [write_array_eq hdepth, write_array_eq hdepth, h.write_eq,
        (rearrangedItems_iff.1 h).length_eq]
    · rw [write.eq_def, write.eq_def, if_pos (Nat.lt_of_not_le hdepth),
        if_pos (Nat.lt_of_not_le hdepth)]
  | _, _, .map h h', depth => by
    rw [h.write_eq]
    by_cases hdepth : depth ≤ maxDepth
    · rw [write_map_eq hdepth, write_map_eq hdepth, sortedPairs, sortedPairs, h'.write_eq,
        (rearrangedPairs_iff.1 h').length_eq]
    · rw [write.eq_def, write.eq_def, if_pos (Nat.lt_of_not_le hdepth),
        if_pos (Nat.lt_of_not_le hdepth)]

theorem RearrangedItems.write_eq : ∀ {items items' : List Value}, RearrangedItems items items' →
    ∀ depth : Nat, writeItems depth items = writeItems depth items'
  | _, _, .nil, _ => rfl
  | _, _, .cons h h', depth => by rw [writeItems, writeItems, h.write_eq, h'.write_eq]

theorem RearrangedPairs.write_eq : ∀ {pairs pairs' : List (Value × Value)},
    RearrangedPairs pairs pairs' → ∀ depth : Nat, writePairs depth pairs = writePairs depth pairs'
  | _, _, .nil, _ => rfl
  | _, _, .cons hkey hvalue h, depth => by
    rw [writePairs, writePairs, hkey.write_eq, hvalue.write_eq, h.write_eq]
end

theorem Rearranged.encode_eq {v w : Value} (h : Rearranged v w) : v.encode = w.encode := by
  rw [encode, encode, h.write_eq]

/-! ### Fields -/

theorem forall₂_rearranged_refl (vs : List Value) : List.Forall₂ Rearranged vs vs :=
  List.forall₂_same.2 fun v _ => .refl v

theorem Rearranged.asText_eq {v w : Value} (h : Rearranged v w) : v.asText = w.asText := by
  cases h <;> rfl

theorem Rearranged.asArray {v w : Value} (h : Rearranged v w) :
    Option.Rel (List.Forall₂ Rearranged) v.asArray w.asArray := by
  cases h with
  | refl => cases v <;> first | exact .none | exact .some (forall₂_rearranged_refl _)
  | array h => exact .some (rearrangedItems_iff.1 h)
  | map => exact .none

/-- The first pair with a name, in pairs that are rearranged one by one. -/
theorem RearrangedPairs.find? {pairs pairs' : List (Value × Value)}
    (h : RearrangedPairs pairs pairs') (name : String) :
    Option.Rel (fun p q => Rearranged p.2 q.2) (pairs.find? fun q => q.1.asText == some name)
      (pairs'.find? fun q => q.1.asText == some name) := by
  induction pairs generalizing pairs' with
  | nil => cases h; exact .none
  | cons p pairs ih =>
      cases h with
      | cons hkey hvalue h =>
          rw [List.find?_cons, List.find?_cons]
          dsimp only
          rw [hkey.asText_eq]
          split
          · exact .some hvalue
          · exact ih h

/-- **Fields of rearranged values** are rearranged. -/
theorem Rearranged.field? {v w : Value} (h : Rearranged v w) (name : String) :
    Option.Rel Rearranged (v.field? name) (w.field? name) := by
  cases h with
  | refl =>
      cases v.field? name with
      | none => exact .none
      | some field => exact .some (.refl field)
  | array => exact .none
  | @map pairs pairs' pairs'' h h' =>
      rw [field?_map, field?_map, h.find?_eq]
      have hfind := h'.find? name
      generalize pairs'.find? _ = found, pairs''.find? _ = found' at hfind
      cases hfind with
      | none => exact .none
      | some hvalue => exact .some hvalue

/-! ### Canonical order -/

mutual
/-- **Canonical order** rearranges a value. -/
theorem rearranged_inOrder : ∀ v : Value, Rearranged v v.inOrder
  | .array items => by
    rw [inOrder]
    exact .array (rearranged_inOrderItems items)
  | .map pairs => by
    have hrank : ∀ q ∈ pairs, ∀ form, q.1.encode = .ok form → orderBytes q.1.inOrder = form := by
      intro q _ form hform
      rw [orderBytes, encode_inOrder hform]
    have hitems : ∀ q ∈ pairs, Rearranged q.1 q.1.inOrder ∧ Rearranged q.2 q.2.inOrder := by
      have h := rearrangedPairs_iff.1 (rearranged_inOrderPairs pairs)
      rwa [inOrderPairs_eq_map, List.forall₂_map_right_iff, List.forall₂_same] at h
    have hsorted := reordered_rankedBy pairs hrank
    rw [inOrder, inOrderPairs_eq_map, ofPairs_eq_ranked, ranked_map]
    refine .map hsorted.symm (rearrangedPairs_iff.2 ?_)
    rw [List.forall₂_map_right_iff, List.forall₂_same]
    exact fun q hq => hitems q (hsorted.perm.mem_iff.1 hq)
  | .null | .bool _ | .integer _ | .bytes _ | .text _ => by rw [inOrder]; exact .refl _

theorem rearranged_inOrderItems : ∀ items : List Value, RearrangedItems items (inOrderItems items)
  | [] => .nil
  | item :: items => .cons (rearranged_inOrder item) (rearranged_inOrderItems items)

theorem rearranged_inOrderPairs : ∀ pairs : List (Value × Value),
    RearrangedPairs pairs (inOrderPairs pairs)
  | [] => .nil
  | (key, value) :: pairs =>
    .cons (rearranged_inOrder key) (rearranged_inOrder value) (rearranged_inOrderPairs pairs)
end

theorem asText_inOrder (v : Value) : v.inOrder.asText = v.asText :=
  (rearranged_inOrder v).asText_eq.symm

/-- **A field of a value in canonical order** is the field in canonical order. -/
theorem field?_inOrder (v : Value) (name : String) :
    v.inOrder.field? name = (v.field? name).map inOrder := by
  cases v with
  | map pairs =>
      have hname : ((fun q => q.1.asText == some name) ∘ fun q => (q.1.inOrder, q.2.inOrder)) =
          fun q : Value × Value => q.1.asText == some name :=
        funext fun q => congrArg (· == some name) (asText_inOrder q.1)
      rw [inOrder, ofPairs_eq_ranked, field?_map, field?_map, (reordered_ranked _).find?_eq,
        inOrderPairs_eq_map, List.find?_map, hname, Option.map_map, Option.map_map]
      rfl
  | _ => rfl

theorem asArray_inOrder (v : Value) : v.inOrder.asArray = v.asArray.map (List.map inOrder) := by
  cases v with
  | array items => rw [inOrder, inOrderItems_eq_map]; rfl
  | _ => rfl

end Rollup.Value
