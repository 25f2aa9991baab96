import Rollup.Proofs.Bytes
import Rollup.Proofs.Value.Writing

/-!
# Canonical values — what `ofPairs` and `object` make

Putting pairs in canonical order makes a canonical map of them, if no two keys are written alike
(`canonical_ofPairs`), and the same one however they are shuffled (`ofPairs_of_perm`).  The names of
an object are written differently (`orderBytes_text_inj`).
-/

namespace Rollup

/-! ### The order of encodings -/

namespace Bytes

theorem shortlex_eq : shortlex = compareLex (compareOn List.length) compare := rfl

instance : Std.TransCmp shortlex := shortlex_eq ▸ inferInstance

theorem eq_of_shortlex {a b : Bytes} (h : shortlex a b = .eq) : a = b :=
  Std.LawfulEqCmp.eq_of_compare (Ordering.then_eq_eq.1 h).2

end Bytes

namespace Value

variable {α : Type}

theorem keyLe_trans (a b c : Bytes × α) (h : keyLe a b = true) (h' : keyLe b c = true) :
    keyLe a c = true := Std.TransCmp.isLE_trans h h'

theorem keyLe_total (a b : Bytes × α) : (keyLe a b || keyLe b a) = true := by
  have hswap : Bytes.shortlex b.1 a.1 = (Bytes.shortlex a.1 b.1).swap := Std.OrientedCmp.eq_swap
  rw [keyLe, keyLe, hswap]
  cases Bytes.shortlex a.1 b.1 <;> rfl

/-! ### Lists of canonical values -/

theorem canonical_text (s : String) : (Value.text s).Canonical := by simp [Canonical]

theorem canonicalItems_iff {items : List Value} :
    CanonicalItems items ↔ ∀ item ∈ items, item.Canonical := by
  induction items with
  | nil => simp [CanonicalItems]
  | cons item items ih => simp [CanonicalItems, ih]

theorem canonicalPairs_iff {pairs : List (Value × Value)} :
    CanonicalPairs pairs ↔ ∀ q ∈ pairs, q.1.Canonical ∧ q.2.Canonical := by
  induction pairs with
  | nil => simp [CanonicalPairs]
  | cons q pairs ih => simp [CanonicalPairs, ih]

/-! ### Maps in canonical order -/

/-- **Canonical order** makes a canonical map, if the keys are written differently. -/
theorem canonical_ofPairs {pairs : List (Value × Value)}
    (hcanon : ∀ q ∈ pairs, q.1.Canonical ∧ q.2.Canonical)
    (hne : pairs.Pairwise fun a b => orderBytes a.1 ≠ orderBytes b.1) :
    (ofPairs pairs).Canonical := by
  have hperm := List.mergeSort_perm (pairs.map fun p => (orderBytes p.1, p)) keyLe
  have hsorted := List.pairwise_mergeSort keyLe_trans keyLe_total
    (pairs.map fun p => (orderBytes p.1, p))
  have hmem : ∀ e ∈ (pairs.map fun p => (orderBytes p.1, p)).mergeSort keyLe,
      e.2 ∈ pairs ∧ e.1 = orderBytes e.2.1 := fun e he => by
    obtain ⟨q, hq, rfl⟩ := List.mem_map.1 (hperm.mem_iff.1 he)
    exact ⟨hq, rfl⟩
  have hdistinct : ((pairs.map fun p => (orderBytes p.1, p)).mergeSort keyLe).Pairwise
      fun a b => a.1 ≠ b.1 :=
    (hperm.pairwise_iff fun h => h.symm).2 (List.pairwise_map.2 hne)
  rw [ofPairs, Canonical]
  refine ⟨canonicalPairs_iff.2 (List.forall_mem_map.2 fun e he => hcanon _ (hmem e he).1),
    List.pairwise_map.2 ?_⟩
  refine (hsorted.and hdistinct).imp_of_mem fun {a b} ha hb ⟨hle, hne⟩ => ?_
  rw [← (hmem a ha).2, ← (hmem b hb).2]
  have hneq : Bytes.shortlex a.1 b.1 ≠ .eq := fun h => hne (Bytes.eq_of_shortlex h)
  have hisLE : (Bytes.shortlex a.1 b.1).isLE = true := hle
  revert hneq hisLE
  cases Bytes.shortlex a.1 b.1 <;> simp

/-- **Pairs in canonical order** are what `ofPairs` makes of them, however they are shuffled. -/
theorem ofPairs_of_perm {pairs sorted : List (Value × Value)} (hperm : sorted.Perm pairs)
    (hsorted : sorted.Pairwise fun a b =>
      Bytes.shortlex (orderBytes a.1) (orderBytes b.1) = .lt) :
    ofPairs pairs = .map sorted := by
  have hperm' := (List.mergeSort_perm (pairs.map fun p => (orderBytes p.1, p)) keyLe).trans
    (hperm.symm.map fun p => (orderBytes p.1, p))
  have hmerged := List.pairwise_mergeSort keyLe_trans keyLe_total
    (pairs.map fun p => (orderBytes p.1, p))
  have hkeyed : (sorted.map fun p => (orderBytes p.1, p)).Pairwise fun a b => keyLe a b = true :=
    List.pairwise_map.2 (hsorted.imp fun h => by rw [keyLe, h]; rfl)
  have hnodup : (sorted.map fun p => orderBytes p.1).Nodup :=
    List.pairwise_map.2 (hsorted.imp fun h heq => by
      rw [heq, @Std.ReflCmp.compare_self _ Bytes.shortlex] at h
      cases h)
  -- pairs of one key are one pair, so the order leaves no choice
  have hanti : ∀ a b, a ∈ (pairs.map fun p => (orderBytes p.1, p)).mergeSort keyLe →
      b ∈ sorted.map (fun p => (orderBytes p.1, p)) → keyLe a b = true → keyLe b a = true →
      a = b := by
    intro a b ha hb hab hba
    obtain ⟨p, hp, rfl⟩ := List.mem_map.1 (hperm'.mem_iff.1 ha)
    obtain ⟨q, hq, rfl⟩ := List.mem_map.1 hb
    have hkey : orderBytes p.1 = orderBytes q.1 :=
      Bytes.eq_of_shortlex (Std.OrientedCmp.isLE_antisymm hab hba)
    rw [List.inj_on_of_nodup_map hnodup hp hq hkey]
  rw [ofPairs, hperm'.eq_of_pairwise hanti hmerged hkeyed, List.map_map]
  exact congrArg Value.map (List.map_id _)

/-- Names in canonical order. -/
abbrev AscendingNames (names : List String) : Prop :=
  names.Pairwise fun a b => Bytes.shortlex (orderBytes (.text a)) (orderBytes (.text b)) = .lt

/-- **An object** is written in the canonical order of its names. -/
theorem write_object {fields sorted : List (String × Value)} {depth : Nat} (h : depth < maxDepth)
    (hperm : sorted.Perm fields) (hasc : AscendingNames (sorted.map (·.1))) :
    write depth (object fields) = (Written.piece (head 5 sorted.length)).andThen (.concat
      (sorted.map fun f => (write (depth + 1) (.text f.1)).andThen (write (depth + 1) f.2))) := by
  have hsorted : (sorted.map fun f => ((.text f.1, f.2) : Value × Value)).Pairwise fun a b =>
      Bytes.shortlex (orderBytes a.1) (orderBytes b.1) = .lt :=
    List.pairwise_map.2 (List.pairwise_map.1 hasc)
  have hkeys : ∀ p ∈ sorted.map fun f => ((.text f.1, f.2) : Value × Value),
      (write (depth + 1) p.1).complete = true :=
    List.forall_mem_map.2 fun f _ => by
      rw [write_text h]
      rfl
  rw [object, ofPairs_of_perm (hperm.map _) hsorted,
    write_map_of_ordered (Nat.le_of_lt h) hkeys (isLE_of_ascending hsorted), List.length_map,
    List.map_map]
  rfl

/-! ### Names -/

theorem length_head_le {major m n : Nat} (h : m ≤ n) :
    (head major m).length ≤ (head major n).length := by
  have hlength : ∀ k, (head major k).length = if k < 24 then 1 else if k < Bytes.capacity 1 then 2
      else if k < Bytes.capacity 2 then 3 else if k < Bytes.capacity 4 then 5 else 9 := fun k => by
    rw [head]
    split_ifs <;> simp
  rw [hlength, hlength]
  split_ifs <;> omega

theorem utf8_injective {s t : String} (h : Utf8.encode s = Utf8.encode t) : s = t := by
  have := Utf8.decode?_encode s
  rw [h, Utf8.decode?_encode] at this
  exact (Option.some.inj this).symm

/-- Different texts are written differently. -/
theorem orderBytes_text_inj {s t : String} (h : orderBytes (.text s) = orderBytes (.text t)) :
    s = t := by
  have hbytes : ∀ s, orderBytes (.text s) = head 3 (Utf8.encode s).length ++ Utf8.encode s :=
    fun s => by
      have hwrite := write_text (Nat.zero_le maxDepth) s
      rw [orderBytes_eq (by rw [hwrite]; rfl), hwrite]
      rfl
  rw [hbytes, hbytes] at h
  have hlength := congrArg List.length h
  rw [List.length_append, List.length_append] at hlength
  refine utf8_injective (List.append_inj_right' h ?_)
  -- the longer text has the longer head
  rcases Nat.le_total (Utf8.encode s).length (Utf8.encode t).length with hle | hle
  · have := @length_head_le 3 _ _ hle
    omega
  · have := @length_head_le 3 _ _ hle
    omega

/-- **An object** of canonical values with distinct names is canonical. -/
theorem canonical_object {fields : List (String × Value)} (hnames : (fields.map (·.1)).Nodup)
    (hcanon : ∀ f ∈ fields, f.2.Canonical) : (object fields).Canonical := by
  refine canonical_ofPairs (List.forall_mem_map.2 fun f hf => ⟨?_, hcanon f hf⟩) ?_
  · exact canonical_text f.1
  · refine List.pairwise_map.2 ((List.pairwise_map.1 hnames).imp fun hne h => ?_)
    exact hne (orderBytes_text_inj h)

end Value

end Rollup
