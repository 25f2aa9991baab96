import Rollup.Bytes
import Mathlib.Data.List.Infix

/-!
# Bytes — fixed-width numbers, cutting, and the order of encodings

* A number that fits its width is read back (`ofLittleEndian_littleEndian`), and every byte string
  is the form of the number it writes (`littleEndian_ofLittleEndian`).
* `cut?_append` and `cut?_eq_none_iff` say what a cut of a joined string finds.
* Highest byte first, the order of the bytes is the order of the numbers (`compare_bigEndian`).
* The strings that begin with another one lie together, before all later ones
  (`compare_lt_of_isPrefix`).
-/

namespace Rollup.Bytes

/-! ### Fixed-width numbers -/

theorem capacity_succ (w : Nat) : capacity (w + 1) = 256 * capacity w := by
  simp only [capacity, Nat.pow_eq, Nat.pow_succ]
  omega

@[simp] theorem length_littleEndian (w n : Nat) : (littleEndian w n).length = w := by
  induction w generalizing n with
  | zero => rfl
  | succ w ih => simp [littleEndian, ih]

@[simp] theorem length_bigEndian (w n : Nat) : (bigEndian w n).length = w := by
  simp [bigEndian]

theorem ofLittleEndian_littleEndian {w n : Nat} (h : n < capacity w) :
    ofLittleEndian (littleEndian w n) = n := by
  induction w generalizing n with
  | zero =>
      have : n < 1 := h
      simp only [littleEndian, ofLittleEndian]
      omega
  | succ w ih =>
      rw [capacity_succ] at h
      have hlow : n.toUInt8.toNat = n % 256 := by simp
      rw [littleEndian, ofLittleEndian, ih (by omega), hlow]
      omega

theorem ofLittleEndian_lt (bytes : Bytes) : ofLittleEndian bytes < capacity bytes.length := by
  induction bytes with
  | nil => exact Nat.one_pos
  | cons b rest ih =>
      have hb : b.toNat < 256 := b.toNat_lt
      rw [ofLittleEndian, List.length_cons, capacity_succ]
      omega

theorem littleEndian_ofLittleEndian (bytes : Bytes) :
    littleEndian bytes.length (ofLittleEndian bytes) = bytes := by
  induction bytes with
  | nil => rfl
  | cons b rest ih =>
      have hb : b.toNat < 256 := b.toNat_lt
      have hlow : (b.toNat + 256 * ofLittleEndian rest).toUInt8 = b := by
        rw [← UInt8.toNat_inj]
        simp
      have hhigh : (b.toNat + 256 * ofLittleEndian rest) / 256 = ofLittleEndian rest := by omega
      rw [ofLittleEndian, List.length_cons, littleEndian, hlow, hhigh, ih]

/-- A changed byte changes the number by its weight. -/
theorem ofLittleEndian_set {bytes : Bytes} {k : Nat} (hk : k < bytes.length) (byte : UInt8) :
    ofLittleEndian (bytes.set k byte) + capacity k * bytes[k].toNat =
      ofLittleEndian bytes + capacity k * byte.toNat := by
  induction bytes generalizing k with
  | nil => cases hk
  | cons b rest ih =>
      cases k with
      | zero =>
          simp only [List.set_cons_zero, ofLittleEndian, List.getElem_cons_zero, capacity,
            Nat.pow_eq, Nat.pow_zero]
          omega
      | succ k =>
          have hrest := ih (Nat.lt_of_succ_lt_succ hk)
          simp only [List.set_cons_succ, ofLittleEndian, List.getElem_cons_succ, capacity_succ,
            Nat.mul_assoc]
          omega

/-- A greater byte makes a greater number, and only a greater one does. -/
theorem ofLittleEndian_lt_set_iff {bytes : Bytes} {k : Nat} (hk : k < bytes.length) {byte : UInt8} :
    ofLittleEndian bytes < ofLittleEndian (bytes.set k byte) ↔ bytes[k] < byte := by
  have hset := ofLittleEndian_set hk byte
  have hpos : 0 < capacity k := Nat.pow_pos (by decide)
  have hmul := Nat.mul_lt_mul_left (a := capacity k) (b := bytes[k].toNat) (c := byte.toNat) hpos
  rw [UInt8.lt_iff_toNat_lt]
  omega

theorem ofLittleEndian_set_ne {bytes : Bytes} {k : Nat} (hk : k < bytes.length) {byte : UInt8}
    (hne : byte ≠ bytes[k]) : ofLittleEndian (bytes.set k byte) ≠ ofLittleEndian bytes := by
  intro h
  have hset := ofLittleEndian_set hk byte
  rw [h, Nat.add_left_cancel_iff] at hset
  exact hne (UInt8.toNat_inj.1 (Nat.eq_of_mul_eq_mul_left (Nat.pow_pos (by decide)) hset.symm))

theorem ofBigEndian_bigEndian {w n : Nat} (h : n < capacity w) :
    ofBigEndian (bigEndian w n) = n := by
  rw [ofBigEndian, bigEndian, List.reverse_reverse, ofLittleEndian_littleEndian h]

theorem ofBigEndian_lt (bytes : Bytes) : ofBigEndian bytes < capacity bytes.length := by
  simpa [ofBigEndian] using ofLittleEndian_lt bytes.reverse

theorem bigEndian_ofBigEndian (bytes : Bytes) :
    bigEndian bytes.length (ofBigEndian bytes) = bytes := by
  have h := littleEndian_ofLittleEndian bytes.reverse
  rw [List.length_reverse] at h
  rw [bigEndian, ofBigEndian, h, List.reverse_reverse]

theorem bigEndian_inj {w m n : Nat} (hm : m < capacity w) (hn : n < capacity w)
    (h : bigEndian w m = bigEndian w n) : m = n := by
  rw [← ofBigEndian_bigEndian hm, h, ofBigEndian_bigEndian hn]

/-! ### Cutting -/

theorem cut?_eq_some_iff {n : Nat} {whole front rest : Bytes} :
    whole.cut? n = some (front, rest) ↔ front.length = n ∧ front ++ rest = whole := by
  simp only [cut?, Option.ite_none_right_eq_some, Option.some.injEq, Prod.mk.injEq]
  constructor
  · rintro ⟨hn, rfl, rfl⟩
    exact ⟨hn, List.take_append_drop n whole⟩
  · rintro ⟨rfl, rfl⟩
    simp

theorem cut?_append {n : Nat} {front : Bytes} (h : front.length = n) (rest : Bytes) :
    (front ++ rest).cut? n = some (front, rest) := cut?_eq_some_iff.2 ⟨h, rfl⟩

theorem cut?_eq_none_iff {n : Nat} {whole : Bytes} : whole.cut? n = none ↔ whole.length < n := by
  simp only [cut?, ite_eq_right_iff, reduceCtorEq, imp_false, List.length_take]
  omega

theorem consumed_append (front rest : Bytes) : consumed (front ++ rest) rest = front := by
  rw [consumed, List.length_append, Nat.add_sub_cancel, List.take_left]

/-! ### Order -/

/-- Strings of one length are ordered by their fronts, and then by what follows. -/
theorem compare_append {a b : Bytes} (h : a.length = b.length) (c d : Bytes) :
    compare (a ++ c) (b ++ d) = (compare a b).then (compare c d) := by
  induction a generalizing b with
  | nil =>
      obtain rfl : b = [] := List.length_eq_zero_iff.1 h.symm
      simp
  | cons x a ih =>
      cases b with
      | nil => cases h
      | cons y b =>
          have := ih (b := b) (by simpa using h)
          simp only [List.cons_append, List.compare_cons_cons, this, Ordering.then_assoc]

theorem bigEndian_succ (w n : Nat) :
    bigEndian (w + 1) n = bigEndian w (n / 256) ++ [(n % 256).toUInt8] := by
  have h : (n % 256).toUInt8 = n.toUInt8 := UInt8.toNat_inj.1 (by simp)
  simp [bigEndian, littleEndian, h]

theorem compare_bigEndian_of_lt {w m n : Nat} (hn : n < capacity w) (h : m < n) :
    compare (bigEndian w m) (bigEndian w n) = .lt := by
  induction w generalizing m n with
  | zero =>
      have hn : n < 1 := hn
      omega
  | succ w ih =>
      rw [capacity_succ] at hn
      rw [bigEndian_succ, bigEndian_succ, compare_append (by simp)]
      by_cases hhigh : m / 256 < n / 256
      · rw [ih (by omega) hhigh]
        rfl
      · have hlow : (m % 256).toUInt8 < (n % 256).toUInt8 := by
          rw [UInt8.lt_iff_toNat_lt]
          simp
          omega
        obtain heq : m / 256 = n / 256 := by omega
        simp [heq, Std.compare_eq_lt.2 hlow]

/-- **Highest byte first, bytes are ordered as the numbers are.** -/
theorem compare_bigEndian {w m n : Nat} (hm : m < capacity w) (hn : n < capacity w) :
    compare (bigEndian w m) (bigEndian w n) = compare m n := by
  rcases Nat.lt_trichotomy m n with h | rfl | h
  · rw [compare_bigEndian_of_lt hn h, Nat.compare_eq_lt.2 h]
  · simp
  · rw [Std.OrientedCmp.gt_of_lt (compare_bigEndian_of_lt hm h), Nat.compare_eq_gt.2 h]

theorem compare_ne_lt_of_isPrefix {p a : Bytes} (h : p <+: a) : compare a p ≠ .lt := by
  obtain ⟨c, rfl⟩ := h
  have hc := compare_append (a := p) (b := p) rfl c []
  rw [List.append_nil] at hc
  rw [hc]
  cases c <;> simp

/-- A string begins another as far as a first part of it goes, and then goes on into the rest. -/
theorem isPrefix_append_iff {p a b : Bytes} :
    p <+: a ++ b ↔ p.take a.length <+: a ∧ p.drop a.length <+: b := by
  constructor
  · intro h
    exact ⟨by simpa using h.take a.length, by simpa using h.drop a.length⟩
  · rintro ⟨ha, hb⟩
    rcases Nat.lt_or_ge p.length a.length with hlt | hle
    · rw [List.take_of_length_le hlt.le] at ha
      exact ha.trans (List.prefix_append a b)
    · have hfront : p.take a.length = a := ha.eq_of_length (List.length_take_of_le hle)
      rw [← List.take_append_drop a.length p, hfront]
      exact (List.prefix_append_right_inj a).2 hb

/-- What begins with `p` comes before every string that does not and is not before `p`. -/
theorem compare_lt_of_isPrefix {p a b : Bytes} (ha : p <+: a) (hb : compare b p ≠ .lt)
    (hnb : ¬ p <+: b) : compare a b = .lt := by
  induction p generalizing a b with
  | nil => exact absurd List.nil_prefix hnb
  | cons x p ih =>
      obtain ⟨c, rfl⟩ := ha
      cases b with
      | nil => simp at hb
      | cons y b =>
          rw [List.cons_append, List.compare_cons_cons]
          rw [List.compare_cons_cons] at hb
          rcases hyx : compare y x with _ | _ | _
          · simp [hyx] at hb
          · obtain rfl : y = x := Std.LawfulEqCmp.eq_of_compare hyx
            have hb' : compare b p ≠ .lt := by simpa using hb
            have hnb' : ¬ p <+: b := fun h => hnb (List.cons_prefix_cons.2 ⟨rfl, h⟩)
            simpa using ih (List.prefix_append p c) hb' hnb'
          · rw [Std.OrientedCmp.lt_of_gt hyx]
            rfl

/-- Of a list in ascending order, what begins with `p` is what a reader finds that goes from `p`
on as long as strings begin with it. -/
theorem takeWhile_isPrefix_eq_filter {α : Type} {p : Bytes} {l : List (Bytes × α)}
    (hl : l.Pairwise fun a b => compare a.1 b.1 = .lt) :
    (l.filter fun e => compare e.1 p != .lt).takeWhile (fun e => p.isPrefixOf e.1) =
      l.filter fun e => p.isPrefixOf e.1 := by
  induction l with
  | nil => rfl
  | cons a l ih =>
      obtain ⟨ha, hl⟩ := List.pairwise_cons.1 hl
      by_cases hp : p <+: a.1
      · rw [List.filter_cons_of_pos (by simp [compare_ne_lt_of_isPrefix hp]),
          List.takeWhile_cons_of_pos (by simpa using hp),
          List.filter_cons_of_pos (by simpa using hp), ih hl]
      · have hskip : ((a :: l).filter fun e => p.isPrefixOf e.1) =
            l.filter fun e => p.isPrefixOf e.1 := List.filter_cons_of_neg (by simpa using hp)
        rw [hskip]
        by_cases hlt : compare a.1 p = .lt
        · rw [List.filter_cons_of_neg (by simp [hlt]), ih hl]
        · -- the entries behind `a` are behind all that begin with `p`
          have hnone : ∀ e ∈ l, ¬ p <+: e.1 := fun e he hpe =>
            Std.OrientedCmp.not_lt_of_lt (ha e he) (compare_lt_of_isPrefix hpe hlt hp)
          rw [List.filter_cons_of_pos (by simpa using hlt),
            List.takeWhile_cons_of_neg (by simpa using hp), eq_comm, List.filter_eq_nil_iff]
          exact fun e he => by simpa using hnone e he

end Rollup.Bytes
