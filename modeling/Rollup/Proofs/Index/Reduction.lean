import Mathlib.Algebra.Ring.Int.Defs
import Rollup.Index.Reduction
import Rollup.Proofs.Except

/-!
# Reduction — when a group can be reduced

A total is added up from the left, and every sum on the way has to fit 64 bits
(`sumExact?_eq_some_iff`, `hasTotal_iff`).  A group can be reduced just when all its totals
fit (`reduce_isOk_iff`), and the only error is that one of them does not (`reduce_eq_error`).
-/

namespace Rollup.Reduction

/-! ### Totals -/

/-- The integer fits 64 bits. -/
def InRange (n : Int) : Prop := Int64.minValue.toInt ≤ n ∧ n ≤ Int64.maxValue.toInt

/-- Every sum from the left fits, with this one in front. -/
def FitsFrom (first : Int) (ns : List Int64) : Prop :=
  ∀ p, p <+: ns → InRange (first + (p.map Int64.toInt).sum)

/-- Every sum from the left fits. -/
def Fits (ns : List Int64) : Prop := FitsFrom 0 ns

theorem inRange_toInt (n : Int64) : InRange n.toInt := ⟨n.minValue_le_toInt, n.toInt_le⟩

theorem toInt_ofInt {n : Int} (h : InRange n) : (Int64.ofInt n).toInt = n :=
  Int64.toInt_ofInt_of_le h.1 (Int.lt_of_le_of_lt h.2 (by decide))

theorem fitsFrom_cons {first : Int} {n : Int64} {ns : List Int64} :
    FitsFrom first (n :: ns) ↔ InRange first ∧ FitsFrom (first + n.toInt) ns := by
  simp only [FitsFrom, List.prefix_cons_iff]
  constructor
  · refine fun h => ⟨by simpa using h [] (.inl rfl), fun p hp => ?_⟩
    have := h (n :: p) (.inr ⟨p, rfl, hp⟩)
    rwa [List.map_cons, List.sum_cons, ← Int.add_assoc] at this
  · rintro ⟨hfirst, hrest⟩ p (rfl | ⟨p, rfl, hp⟩)
    · simpa using hfirst
    · rw [List.map_cons, List.sum_cons, ← Int.add_assoc]
      exact hrest p hp

theorem addExact?_eq_some_iff {a b n : Int64} :
    Value.addExact? a b = some n ↔ n.toInt = a.toInt + b.toInt := Value.int64?_eq_some_iff

theorem foldlM_addExact?_eq_some_iff {first n : Int64} {ns : List Int64} :
    ns.foldlM Value.addExact? first = some n ↔
      FitsFrom first.toInt ns ∧ n.toInt = first.toInt + (ns.map Int64.toInt).sum := by
  induction ns generalizing first with
  | nil =>
      have hfirst : FitsFrom first.toInt [] := fun p hp => by
        rw [List.prefix_nil.1 hp]
        simpa using inRange_toInt first
      rw [and_iff_right hfirst, List.foldlM_nil]
      show some first = some n ↔ n.toInt = first.toInt + 0
      rw [Option.some_inj, Int.add_zero, Int64.toInt_inj]
      exact eq_comm
  | cons m ns ih =>
      rw [List.foldlM_cons, fitsFrom_cons, and_iff_right (inRange_toInt first)]
      cases hsum : Value.addExact? first m with
      | none =>
          -- the sum that does not fit is the first one behind
          refine iff_of_false (by simp) fun ⟨hfits, _⟩ => ?_
          have hin : InRange (first.toInt + m.toInt) := by simpa using hfits [] List.nil_prefix
          rw [addExact?_eq_some_iff.2 (toInt_ofInt hin)] at hsum
          cases hsum
      | some total =>
          have htotal := addExact?_eq_some_iff.1 hsum
          show ns.foldlM Value.addExact? total = some n ↔ _
          rw [ih, htotal, List.map_cons, List.sum_cons, Int.add_assoc]

/-- **A sum** is there just when every sum on the way fits, and then it is exact. -/
theorem sumExact?_eq_some_iff {ns : List Int64} {n : Int64} :
    sumExact? ns = some n ↔ Fits ns ∧ n.toInt = (ns.map Int64.toInt).sum := by
  have h := @foldlM_addExact?_eq_some_iff 0 n ns
  rwa [Int64.toInt_zero, Int.zero_add] at h

theorem foldlM_contribution? (values : List Value) (first : Int64) :
    values.foldlM (fun total v => do Value.addExact? total (← contribution? v)) first =
      (values.mapM contribution?).bind fun ns => ns.foldlM Value.addExact? first := by
  induction values generalizing first with
  | nil => rfl
  | cons v values ih =>
      rw [List.foldlM_cons, List.mapM_cons]
      cases contribution? v with
      | none => rfl
      | some m =>
          show (Value.addExact? first m >>= fun total => values.foldlM _ total) = _
          simp only [ih]
          cases values.mapM contribution? with
          | none => cases Value.addExact? first m <;> rfl
          | some ns => rfl

/-- **A total** is the sum of what the values contribute, if there is one. -/
theorem total?_eq (values : List Value) :
    total? values = (values.mapM contribution?).bind sumExact? := foldlM_contribution? values 0

/-- What the values contribute can be added up. -/
def HasTotal (values : List Value) : Prop :=
  ∃ ns, values.mapM contribution? = some ns ∧ Fits ns

theorem hasTotal_iff {values : List Value} : HasTotal values ↔ ∃ n, total? values = some n := by
  simp only [HasTotal, total?_eq, Option.bind_eq_some_iff, sumExact?_eq_some_iff]
  constructor
  · rintro ⟨ns, hns, hfits⟩
    have hin : InRange (0 + (ns.map Int64.toInt).sum) := hfits ns List.prefix_rfl
    rw [Int.zero_add] at hin
    exact ⟨Int64.ofInt (ns.map Int64.toInt).sum, ns, hns, hfits, toInt_ofInt hin⟩
  · rintro ⟨n, ns, hns, hfits, -⟩
    exact ⟨ns, hns, hfits⟩

/-! ### Groups -/

/-- Every total of a group fits. -/
def Sums (d : Definition) (blobs : List Value) : Prop :=
  ∀ field ∈ d.fields, field.aggregate ≠ .first → HasTotal (blobs.filterMap (·.field? field.name))

theorem sums_nil (d : Definition) : Sums d [] := fun _ _ _ =>
  ⟨[], rfl, fun p hp => by rw [List.prefix_nil.1 hp]; exact inRange_toInt 0⟩

theorem reduceField_isOk_iff {field : IndexField} {blobs : List Value} :
    (∃ v, reduceField field blobs = .ok v) ↔
      (field.aggregate ≠ .first → HasTotal (blobs.filterMap (·.field? field.name))) := by
  rw [reduceField]
  cases field.aggregate with
  | first => exact iff_of_true ⟨_, rfl⟩ fun h => absurd rfl h
  | count | sum =>
      simp only [ne_eq, reduceCtorEq, not_false_eq_true, forall_const, hasTotal_iff]
      cases total? (blobs.filterMap (·.field? field.name)) with
      | none => simp
      | some n => simp

theorem reduceField_eq_error {field : IndexField} {blobs : List Value} {e : IndexError}
    (h : reduceField field blobs = .error e) :
    field.aggregate ≠ .first ∧ e = .overflow field.name := by
  rw [reduceField] at h
  cases hop : field.aggregate with
  | first =>
      rw [hop] at h
      cases h
  | count | sum =>
      rw [hop] at h
      refine ⟨by simp, ?_⟩
      dsimp only at h
      split at h <;> cases h
      rfl

/-- **A group can be reduced** just when every total fits. -/
theorem reduce_isOk_iff {d : Definition} {key : Option Value} {blobs : List Value} :
    (∃ output, reduce d key blobs = .ok output) ↔ Sums d blobs := by
  rw [reduce]
  split
  · next hempty =>
    rw [List.isEmpty_iff.1 hempty]
    exact iff_of_true ⟨none, rfl⟩ (sums_nil d)
  · have hall := @mapM_isOk_iff _ _ _
      (fun field => do return (field.name, ← reduceField field blobs)) d.fields
    simp only [return_pair_isOk_iff, reduceField_isOk_iff] at hall
    rw [Sums, ← hall]
    simp only [bind_eq_ok_iff]
    exact ⟨fun ⟨_, fields, h, _⟩ => ⟨fields, h⟩, fun ⟨fields, h⟩ => ⟨_, fields, h, rfl⟩⟩

/-- A group fails with one of its fields. -/
theorem exists_of_reduce_eq_error {d : Definition} {key : Option Value} {blobs : List Value}
    {e : IndexError} (h : reduce d key blobs = .error e) :
    ∃ field ∈ d.fields, reduceField field blobs = .error e := by
  rw [reduce] at h
  split at h
  · cases h
  · cases hfields : d.fields.mapM fun field => do
        return (field.name, ← reduceField field blobs) with
    | ok fields =>
        rw [hfields] at h
        cases h
    | error e' =>
        rw [hfields] at h
        cases h
        obtain ⟨field, hmem, hfield⟩ := exists_of_mapM_eq_error hfields
        exact ⟨field, hmem, return_pair_eq_error_iff.1 hfield⟩

/-- The only error is that a total does not fit. -/
theorem reduce_eq_error {d : Definition} {key : Option Value} {blobs : List Value} {e : IndexError}
    (h : reduce d key blobs = .error e) :
    ∃ field ∈ d.fields, field.aggregate ≠ .first ∧ e = .overflow field.name := by
  obtain ⟨field, hmem, hfield⟩ := exists_of_reduce_eq_error h
  exact ⟨field, hmem, reduceField_eq_error hfield⟩

end Rollup.Reduction
