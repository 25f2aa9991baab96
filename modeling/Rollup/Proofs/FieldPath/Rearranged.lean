import Rollup.Proofs.FieldPath.Levels
import Rollup.Proofs.Value.Rearranged

/-!
# Reading a path does not depend on the order of pairs

A path looks into a document in two ways, by a field and at the elements of an array.  Whatever
relation of values both respect (`Congruent`), reading a path respects (`Congruent.read`).

Values that are rearranged are related so, and so are a value and the same value in canonical
order.  So what a path finds in rearranged documents is rearranged (`rearranged_readOrNull`), and
reading commutes with putting maps into canonical order (`read_inOrder`).
-/

namespace Rollup

/-- Looking into related values, one finds related values or nothing in both. -/
structure Value.Congruent (R : Value → Value → Prop) : Prop where
  field? : ∀ {v w : Value}, R v w → ∀ name, Option.Rel R (v.field? name) (w.field? name)
  asArray : ∀ {v w : Value}, R v w → Option.Rel (List.Forall₂ R) v.asArray w.asArray

theorem Value.congruent_rearranged : Congruent Rearranged := ⟨Rearranged.field?, Rearranged.asArray⟩

/-- The graph of a function that goes through the fields and the elements. -/
theorem Value.congruent_inOrder : Congruent fun v w => v.inOrder = w where
  field? := by
    rintro v _ rfl name
    rw [field?_inOrder]
    cases v.field? name with
    | none => exact .none
    | some field => exact .some rfl
  asArray := by
    rintro v _ rfl
    rw [asArray_inOrder]
    cases v.asArray with
    | none => exact .none
    | some items => exact .some (List.forall₂_map_right_iff.2 (List.forall₂_same.2 fun _ _ => rfl))

/-- What was found in one document and in another: values that are related one by one. -/
inductive Found.Alike (R : Value → Value → Prop) : Found → Found → Prop where
  | one {v w : Value} (h : R v w) : Alike R (.one v) (.one w)
  | many {vs ws : List Value} (h : List.Forall₂ R vs ws) : Alike R (.many vs) (.many ws)

/-- What was found, in canonical order. -/
def Found.inOrder : Found → Found
  | .one v => .one v.inOrder
  | .many vs => .many (vs.map Value.inOrder)

namespace Value.Congruent

open FieldPath

variable {R : Value → Value → Prop} {v w : Value} {items items' : List Value}

theorem descend (hR : Congruent R) (names : List String) (h : R v w) :
    Option.Rel R (FieldPath.descend v names) (FieldPath.descend w names) := by
  induction names generalizing v w with
  | nil => exact .some h
  | cons name names ih =>
      have hfield := hR.field? h name
      rw [FieldPath.descend, FieldPath.descend]
      generalize v.field? name = field, w.field? name = field' at hfield
      cases hfield with
      | none => exact .none
      | some hfield => exact ih hfield

theorem flatten (hR : Congruent R) (levels : Nat) (h : R v w) :
    List.Forall₂ R (FieldPath.flatten levels v) (FieldPath.flatten levels w) := by
  induction levels generalizing v w with
  | zero => exact .cons h .nil
  | succ levels ih =>
      have hitems := hR.asArray h
      rw [flatten_succ, flatten_succ]
      generalize v.asArray = items, w.asArray = items' at hitems
      cases hitems with
      | none => exact .nil
      | some hitems => exact List.rel_flatMap hitems fun _ _ hitem => ih hitem

theorem expand (hR : Congruent R) (steps : List FieldStep) (h : List.Forall₂ R items items') :
    List.Forall₂ R (FieldPath.expand steps items) (FieldPath.expand steps items') := by
  induction steps generalizing items items' with
  | nil => exact h
  | cons step steps ih =>
      have hfound := List.rel_filterMap (fun _ _ hv => hR.descend step.names hv)
        (List.rel_flatMap h fun _ _ hitem => hR.flatten step.levels hitem)
      rw [FieldPath.expand, FieldPath.expand]
      split
      · exact hfound
      · refine List.rel_flatMap hfound fun v w hv => ?_
        have hitems := hR.asArray hv
        generalize v.asArray = items, w.asArray = items' at hitems
        cases hitems with
        | none => exact .nil
        | some hitems => exact ih hitems

/-- **Related documents** give a path related values, or nothing. -/
theorem read (hR : Congruent R) (path : FieldPath) (h : R v w) :
    Option.Rel (Found.Alike R) (path.read v) (path.read w) := by
  have hhead := hR.descend path.head h
  rw [read_eq, read_eq, ← descend_eq_follow, ← descend_eq_follow]
  generalize FieldPath.descend v path.head = found, FieldPath.descend w path.head = found' at hhead
  cases hhead with
  | none => exact .none
  | @some v w hhead =>
      rw [Option.bind_some, Option.bind_some]
      by_cases hsteps : path.steps = []
      · rw [hsteps]
        exact .some (.one hhead)
      · have hitems := hR.asArray hhead
        rw [read_steps hsteps, read_steps hsteps]
        generalize v.asArray = items, w.asArray = items' at hitems
        cases hitems with
        | none => exact .none
        | some hitems => exact .some (.many (hR.expand path.steps hitems))

end Value.Congruent

namespace FieldPath

/-- **Reading a path** and putting maps into canonical order can be done in either order. -/
theorem read_inOrder (path : FieldPath) (document : Value) :
    path.read document.inOrder = (path.read document).map Found.inOrder := by
  have hread := Value.congruent_inOrder.read path (v := document) rfl
  generalize path.read document = found, path.read document.inOrder = found' at hread
  cases hread with
  | none => rfl
  | some h =>
      cases h with
      | one h => exact congrArg (some ∘ Found.one) h.symm
      | many h =>
          rw [← List.forall₂_map_left_iff, List.forall₂_eq_eq_eq] at h
          exact congrArg (some ∘ Found.many) h.symm

/-- In rearranged documents a path finds rearranged values. -/
theorem rearranged_readOrNull (path : FieldPath) {document document' : Value}
    (h : document.Rearranged document') :
    (path.readOrNull document).Rearranged (path.readOrNull document') := by
  have hread := Value.congruent_rearranged.read path h
  rw [readOrNull, readOrNull]
  generalize path.read document = found, path.read document' = found' at hread
  cases hread with
  | none => exact .refl _
  | some h =>
      cases h with
      | one h => exact h
      | many h => exact .array (Value.rearrangedItems_iff.2 h)

end FieldPath

end Rollup
