import Rollup.FieldPath.Read
import Mathlib.Data.List.Basic
import Mathlib.Logic.Function.Iterate

/-!
# Reading a path level by level

A path is read depth first: an element is followed to its ends before the next one is looked at.
Going through the document level by level instead, with a list of the values that are current,
finds the same values in the same order (`expand_eq_sweepAll`).  So a path can be cut between two
of its steps, and its end be read from what its beginning found (`expand_append`).
-/

namespace Rollup

/-- The values that were found, in order. -/
def Found.values : Found → List Value
  | .one v => [v]
  | .many vs => vs

namespace FieldPath

/-! ### Level by level -/

/-- The elements of the arrays among some values; the other values are left out. -/
def elements (vs : List Value) : List Value := (vs.filterMap Value.asArray).flatten

/-- The value under a chain of names, each of them a field of a map. -/
def follow (v : Value) (names : List String) : Option Value := names.foldlM Value.field? v

/-- A step: once for each level the elements of the current values, and then what is found under
the names. -/
def sweep (step : FieldStep) (vs : List Value) : List Value :=
  (elements^[step.levels] vs).filterMap (follow · step.names)

/-- Steps in order.  Behind each but the last, the elements of what was found become current. -/
def sweepAll : List FieldStep → List Value → List Value
  | [], vs => vs
  | [step], vs => sweep step vs
  | step :: next :: steps, vs => sweepAll (next :: steps) (elements (sweep step vs))

/-- What the path finds in a document, level by level. -/
def readByLevels (path : FieldPath) (document : Value) : Option Found := do
  let v ← follow document path.head
  if path.steps = [] then return .one v
  let items ← v.asArray
  return .many (sweepAll path.steps items)

/-- What steps find in what was found before. -/
def resume (steps : List FieldStep) : Found → Option Found
  | .one v => read ⟨[], steps⟩ v
  | .many vs =>
    some (.many (vs.flatMap fun v => ((read ⟨[], steps⟩ v).map Found.values).getD []))

/-! ### Names and levels -/

theorem descend_eq_follow (v : Value) (names : List String) : descend v names = follow v names := by
  induction names generalizing v with
  | nil => rfl
  | cons name names ih =>
      rw [descend, follow, List.foldlM_cons]
      exact bind_congr fun w => ih w

theorem elements_eq_flatMap (vs : List Value) :
    elements vs = vs.flatMap fun v => v.asArray.getD [] := by
  induction vs with
  | nil => rfl
  | cons v vs ih =>
      rw [List.flatMap_cons, ← ih, elements, elements, List.filterMap_cons]
      cases v.asArray <;> rfl

theorem flatten_succ (levels : Nat) (v : Value) :
    flatten (levels + 1) v = (v.asArray.getD []).flatMap (flatten levels) := by
  cases v <;> rfl

theorem flatMap_flatten (levels : Nat) (vs : List Value) :
    vs.flatMap (flatten levels) = elements^[levels] vs := by
  induction levels generalizing vs with
  | zero => exact List.flatMap_singleton' vs
  | succ levels ih =>
      rw [Function.iterate_succ_apply, ← ih, elements_eq_flatMap, List.flatMap_assoc]
      exact List.flatMap_congr fun v _ => flatten_succ levels v

/-! ### Steps -/

theorem expand_nil (steps : List FieldStep) : expand steps [] = [] := by
  cases steps with
  | nil => rfl
  | cons step steps => cases steps <;> rfl

theorem expand_singleton (step : FieldStep) (items : List Value) :
    expand [step] items = sweep step items := by
  simp only [expand, List.isEmpty_nil, if_true, sweep, flatMap_flatten, descend_eq_follow]

theorem expand_cons_cons (step next : FieldStep) (steps : List FieldStep) (items : List Value) :
    expand (step :: next :: steps) items = (sweep step items).flatMap fun v =>
      (v.asArray.map (expand (next :: steps))).getD [] := by
  rw [← expand_singleton]
  rfl

/-- Steps look at one item after the other. -/
theorem expand_flatMap {α : Type} (steps : List FieldStep) (l : List α) (items : α → List Value) :
    expand steps (l.flatMap items) = l.flatMap fun a => expand steps (items a) := by
  have hstep : ∀ step : FieldStep, expand [step] (l.flatMap items) =
      l.flatMap fun a => expand [step] (items a) := fun step => by
    simp only [expand, List.isEmpty_nil, if_true, List.flatMap_assoc, List.filterMap_flatMap]
  cases steps with
  | nil => rfl
  | cons step steps =>
      cases steps with
      | nil => exact hstep step
      | cons next steps =>
          simp only [expand_cons_cons, ← expand_singleton, hstep, List.flatMap_assoc]

/-- The elements of what was found, each array by itself or all together. -/
theorem expand_elements (steps : List FieldStep) (vs : List Value) :
    expand steps (elements vs) = vs.flatMap fun v => (v.asArray.map (expand steps)).getD [] := by
  rw [elements_eq_flatMap, expand_flatMap]
  refine List.flatMap_congr fun v _ => ?_
  cases v.asArray with
  | none => exact expand_nil steps
  | some items => rfl

/-- **Depth first and level by level** the steps find the same. -/
theorem expand_eq_sweepAll (steps : List FieldStep) (items : List Value) :
    expand steps items = sweepAll steps items := by
  fun_induction sweepAll steps items with
  | case1 items => rfl
  | case2 step items => exact expand_singleton step items
  | case3 step next steps items ih => rw [expand_cons_cons, ← expand_elements, ih]

/-- **Steps joined** find in each array that the first ones found what the later ones find there. -/
theorem expand_append (steps : List FieldStep) {later : List FieldStep} (hsteps : steps ≠ [])
    (hlater : later ≠ []) (items : List Value) :
    expand (steps ++ later) items = (expand steps items).flatMap fun v =>
      (v.asArray.map (expand later)).getD [] := by
  obtain ⟨first, others, rfl⟩ := List.exists_cons_of_ne_nil hlater
  rw [expand_eq_sweepAll, expand_eq_sweepAll, ← expand_elements, expand_eq_sweepAll]
  fun_induction sweepAll steps items with
  | case1 items => exact absurd rfl hsteps
  | case2 step items => rfl
  | case3 step next steps items ih => exact ih (List.cons_ne_nil _ _)

/-! ### Paths -/

theorem read_eq (path : FieldPath) (document : Value) :
    path.read document = (follow document path.head).bind fun v => read ⟨[], path.steps⟩ v := by
  rw [← descend_eq_follow]
  rfl

/-- What the steps of a path find in one value. -/
theorem read_steps {steps : List FieldStep} (h : steps ≠ []) (v : Value) :
    read ⟨[], steps⟩ v = v.asArray.map fun items => .many (expand steps items) := by
  have hsteps : steps.isEmpty = false := by simpa using h
  have hread : read ⟨[], steps⟩ v = if steps.isEmpty then some (.one v)
      else v.asArray.bind fun items => some (.many (expand steps items)) := rfl
  rw [hread, hsteps, if_neg Bool.false_ne_true]
  exact Option.map_eq_bind.symm

/-- Reading goes on where it stopped. -/
theorem read_append (steps later : List FieldStep) (v : Value) :
    read ⟨[], steps ++ later⟩ v = (read ⟨[], steps⟩ v).bind (resume later) := by
  cases steps with
  | nil => rfl
  | cons step steps =>
      have hne : step :: steps ≠ [] := List.cons_ne_nil _ _
      rw [read_steps hne, read_steps (List.append_ne_nil_of_left_ne_nil hne later)]
      cases v.asArray with
      | none => rfl
      | some items =>
          show some (Found.many (expand (step :: steps ++ later) items)) =
            some (.many ((expand (step :: steps) items).flatMap fun v =>
              ((read ⟨[], later⟩ v).map Found.values).getD []))
          cases later with
          | nil =>
              rw [List.append_nil]
              exact congrArg (some ∘ Found.many) (List.flatMap_singleton' _).symm
          | cons next later =>
              rw [expand_append _ hne (List.cons_ne_nil _ _)]
              refine congrArg (some ∘ Found.many) (List.flatMap_congr fun v _ => ?_)
              rw [read_steps (List.cons_ne_nil _ _)]
              cases v.asArray <;> rfl

/-- **A path finds what is found level by level.**  So one whose steps were joined finds what the
later steps find in what the first ones found. -/
theorem read_level_by_level (path : FieldPath) (document : Value) :
    path.read document = path.readByLevels document ∧
      ∀ later : List FieldStep, read { path with steps := path.steps ++ later } document =
        (path.read document).bind (resume later) := by
  constructor
  · rw [read_eq, readByLevels]
    refine congrArg _ (funext fun v => ?_)
    by_cases h : path.steps = []
    · rw [h, if_pos rfl]
      rfl
    · rw [read_steps h, if_neg h]
      simp only [expand_eq_sweepAll]
      exact Option.map_eq_bind
  · intro later
    rw [read_eq, read_eq path, Option.bind_assoc]
    exact congrArg _ (funext fun v => read_append path.steps later v)

end FieldPath

end Rollup
