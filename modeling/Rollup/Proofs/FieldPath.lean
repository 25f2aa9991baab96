import Rollup.FieldPath
import Rollup.Proofs.Except

/-!
# Field paths — a path writes the text that it was parsed from

Nothing is lost in parsing: the names and steps, joined by their separators again, are the text
(`text_of_parse`).  So a parsed path is found again from its own text (`parse_text`).
-/

namespace Rollup

theorem Text.splitAt_eq_splitOn {α : Type} [DecidableEq α] (sep : α) (l : List α) :
    splitAt sep l = l.splitOn sep := by
  induction l with
  | nil => rw [splitAt, List.splitOn_nil]
  | cons c l ih =>
      rw [splitAt, List.splitOn_cons_eq_if_modifyHead, ← ih]
      obtain ⟨part, parts, hparts⟩ := List.exists_cons_of_ne_nil (splitAt_ne_nil sep l)
      rw [hparts]
      simp only [beq_iff_eq, List.modifyHead_cons]

/-- Cutting at a separator can be undone. -/
theorem Text.intercalate_splitAt {α : Type} [DecidableEq α] (sep : α) (l : List α) :
    [sep].intercalate (splitAt sep l) = l := by
  rw [splitAt_eq_splitOn, List.intercalate_splitOn]

/-- Parts without the separator are found again between separators. -/
theorem Text.splitAt_intercalate {α : Type} [DecidableEq α] {sep : α} {parts : List (List α)}
    (hsep : ∀ part ∈ parts, sep ∉ part) (hne : parts ≠ []) :
    splitAt sep ([sep].intercalate parts) = parts := by
  rw [splitAt_eq_splitOn, List.splitOn_intercalate sep hsep hne]

/-- What stands in a part stands in the whole, and is no separator. -/
theorem Text.mem_of_mem_splitAt {α : Type} [DecidableEq α] {sep c : α} {l part : List α}
    (hpart : part ∈ splitAt sep l) (hc : c ∈ part) : c ∈ l ∧ c ≠ sep := by
  induction l generalizing part with
  | nil =>
      rw [splitAt, List.mem_singleton] at hpart
      rw [hpart] at hc
      cases hc
  | cons d l ih =>
      obtain ⟨first, parts, hparts⟩ := List.exists_cons_of_ne_nil (splitAt_ne_nil sep l)
      rw [splitAt, hparts] at hpart
      rw [hparts] at ih
      have hrest : ∀ {p}, p ∈ first :: parts → c ∈ p → c ∈ d :: l ∧ c ≠ sep := fun hp hcp =>
        ⟨List.mem_cons_of_mem _ (ih hp hcp).1, (ih hp hcp).2⟩
      split at hpart
      · rcases List.mem_cons.1 hpart with rfl | hpart
        · cases hc
        · exact hrest hpart hc
      · next hd =>
        rcases List.mem_cons.1 hpart with rfl | hpart
        · rcases List.mem_cons.1 hc with rfl | hc
          · exact ⟨List.mem_cons_self, hd⟩
          · exact hrest List.mem_cons_self hc
        · exact hrest (List.mem_cons_of_mem _ hpart) hc

/-- Every part but the first stands behind a separator. -/
theorem Text.intercalate_cons {α : Type} (sep : α) (part : List α) (parts : List (List α)) :
    [sep].intercalate (part :: parts) = part ++ parts.flatMap (sep :: ·) := by
  induction parts generalizing part with
  | nil => rw [List.intercalate_singleton, List.flatMap_nil, List.append_nil]
  | cons next parts ih =>
      rw [List.intercalate_cons_cons, ih, List.flatMap_cons, List.append_assoc]
      rfl

namespace FieldPath

/-- Names joined by dots. -/
def joined (names : List String) : List Char := ['.'].intercalate (names.map String.toList)

theorem joined_of_namesOf {part : List Char} {names : List String}
    (h : namesOf part = .ok names) : joined names = part := by
  rw [namesOf] at h
  split at h
  · cases h
  · cases h
    have hid : String.toList ∘ String.ofList = id := funext fun _ => String.toList_ofList
    rw [joined, List.map_map, hid, List.map_id, Text.intercalate_splitAt]

/-- The characters of steps. -/
def stepChars (steps : List FieldStep) : List Char :=
  steps.flatMap fun step => List.replicate (step.levels + 1) ',' ++ joined step.names

theorem stepsOf_cons_cons (levels : Nat) (c : Char) (part : List Char) (parts : List (List Char)) :
    stepsOf levels ((c :: part) :: parts) = do
      let names ← namesOf (c :: part)
      let steps ← stepsOf 0 parts
      return ⟨levels, names⟩ :: steps := by
  cases levels <;> rfl

theorem stepChars_of_stepsOf {levels : Nat} {parts : List (List Char)} {steps : List FieldStep}
    (h : stepsOf levels parts = .ok steps) :
    stepChars steps = List.replicate levels ',' ++ parts.flatMap (',' :: ·) := by
  induction parts generalizing levels steps with
  | nil =>
      cases levels with
      | zero => cases h; rfl
      | succ levels => cases h
  | cons part parts ih =>
      cases part with
      | nil =>
          rw [stepsOf] at h
          rw [ih h, List.replicate_succ', List.append_assoc]
          rfl
      | cons c part =>
          rw [stepsOf_cons_cons, bind_eq_ok_iff] at h
          obtain ⟨names, hnames, h⟩ := h
          obtain ⟨later, hlater, h⟩ := bind_eq_ok_iff.1 h
          cases h
          have hrest := ih hlater
          rw [List.replicate_zero, List.nil_append] at hrest
          show List.replicate (levels + 1) ',' ++ joined names ++ stepChars later = _
          rw [joined_of_namesOf hnames, hrest, List.replicate_succ']
          simp

theorem toList_text (path : FieldPath) :
    path.text.toList = joined path.head ++ stepChars path.steps := by
  rw [text, String.toList_append, String.toList_intercalate, String.toList_join,
    List.flatMap_map]
  refine congrArg (joined path.head ++ ·) ?_
  refine List.flatMap_congr fun step _ => ?_
  rw [stepText, String.toList_append, String.toList_ofList, String.toList_intercalate]
  rfl

/-- **Parsing loses nothing.** -/
theorem text_of_parse {text : String} {path : FieldPath} (h : parse text = .ok path) :
    path.text = text := by
  have hjoin := Text.intercalate_splitAt ',' text.toList
  rw [parse, mapError_eq_ok_iff, ofChars] at h
  split at h
  · cases h
  · cases h
  · next first parts hparts =>
    obtain ⟨head, hhead, h⟩ := bind_eq_ok_iff.1 h
    obtain ⟨steps, hsteps, h⟩ := bind_eq_ok_iff.1 h
    cases h
    have hstep := stepChars_of_stepsOf hsteps
    rw [List.replicate_zero, List.nil_append] at hstep
    refine String.toList_inj.1 ?_
    rw [toList_text, joined_of_namesOf hhead, hstep, ← hjoin, hparts]
    exact (Text.intercalate_cons _ _ _).symm

/-- A parsed path is found again from its text. -/
theorem parse_text {text : String} {path : FieldPath} (h : parse text = .ok path) :
    parse path.text = .ok path := by rw [text_of_parse h, h]

end FieldPath

end Rollup
