import Rollup.Proofs.FieldPath

/-!
# Grammar — what is accepted as a path

`Names`, `Steps` and `Grammar` say how a path is written, by joining and without any splitting.
The parser splits at commas first and at dots then, and counts the empty parts between commas on
its way; it accepts what the grammar derives, and answers the path of the derivation
(`parse_iff_grammar`).  Paths of proper names (`Proper`) are the paths with a derivation, and each
has one text.
-/

namespace Rollup.FieldPath

/-! ### The grammar -/

/-- A name: it is not empty, and no separator stands in it. -/
def IsName (name : String) : Prop := name ≠ "" ∧ '.' ∉ name.toList ∧ ',' ∉ name.toList

/-- Names joined by dots. -/
inductive Names : List String → List Char → Prop
  | one {name : String} : IsName name → Names [name] name.toList
  | more {name : String} {names : List String} {rest : List Char} :
      IsName name → Names names rest → Names (name :: names) (name.toList ++ '.' :: rest)

/-- Steps behind one another, each behind a comma and one comma more for each of its levels. -/
inductive Steps : List FieldStep → List Char → Prop
  | done : Steps [] []
  | step {levels : Nat} {names : List String} {steps : List FieldStep} {front rest : List Char} :
      Names names front → Steps steps rest →
      Steps (⟨levels, names⟩ :: steps) (List.replicate (levels + 1) ',' ++ front ++ rest)

/-- **The grammar**: a head, and the steps behind it. -/
inductive Grammar : FieldPath → List Char → Prop
  | path {head : List String} {steps : List FieldStep} {front rest : List Char} :
      Names head front → Steps steps rest → Grammar ⟨head, steps⟩ (front ++ rest)

/-! ### Proper paths -/

/-- Names to descend by. -/
structure Descent (names : List String) : Prop where
  some : names ≠ []
  proper : ∀ name ∈ names, IsName name

/-- A path that can be written. -/
structure Proper (path : FieldPath) : Prop where
  head : Descent path.head
  steps : ∀ step ∈ path.steps, Descent step.names

theorem Descent.cons {name : String} {names : List String} (hname : IsName name)
    (h : Descent names) : Descent (name :: names) :=
  ⟨List.cons_ne_nil _ _, List.forall_mem_cons.2 ⟨hname, h.proper⟩⟩

theorem joined_singleton (name : String) : joined [name] = name.toList :=
  List.intercalate_singleton

theorem joined_cons_cons (name next : String) (names : List String) :
    joined (name :: next :: names) = name.toList ++ '.' :: joined (next :: names) := by
  rw [joined, List.map_cons, List.map_cons, List.intercalate_cons_cons, List.append_assoc]
  rfl

theorem Descent.names {names : List String} (h : Descent names) : Names names (joined names) := by
  induction names with
  | nil => exact absurd rfl h.some
  | cons name names ih =>
      obtain ⟨hname, hnames⟩ := List.forall_mem_cons.1 h.proper
      cases names with
      | nil =>
          rw [joined_singleton]
          exact .one hname
      | cons next names =>
          rw [joined_cons_cons]
          exact .more hname (ih ⟨List.cons_ne_nil _ _, hnames⟩)

theorem names_iff {names : List String} {chars : List Char} :
    Names names chars ↔ Descent names ∧ joined names = chars := by
  refine ⟨fun h => ?_, fun ⟨h, hchars⟩ => hchars ▸ h.names⟩
  induction h with
  | one hname =>
      exact ⟨⟨List.cons_ne_nil _ _, List.forall_mem_singleton.2 hname⟩, joined_singleton _⟩
  | @more name names rest hname _ ih =>
      obtain ⟨hnames, rfl⟩ := ih
      obtain ⟨next, names, rfl⟩ := List.exists_cons_of_ne_nil hnames.some
      exact ⟨hnames.cons hname, joined_cons_cons _ _ _⟩

theorem steps_iff {steps : List FieldStep} {chars : List Char} :
    Steps steps chars ↔ (∀ step ∈ steps, Descent step.names) ∧ stepChars steps = chars := by
  constructor
  · intro h
    induction h with
    | done => exact ⟨by simp, rfl⟩
    | step hnames _ ih =>
        obtain ⟨hdescent, rfl⟩ := names_iff.1 hnames
        obtain ⟨hsteps, rfl⟩ := ih
        exact ⟨List.forall_mem_cons.2 ⟨hdescent, hsteps⟩, rfl⟩
  · rintro ⟨hsteps, rfl⟩
    induction steps with
    | nil => exact .done
    | cons step steps ih =>
        obtain ⟨hstep, hsteps⟩ := List.forall_mem_cons.1 hsteps
        exact .step hstep.names (ih hsteps)

/-- The paths with a derivation are the proper ones, and what is derived is their text. -/
theorem grammar_iff {path : FieldPath} {text : String} :
    Grammar path text.toList ↔ path.Proper ∧ path.text = text := by
  rw [← String.toList_inj, toList_text]
  constructor
  · intro h
    generalize text.toList = chars at h
    cases h with
    | path hhead hsteps =>
        obtain ⟨hdescent, rfl⟩ := names_iff.1 hhead
        obtain ⟨hdescents, rfl⟩ := steps_iff.1 hsteps
        exact ⟨⟨hdescent, hdescents⟩, rfl⟩
  · rintro ⟨hproper, htext⟩
    rw [← htext]
    exact .path hproper.head.names (steps_iff.2 ⟨hproper.steps, rfl⟩)

/-! ### From a path to its parts -/

/-- The first name is not empty, so neither are the names joined. -/
theorem Descent.joined_ne_nil {names : List String} (h : Descent names) : joined names ≠ [] := by
  obtain ⟨name, names, rfl⟩ := List.exists_cons_of_ne_nil h.some
  have hname : name.toList ≠ [] := fun hnil =>
    (h.proper name List.mem_cons_self).1 (String.toList_eq_nil_iff.1 hnil)
  rw [joined, List.map_cons, Text.intercalate_cons]
  exact List.append_ne_nil_of_left_ne_nil hname _

theorem Descent.comma_notMem {names : List String} (h : Descent names) : ',' ∉ joined names := by
  have hnames := h.names
  generalize joined names = chars at hnames
  induction hnames with
  | one hname => exact hname.2.2
  | more hname hrest ih =>
      rw [List.mem_append, List.mem_cons]
      rintro (hmem | hdot | hmem)
      · exact hname.2.2 hmem
      · exact absurd hdot (by decide)
      · exact ih (names_iff.1 hrest).1 hmem

/-- **The names** of a descent are read off their text. -/
theorem Descent.namesOf_joined {names : List String} (h : Descent names) :
    namesOf (joined names) = .ok names := by
  have hsplit : Text.splitAt '.' (joined names) = names.map String.toList := by
    refine Text.splitAt_intercalate (List.forall_mem_map.2 fun name hname => ?_) ?_
    · exact (h.proper name hname).2.1
    · exact fun hnil => h.some (List.map_eq_nil_iff.1 hnil)
  have hfull : (names.map String.toList).any List.isEmpty = false := by
    rw [List.any_eq_false]
    refine List.forall_mem_map.2 fun name hname hempty => ?_
    rw [List.isEmpty_iff, String.toList_eq_nil_iff] at hempty
    exact (h.proper name hname).1 hempty
  have hid : String.ofList ∘ String.toList = id := funext fun _ => String.ofList_toList
  rw [namesOf, hsplit, hfull, List.map_map, hid, List.map_id]
  rfl

/-- The parts of steps between commas: an empty one for each level, then the names. -/
def stepParts (steps : List FieldStep) : List (List Char) :=
  steps.flatMap fun step => List.replicate step.levels [] ++ [joined step.names]

theorem flatMap_stepParts (steps : List FieldStep) :
    (stepParts steps).flatMap (',' :: ·) = stepChars steps := by
  have hcommas : ∀ n, (List.replicate n ([] : List Char)).flatMap (',' :: ·) =
      List.replicate n ',' := by
    intro n
    induction n with
    | zero => rfl
    | succ n ih =>
        rw [List.replicate_succ, List.flatMap_cons, ih]
        rfl
  rw [stepParts, stepChars, List.flatMap_assoc]
  refine List.flatMap_congr fun step _ => ?_
  rw [List.flatMap_append, hcommas, List.flatMap_singleton, List.replicate_succ',
    List.append_assoc]
  rfl

theorem stepsOf_replicate (levels n : Nat) (parts : List (List Char)) :
    stepsOf levels (List.replicate n [] ++ parts) = stepsOf (levels + n) parts := by
  induction n generalizing levels with
  | zero => rfl
  | succ n ih =>
      rw [List.replicate_succ, List.cons_append, stepsOf, ih, Nat.add_right_comm, Nat.add_assoc]

/-- **The steps** are read off their parts. -/
theorem stepsOf_stepParts {steps : List FieldStep} (h : ∀ step ∈ steps, Descent step.names) :
    stepsOf 0 (stepParts steps) = .ok steps := by
  induction steps with
  | nil => rfl
  | cons step steps ih =>
      obtain ⟨hstep, hsteps⟩ := List.forall_mem_cons.1 h
      obtain ⟨c, part, hpart⟩ := List.exists_cons_of_ne_nil hstep.joined_ne_nil
      have hnames := hstep.namesOf_joined
      rw [hpart] at hnames
      rw [stepParts, List.flatMap_cons, List.append_assoc, stepsOf_replicate, hpart,
        List.singleton_append, stepsOf_cons_cons, hnames, ← stepParts, ih hsteps, Nat.zero_add]
      rfl

theorem ofChars_of_proper {path : FieldPath} (h : path.Proper) :
    ofChars path.text.toList = .ok path := by
  have hparts : Text.splitAt ',' path.text.toList = joined path.head :: stepParts path.steps := by
    rw [toList_text, ← flatMap_stepParts, ← Text.intercalate_cons]
    refine Text.splitAt_intercalate (List.forall_mem_cons.2 ⟨h.head.comma_notMem, ?_⟩) (by simp)
    intro part hpart
    obtain ⟨step, hstep, hpart⟩ := List.mem_flatMap.1 hpart
    rcases List.mem_append.1 hpart with hempty | hnames
    · rw [List.eq_of_mem_replicate hempty]
      exact List.not_mem_nil
    · rw [List.mem_singleton.1 hnames]
      exact (h.steps step hstep).comma_notMem
  obtain ⟨c, part, hhead⟩ := List.exists_cons_of_ne_nil h.head.joined_ne_nil
  have hnames := h.head.namesOf_joined
  rw [hhead] at hnames hparts
  rw [ofChars, hparts]
  simp only [hnames, stepsOf_stepParts h.steps]
  rfl

/-! ### From a text to a proper path -/

theorem descent_of_namesOf {part : List Char} {names : List String} (hcomma : ',' ∉ part)
    (h : namesOf part = .ok names) : Descent names := by
  rw [namesOf] at h
  split at h
  · cases h
  · next hfull =>
    cases h
    refine ⟨fun hnil => Text.splitAt_ne_nil _ _ (List.map_eq_nil_iff.1 hnil), ?_⟩
    refine List.forall_mem_map.2 fun chars hchars => ⟨?_, ?_, ?_⟩
    · intro hempty
      rw [← String.toList_eq_nil_iff, String.toList_ofList, ← List.isEmpty_iff] at hempty
      exact hfull (List.any_eq_true.2 ⟨chars, hchars, hempty⟩)
    · rw [String.toList_ofList]
      exact fun hdot => (Text.mem_of_mem_splitAt hchars hdot).2 rfl
    · rw [String.toList_ofList]
      exact fun hmem => hcomma (Text.mem_of_mem_splitAt hchars hmem).1

theorem descent_of_stepsOf {levels : Nat} {parts : List (List Char)} {steps : List FieldStep}
    (hcomma : ∀ part ∈ parts, ',' ∉ part) (h : stepsOf levels parts = .ok steps) :
    ∀ step ∈ steps, Descent step.names := by
  induction parts generalizing levels steps with
  | nil =>
      cases levels with
      | zero => cases h; simp
      | succ levels => cases h
  | cons part parts ih =>
      obtain ⟨hpart, hparts⟩ := List.forall_mem_cons.1 hcomma
      cases part with
      | nil =>
          rw [stepsOf] at h
          exact ih hparts h
      | cons c part =>
          rw [stepsOf_cons_cons, bind_eq_ok_iff] at h
          obtain ⟨names, hnames, h⟩ := h
          obtain ⟨later, hlater, h⟩ := bind_eq_ok_iff.1 h
          cases h
          exact List.forall_mem_cons.2 ⟨descent_of_namesOf hpart hnames, ih hparts hlater⟩

theorem proper_of_ofChars {chars : List Char} {path : FieldPath} (h : ofChars chars = .ok path) :
    path.Proper := by
  have hcomma : ∀ part ∈ Text.splitAt ',' chars, ',' ∉ part := fun part hpart hmem =>
    (Text.mem_of_mem_splitAt hpart hmem).2 rfl
  rw [ofChars] at h
  split at h
  · cases h
  · cases h
  · next first parts _ hparts =>
    obtain ⟨hfirst, hrest⟩ := List.forall_mem_cons.1 (hparts ▸ hcomma)
    obtain ⟨head, hhead, h⟩ := bind_eq_ok_iff.1 h
    obtain ⟨steps, hsteps, h⟩ := bind_eq_ok_iff.1 h
    cases h
    exact ⟨descent_of_namesOf hfirst hhead, descent_of_stepsOf hrest hsteps⟩

/-! ### Parsing -/

/-- A text is parsed to the proper path that has this text. -/
theorem parse_eq_ok_iff {text : String} {path : FieldPath} :
    parse text = .ok path ↔ path.Proper ∧ path.text = text := by
  constructor
  · intro h
    exact ⟨proper_of_ofChars (mapError_eq_ok_iff.1 h), text_of_parse h⟩
  · rintro ⟨hproper, rfl⟩
    exact mapError_eq_ok_iff.2 (ofChars_of_proper hproper)

/-- **Parsing is the grammar.**  A text is accepted just if the grammar derives it from some path.
The path is answered that it is derived from, and this is the proper path whose rendering is the
text. -/
theorem parse_iff_grammar (text : String) :
    ((∃ path, parse text = .ok path) ↔ ∃ path, Grammar path text.toList) ∧
      ∀ path, (parse text = .ok path ↔ Grammar path text.toList) ∧
        (Grammar path text.toList ↔ path.Proper ∧ path.text = text) := by
  have hparse : ∀ path, parse text = .ok path ↔ Grammar path text.toList := fun path =>
    parse_eq_ok_iff.trans grammar_iff.symm
  exact ⟨exists_congr hparse, fun path => ⟨hparse path, grammar_iff⟩⟩

example : parse "Items,,Bar.Foo" = .ok ⟨["Items"], [⟨1, ["Bar", "Foo"]⟩]⟩ := by decide

end Rollup.FieldPath
