import Mathlib.Data.List.Forall2

/-!
# Answers — taking a successful chain apart

A chain of answers succeeds when each link does (`bind_eq_ok_iff`), and a list of answers when each
of them does, one by one (`mapM_eq_ok_iff`).
-/

namespace Rollup

variable {α β ε ε' : Type}

theorem bind_eq_ok_iff {x : Except ε α} {f : α → Except ε β} {b : β} :
    x >>= f = .ok b ↔ ∃ a, x = .ok a ∧ f a = .ok b := by
  cases x with
  | error e => simp [bind, Except.bind]
  | ok a => simp [bind, Except.bind]

theorem mapError_eq_ok_iff {rename : ε → ε'} {x : Except ε α} {a : α} :
    x.mapError rename = .ok a ↔ x = .ok a := by
  cases x <;> simp [Except.mapError]

theorem map_eq_error_iff {f : α → β} {x : Except ε α} {e : ε} :
    x.map f = .error e ↔ x = .error e := by
  cases x <;> simp [Except.map]

theorem isError_iff {x : Except ε α} : (∃ e, x = .error e) ↔ ¬ ∃ a, x = .ok a := by
  cases x <;> simp

/-- The error of an answer, if it is one. -/
def error? : Except ε α → Option ε
  | .ok _ => none
  | .error e => some e

theorem error?_eq_some_iff {x : Except ε α} {e : ε} : error? x = some e ↔ x = .error e := by
  cases x <;> simp [error?]

/-! An answer that comes with what was asked about. -/

section

variable {x : Except ε β} {a : α}

theorem return_pair_eq_ok_iff {e : α × β} :
    (do return (a, ← x)) = .ok e ↔ a = e.1 ∧ x = .ok e.2 := by
  cases x with
  | error _ => simp [bind, Except.bind]
  | ok b => simp [bind, Except.bind, pure, Except.pure, Prod.ext_iff]

theorem return_pair_eq_error_iff {e : ε} : (do return (a, ← x)) = .error e ↔ x = .error e := by
  cases x <;> simp [bind, Except.bind, pure, Except.pure]

theorem return_pair_isOk_iff : (∃ e, (do return (a, ← x)) = .ok e) ↔ ∃ b, x = .ok b := by
  cases x <;> simp [bind, Except.bind, pure, Except.pure]

end

theorem exists_of_isOk {x : Except ε α} (h : x.isOk = true) : ∃ a, x = .ok a := by
  cases x with
  | error e => cases h
  | ok a => exact ⟨a, rfl⟩

theorem mapM_eq_ok_iff {f : α → Except ε β} {l : List α} {m : List β} :
    l.mapM f = .ok m ↔ List.Forall₂ (fun a b => f a = .ok b) l m := by
  induction l generalizing m with
  | nil => simp [pure, Except.pure, eq_comm]
  | cons a l ih =>
      rw [List.mapM_cons, bind_eq_ok_iff]
      constructor
      · rintro ⟨b, hb, h⟩
        obtain ⟨bs, hbs, h⟩ := bind_eq_ok_iff.1 h
        cases h
        exact .cons hb (ih.1 hbs)
      · intro h
        cases h with
        | @cons _ b _ bs hb hbs => exact ⟨b, hb, bind_eq_ok_iff.2 ⟨bs, ih.2 hbs, rfl⟩⟩

theorem mapM_isOk_iff {f : α → Except ε β} {l : List α} :
    (∃ m, l.mapM f = .ok m) ↔ ∀ a ∈ l, ∃ b, f a = .ok b := by
  simp only [mapM_eq_ok_iff]
  induction l with
  | nil => exact ⟨fun _ a ha => (by cases ha), fun _ => ⟨[], .nil⟩⟩
  | cons a l ih =>
      rw [List.forall_mem_cons, ← ih]
      constructor
      · rintro ⟨_, _ | ⟨hb, hbs⟩⟩
        exact ⟨⟨_, hb⟩, _, hbs⟩
      · rintro ⟨⟨b, hb⟩, bs, hbs⟩
        exact ⟨b :: bs, .cons hb hbs⟩

/-- The first failure of a list of answers is that of one of them. -/
theorem exists_of_mapM_eq_error {f : α → Except ε β} {l : List α} {e : ε}
    (h : l.mapM f = .error e) : ∃ a ∈ l, f a = .error e := by
  induction l with
  | nil => cases h
  | cons a l ih =>
      rw [List.mapM_cons] at h
      cases hfirst : f a with
      | error e' =>
          rw [hfirst] at h
          cases h
          exact ⟨a, List.mem_cons_self, hfirst⟩
      | ok b =>
          cases hrest : l.mapM f with
          | error e' =>
              rw [hfirst, hrest] at h
              cases h
              obtain ⟨a', hmem, ha'⟩ := ih hrest
              exact ⟨a', List.mem_cons_of_mem _ hmem, ha'⟩
          | ok bs =>
              rw [hfirst, hrest] at h
              cases h

theorem mem_of_mapM {f : α → Except ε β} {l : List α} {m : List β} (h : l.mapM f = .ok m) {b : β} :
    b ∈ m ↔ ∃ a ∈ l, f a = .ok b := by
  rw [mapM_eq_ok_iff] at h
  induction h with
  | nil => simp
  | @cons a b' l m hb _ ih =>
      rw [List.mem_cons, ih, List.exists_mem_cons_iff, hb]
      exact or_congr_left ⟨fun e => congrArg _ e.symm, fun e => (Except.ok.inj e).symm⟩

/-- A list of answers that are all known. -/
theorem mapM_eq_ok_map {f : α → Except ε β} {g : α → β} {l : List α}
    (h : ∀ a ∈ l, f a = .ok (g a)) : l.mapM f = .ok (l.map g) := by
  rw [mapM_eq_ok_iff]
  exact List.forall₂_map_right_iff.2 (List.forall₂_same.2 h)

/-- A list of forms that are all read back. -/
theorem mapM_of_forms {f : α → Except ε β} {g : β → α} {l : List α}
    (h : ∀ a ∈ l, ∃ b, a = g b ∧ f (g b) = .ok b) :
    ∃ m, l.mapM f = .ok m ∧ l = m.map g := by
  simp only [mapM_eq_ok_iff]
  induction l with
  | nil => exact ⟨[], .nil, rfl⟩
  | cons a l ih =>
      obtain ⟨⟨b, rfl, hb⟩, hl⟩ := List.forall_mem_cons.1 h
      obtain ⟨m, hm, rfl⟩ := ih hl
      exact ⟨b :: m, .cons hb hm, rfl⟩

end Rollup
