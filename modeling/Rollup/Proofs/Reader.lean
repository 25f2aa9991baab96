import Rollup.Proofs.Action
import Rollup.Proofs.Bytes
import Mathlib.Data.List.Forall2

/-!
# Readers — reading back what was written

A reader is a step over the bytes that are left.  `Reads reader form x` says that in front of any
rest it takes exactly `form` and answers `x`; readers in sequence take their forms joined
(`Reads.bind`, `Reads.times`).

A reader with limits may refuse a form that it could read.  `Yields p reader form x` says that it
answers `x` or fails, and that it does not fail under `p`; readers in sequence again take their
forms joined (`Yields.bind`, `Yields.times`).

Both start from a form.  `Takes Q reader` starts from the answer: whatever the input, a reader that
answers `x` has taken some form off it, with `Q x form` (`Takes.bind`, `Takes.times`).  A reader is
`Steady` if it would have taken that form, and answered the same, before any other rest; then it
fails on a form that was cut short (`Steady.exec_take`).

`Settled missing reader` goes on from any input, read or refused: unless the reader misses bytes,
which it says with the failure `missing`, it answers the same however the input goes on.  Such a
reader fails with `missing` on a form that was cut short, and with nothing else
(`Settled.exec_of_front`).
-/

namespace Rollup.Action

variable {ε α β : Type}

/-- The reader takes `form` off the front of any input and answers `x`. -/
def Reads (reader : Action Bytes ε α) (form : Bytes) (x : α) : Prop :=
  ∀ rest, reader.exec (form ++ rest) = (.ok x, rest)

namespace Reads

theorem pure (x : α) : Reads (Pure.pure x : Action Bytes ε α) [] x := fun _ => rfl

theorem bind {reader : Action Bytes ε α} {next : α → Action Bytes ε β} {form later : Bytes}
    {x : α} {y : β} (h : Reads reader form x) (h' : Reads (next x) later y) :
    Reads (reader >>= next) (form ++ later) y := by
  intro rest
  rw [List.append_assoc, exec_bind_ok (h _)]
  exact h' rest

/-- The last reader of a sequence. -/
theorem map {reader : Action Bytes ε α} {form : Bytes} {x : α} (h : Reads reader form x)
    (f : α → β) : Reads (reader >>= fun a => Pure.pure (f a)) form (f x) := by
  have := @bind _ _ _ _ (fun a => Pure.pure (f a)) _ _ _ _ h (pure (f x))
  rwa [List.append_nil] at this

theorem times {reader : Action Bytes ε α} {xs : List α} {forms : List Bytes}
    (h : List.Forall₂ (fun x form => Reads reader form x) xs forms) :
    Reads (reader.times xs.length) forms.flatten xs := by
  induction h with
  | nil => exact pure []
  | cons hx _ ih => exact hx.bind (ih.map _)

/-- A form read to its end. -/
theorem exec_form {reader : Action Bytes ε α} {form : Bytes} {x : α} (h : Reads reader form x) :
    reader.exec form = (.ok x, []) := by
  simpa using h []

end Reads

/-- The reader takes `form` off the front of any input and answers `x`, or it fails; under `p` it
does not fail. -/
def Yields (p : Prop) (reader : Action Bytes ε α) (form : Bytes) (x : α) : Prop :=
  ∀ rest, reader.exec (form ++ rest) = (.ok x, rest) ∨
    ¬ p ∧ ∃ e left, reader.exec (form ++ rest) = (.error e, left)

theorem Reads.yields {reader : Action Bytes ε α} {form : Bytes} {x : α} (h : Reads reader form x)
    (p : Prop) : Yields p reader form x := fun rest => .inl (h rest)

namespace Yields

variable {p : Prop}

theorem reads {reader : Action Bytes ε α} {form : Bytes} {x : α} (h : Yields p reader form x)
    (hp : p) : Reads reader form x := fun rest => (h rest).resolve_right fun hn => hn.1 hp

theorem bind {reader : Action Bytes ε α} {next : α → Action Bytes ε β} {form later : Bytes}
    {x : α} {y : β} (h : Yields p reader form x) (h' : Yields p (next x) later y) :
    Yields p (reader >>= next) (form ++ later) y := by
  intro rest
  rw [List.append_assoc]
  rcases h (later ++ rest) with hread | ⟨hp, e, left, hread⟩
  · rw [exec_bind_ok hread]
    exact h' rest
  · exact .inr ⟨hp, e, left, exec_bind_error hread next⟩

/-- What follows takes nothing. -/
theorem bind_pure {reader : Action Bytes ε α} {next : α → Action Bytes ε β} {form : Bytes}
    {x : α} {y : β} (h : Yields p reader form x) (hnext : next x = Pure.pure y) :
    Yields p (reader >>= next) form y := by
  have hbind := h.bind (hnext ▸ (Reads.pure y).yields p)
  rwa [List.append_nil] at hbind

theorem map {reader : Action Bytes ε α} {form : Bytes} {x : α} (h : Yields p reader form x)
    (f : α → β) : Yields p (reader >>= fun a => Pure.pure (f a)) form (f x) := h.bind_pure rfl

theorem times {reader : Action Bytes ε α} {xs : List α} {forms : List Bytes}
    (h : List.Forall₂ (fun x form => Yields p reader form x) xs forms) :
    Yields p (reader.times xs.length) forms.flatten xs := by
  induction h with
  | nil => exact (Reads.pure []).yields p
  | cons hx _ ih => exact hx.bind (ih.map _)

end Yields

/-- A reader that answers `x` has taken a form off its input of which `Q x form` holds. -/
def Takes (Q : α → Bytes → Prop) (reader : Action Bytes ε α) : Prop :=
  ∀ ⦃input : Bytes⦄ ⦃x : α⦄ ⦃rest : Bytes⦄, reader.exec input = (.ok x, rest) →
    ∃ form, form ++ rest = input ∧ Q x form

namespace Takes

variable {Q : α → Bytes → Prop} {R : β → Bytes → Prop}

theorem pure {x : α} (h : Q x []) : Takes Q (Pure.pure x : Action Bytes ε α) := by
  intro input y rest hread
  cases hread
  exact ⟨[], rfl, h⟩

theorem throw (e : ε) : Takes Q (MonadExcept.throw e : Action Bytes ε α) := by
  intro input y rest hread
  cases hread

theorem bind {reader : Action Bytes ε α} {next : α → Action Bytes ε β} (h : Takes Q reader)
    (h' : ∀ x form, Q x form → Takes (fun y later => R y (form ++ later)) (next x)) :
    Takes R (reader >>= next) := by
  intro input y rest hread
  obtain ⟨x, left, hx, hy⟩ := exec_bind_eq_ok.1 hread
  obtain ⟨form, rfl, hform⟩ := h hx
  obtain ⟨later, rfl, hlater⟩ := h' x form hform hy
  exact ⟨form ++ later, List.append_assoc _ _ _, hlater⟩

/-- The last reader of a sequence. -/
theorem map {reader : Action Bytes ε α} (h : Takes Q reader) {f : α → β}
    (hf : ∀ x form, Q x form → R (f x) form) :
    Takes R (reader >>= fun x => Pure.pure (f x)) :=
  h.bind fun x form hx => pure (by rw [List.append_nil]; exact hf x form hx)

theorem imp {Q' : α → Bytes → Prop} {reader : Action Bytes ε α} (h : Takes Q reader)
    (himp : ∀ x form, Q x form → Q' x form) : Takes Q' reader := by
  intro input x rest hread
  obtain ⟨form, hinput, hx⟩ := h hread
  exact ⟨form, hinput, himp x form hx⟩

theorem times {reader : Action Bytes ε α} (h : Takes Q reader) (n : Nat) :
    Takes (fun xs form => xs.length = n ∧ ∃ forms, List.Forall₂ Q xs forms ∧ forms.flatten = form)
      (reader.times n) := by
  induction n with
  | zero => exact pure ⟨rfl, [], .nil, rfl⟩
  | succ n ih =>
      refine h.bind fun x form hx => ih.map fun xs later hxs => ?_
      obtain ⟨hlen, forms, hforms, rfl⟩ := hxs
      exact ⟨congrArg (· + 1) hlen, form :: forms, .cons hx hforms, rfl⟩

end Takes

/-- What the reader takes and answers does not depend on the bytes behind. -/
def Steady (reader : Action Bytes ε α) : Prop := Takes (fun x form => Reads reader form x) reader

namespace Steady

theorem pure (x : α) : Steady (Pure.pure x : Action Bytes ε α) := Takes.pure (.pure x)

theorem throw (e : ε) : Steady (MonadExcept.throw e : Action Bytes ε α) := Takes.throw e

theorem bind {reader : Action Bytes ε α} {next : α → Action Bytes ε β} (h : Steady reader)
    (h' : ∀ x, Steady (next x)) : Steady (reader >>= next) :=
  Takes.bind h fun x _ hx => (h' x).imp fun _ _ hy => hx.bind hy

theorem times {reader : Action Bytes ε α} (h : Steady reader) (n : Nat) :
    Steady (reader.times n) := by
  induction n with
  | zero => exact pure []
  | succ n ih => exact h.bind fun x => ih.bind fun xs => pure (x :: xs)

/-- A form that was cut short is not read. -/
theorem exec_take {reader : Action Bytes ε α} {form : Bytes} {x : α} (h : Steady reader)
    (hform : Reads reader form x) {k : Nat} (hk : k < form.length) :
    ∃ e left, reader.exec (form.take k) = (.error e, left) := by
  rcases hread : reader.exec (form.take k) with ⟨e | y, left⟩
  · exact ⟨e, left, rfl⟩
  -- what it took there it would take off the whole form too, and leave the rest
  obtain ⟨taken, htaken, hy⟩ := h hread
  have hwhole := hy (left ++ form.drop k)
  rw [← List.append_assoc, htaken, List.take_append_drop, hform.exec_form] at hwhole
  have hempty : form.drop k = [] :=
    (List.append_eq_nil_iff.1 (congrArg Prod.snd hwhole).symm).2
  exact absurd (List.drop_eq_nil_iff.1 hempty) (Nat.not_le.2 hk)

end Steady

/-- Unless it misses bytes, the reader answers the same whatever comes behind its input. -/
def Settled (missing : ε) (reader : Action Bytes ε α) : Prop :=
  ∀ ⦃input : Bytes⦄ ⦃answer : Except ε α⦄ ⦃left : Bytes⦄,
    reader.exec input = (answer, left) → answer ≠ .error missing →
    ∀ behind, reader.exec (input ++ behind) = (answer, left ++ behind)

namespace Settled

variable {missing : ε}

theorem pure (x : α) : Settled missing (Pure.pure x : Action Bytes ε α) := by
  intro input answer left hread _ behind
  cases hread
  rfl

theorem throw (e : ε) : Settled missing (MonadExcept.throw e : Action Bytes ε α) := by
  intro input answer left hread _ behind
  cases hread
  rfl

/-- A sequence, of which the rest goes on in front of more bytes as it did before. -/
theorem exec_bind_append {reader : Action Bytes ε α} {next next' : α → Action Bytes ε β}
    (h : Settled missing reader) {input left behind : Bytes} {answer : Except ε β}
    (hread : (reader >>= next).exec input = (answer, left)) (hanswer : answer ≠ .error missing)
    (hnext : ∀ x rest, (next x).exec rest = (answer, left) →
      (next' x).exec (rest ++ behind) = (answer, left ++ behind)) :
    (reader >>= next').exec (input ++ behind) = (answer, left ++ behind) := by
  rcases hfirst : reader.exec input with ⟨e | x, rest⟩
  · rw [exec_bind_error hfirst] at hread
    cases hread
    have hne : (.error e : Except ε α) ≠ .error missing := fun he =>
      hanswer (by rw [Except.error.inj he])
    exact exec_bind_error (h hfirst hne behind) next'
  · rw [exec_bind_ok hfirst] at hread
    rw [exec_bind_ok (h hfirst (by simp) behind)]
    exact hnext x rest hread

theorem bind {reader : Action Bytes ε α} {next : α → Action Bytes ε β}
    (h : Settled missing reader) (h' : ∀ x, Settled missing (next x)) :
    Settled missing (reader >>= next) := fun _ _ _ hread hanswer behind =>
  h.exec_bind_append hread hanswer fun x _ hrest => h' x hrest hanswer behind

/-- What comes next may look at the input before and behind a reader, but not at what follows
both. -/
theorem between {reader : Action Bytes ε α} {next : α → Bytes → Bytes → Action Bytes ε β}
    (h : Settled missing reader) (h' : ∀ x start left, Settled missing (next x start left))
    (hnext : ∀ x start left behind, next x (start ++ behind) (left ++ behind) = next x start left) :
    Settled missing (do
      let start ← get
      let x ← reader
      let left ← get
      next x start left) := by
  intro input answer left hread hanswer behind
  rw [exec_bind_ok (exec_get _)] at hread ⊢
  refine h.exec_bind_append hread hanswer fun x rest hrest => ?_
  rw [exec_bind_ok (exec_get _)] at hrest ⊢
  rw [hnext]
  exact h' x input rest hrest hanswer behind

theorem times {reader : Action Bytes ε α} (h : Settled missing reader) (n : Nat) :
    Settled missing (reader.times n) := by
  induction n with
  | zero => exact pure []
  | succ n ih => exact h.bind fun x => ih.bind fun xs => pure (x :: xs)

/-- On the front of a form that was cut short, bytes are missing. -/
theorem exec_of_front {reader : Action Bytes ε α} {form front : Bytes} {x : α}
    (h : Settled missing reader) (hform : reader.exec form = (.ok x, [])) (hfront : front <+: form)
    (hne : front ≠ form) : ∃ left, reader.exec front = (.error missing, left) := by
  obtain ⟨behind, rfl⟩ := hfront
  rcases hread : reader.exec front with ⟨answer, left⟩
  by_cases hanswer : answer = .error missing
  · exact ⟨left, by rw [hanswer]⟩
  -- any other answer would be that to the whole form, with `behind` left over
  have hwhole := h hread hanswer behind
  rw [hform] at hwhole
  have hempty : behind = [] := (List.append_eq_nil_iff.1 (congrArg Prod.snd hwhole).symm).2
  exact absurd (by rw [hempty, List.append_nil]) hne

end Settled

end Rollup.Action
