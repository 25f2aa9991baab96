import Rollup.Action

/-!
# Actions — what a step does, read off its construction

Each way of building a step has one equation for `exec`, so a step is opened from the outside in
and a called function is replaced by its own equation.  `exec_bind_eq_ok` takes a successful step
apart; `Preserves` is what survives a step whether it succeeds or stops, and `Agrees` compares the
ends of two steps.
-/

namespace Rollup.Action

variable {σ τ ε ε' α β : Type}

/-! ### The constructions -/

@[simp] theorem exec_pure (a : α) (s : σ) : (pure a : Action σ ε α).exec s = (.ok a, s) := rfl

@[simp] theorem exec_throw (e : ε) (s : σ) :
    (throw e : Action σ ε α).exec s = (.error e, s) := rfl

@[simp] theorem exec_get (s : σ) : (get : Action σ ε σ).exec s = (.ok s, s) := rfl

@[simp] theorem exec_set (t s : σ) : (set t : Action σ ε PUnit).exec s = (.ok ⟨⟩, t) := rfl

@[simp] theorem exec_modify (f : σ → σ) (s : σ) :
    (modify f : Action σ ε PUnit).exec s = (.ok ⟨⟩, f s) := rfl

@[simp] theorem exec_lift (answer : Except ε α) (s : σ) :
    (lift answer : Action σ ε α).exec s = (answer, s) := rfl

@[simp] theorem exec_ofExec (f : σ → Except ε α × σ) (s : σ) : (ofExec f).exec s = f s := rfl

@[simp] theorem exec_within (part : σ → τ) (put : τ → σ → σ) (rename : ε' → ε)
    (step : Action τ ε' α) (s : σ) :
    (step.within part put rename).exec s =
      ((step.exec (part s)).1.mapError rename, put (step.exec (part s)).2 s) := rfl

theorem exec_bind (x : Action σ ε α) (f : α → Action σ ε β) (s : σ) :
    (x >>= f).exec s = match x.exec s with
      | (.ok a, t) => (f a).exec t
      | (.error e, t) => (.error e, t) := by
  show (ExceptT.bindCont f (x.exec s).1 : StateM σ _).run (x.exec s).2 = _
  rcases x.exec s with ⟨_ | _, t⟩ <;> rfl

theorem exec_bind_ok {x : Action σ ε α} {s t : σ} {a : α} (h : x.exec s = (.ok a, t))
    (f : α → Action σ ε β) : (x >>= f).exec s = (f a).exec t := by
  rw [exec_bind, h]

theorem exec_bind_error {x : Action σ ε α} {s t : σ} {e : ε} (h : x.exec s = (.error e, t))
    (f : α → Action σ ε β) : (x >>= f).exec s = (.error e, t) := by
  rw [exec_bind, h]

theorem exec_bind_eq_ok {x : Action σ ε α} {f : α → Action σ ε β} {s u : σ} {b : β} :
    (x >>= f).exec s = (.ok b, u) ↔
      ∃ a t, x.exec s = (.ok a, t) ∧ (f a).exec t = (.ok b, u) := by
  rw [exec_bind]
  rcases x.exec s with ⟨_ | a, t⟩
  · simp
  · exact ⟨fun h => ⟨a, t, rfl, h⟩, fun ⟨_, _, h, h'⟩ => by cases h; exact h'⟩

@[simp] theorem exec_map (g : α → β) (x : Action σ ε α) (s : σ) :
    (g <$> x).exec s = ((x.exec s).1.map g, (x.exec s).2) := by
  show (x >>= fun a => pure (g a)).exec s = _
  rw [exec_bind]
  rcases x.exec s with ⟨_ | _, t⟩ <;> rfl

theorem exec_map_eq {x : Action σ ε α} {s t : σ} {answer : Except ε α}
    (h : x.exec s = (answer, t)) (g : α → β) : (g <$> x).exec s = (answer.map g, t) := by
  rw [exec_map, h]

@[simp] theorem exec_adapt (rename : ε' → ε) (x : Action σ ε' α) (s : σ) :
    Action.exec (ExceptT.adapt rename x) s = ((x.exec s).1.mapError rename, (x.exec s).2) := rfl

theorem exec_tryCatch (x : Action σ ε α) (handle : ε → Action σ ε α) (s : σ) :
    (tryCatch x handle : Action σ ε α).exec s = match x.exec s with
      | (.ok a, t) => (.ok a, t)
      | (.error e, t) => (handle e).exec t := by
  simp only [exec, tryCatch, tryCatchThe, MonadExceptOf.tryCatch, ExceptT.tryCatch, ExceptT.run,
    ExceptT.mk, StateT.run_bind]
  show (match (StateT.run x s : Except ε α × σ) with | (a, s') => _) = _
  rcases (StateT.run x s : Except ε α × σ) with ⟨_ | _, t⟩ <;> rfl

/-! ### Loops -/

@[simp] theorem exec_forM_nil (f : α → Action σ ε PUnit) (s : σ) :
    (([] : List α).forM f).exec s = (.ok ⟨⟩, s) := rfl

theorem exec_forM_cons (a : α) (l : List α) (f : α → Action σ ε PUnit) (s : σ) :
    ((a :: l).forM f).exec s = (f a >>= fun _ => l.forM f).exec s := rfl

theorem exec_forM_map (g : β → α) (l : List β) (f : α → Action σ ε PUnit) (s : σ) :
    ((l.map g).forM f).exec s = (l.forM fun b => f (g b)).exec s := by
  induction l generalizing s with
  | nil => rfl
  | cons b l ih =>
      rw [List.map_cons, exec_forM_cons, exec_forM_cons, exec_bind, exec_bind]
      split
      · exact ih _
      · rfl

/-! ### What a step keeps -/

/-- A property that holds after a step, whatever its answer, if it held before. -/
def Preserves (P : σ → Prop) (step : Action σ ε α) : Prop := ∀ s, P s → P (step.exec s).2

section

variable {P : σ → Prop}

theorem preserves_pure (a : α) : Preserves P (pure a : Action σ ε α) := fun _ h => h

theorem preserves_lift (answer : Except ε α) : Preserves P (lift answer : Action σ ε α) :=
  fun _ h => h

theorem preserves_throw (e : ε) : Preserves P (throw e : Action σ ε α) := fun _ h => h

theorem preserves_get : Preserves P (get : Action σ ε σ) := fun _ h => h

theorem preserves_modify {f : σ → σ} (hf : ∀ s, P s → P (f s)) :
    Preserves P (modify f : Action σ ε PUnit) := hf

theorem Preserves.bind {x : Action σ ε α} {f : α → Action σ ε β} (hx : Preserves P x)
    (hf : ∀ a, Preserves P (f a)) : Preserves P (x >>= f) := by
  intro s hs
  have h := hx s hs
  rw [exec_bind]
  rcases hxs : x.exec s with ⟨_ | a, t⟩
  · rwa [hxs] at h
  · rw [hxs] at h
    exact hf a t h

theorem Preserves.ite {p : Prop} [Decidable p] {x y : Action σ ε α} (hx : Preserves P x)
    (hy : Preserves P y) : Preserves P (if p then x else y) := by
  split
  · exact hx
  · exact hy

theorem Preserves.adapt {x : Action σ ε α} (hx : Preserves P x) (rename : ε → ε') :
    Preserves P (ExceptT.adapt rename x : Action σ ε' α) := fun s hs => by
  rw [exec_adapt]
  exact hx s hs

theorem preserves_forM {l : List α} {f : α → Action σ ε PUnit} (hf : ∀ a ∈ l, Preserves P (f a)) :
    Preserves P (l.forM f) := by
  induction l with
  | nil => exact preserves_pure _
  | cons a l ih =>
      exact (hf a (by simp)).bind fun _ => ih fun b hb => hf b (by simp [hb])

end

/-! ### Two ends compared -/

/-- Two ends agree: the answers are the same, and the states are related. -/
def Agrees (R : σ → σ → Prop) (p q : Except ε α × σ) : Prop := p.1 = q.1 ∧ R p.2 q.2

section

variable {R : σ → σ → Prop} {s t : σ}

theorem Agrees.bind {x y : Action σ ε α} {f g : α → Action σ ε β}
    (hx : Agrees R (x.exec s) (y.exec t))
    (hf : ∀ a s' t', R s' t' → Agrees R ((f a).exec s') ((g a).exec t')) :
    Agrees R ((x >>= f).exec s) ((y >>= g).exec t) := by
  rw [exec_bind, exec_bind]
  rcases hxs : x.exec s with ⟨answer, s'⟩
  rcases hyt : y.exec t with ⟨answer', t'⟩
  rw [hxs, hyt] at hx
  obtain ⟨rfl, hR⟩ := hx
  cases answer with
  | error e => exact ⟨rfl, hR⟩
  | ok a => exact hf a s' t' hR

theorem Agrees.tryCatch {x y : Action σ ε α} {f g : ε → Action σ ε α}
    (hx : Agrees R (x.exec s) (y.exec t))
    (hf : ∀ e s' t', R s' t' → Agrees R ((f e).exec s') ((g e).exec t')) :
    Agrees R (Action.exec (MonadExcept.tryCatch x f) s)
      (Action.exec (MonadExcept.tryCatch y g) t) := by
  rw [exec_tryCatch, exec_tryCatch]
  rcases hxs : x.exec s with ⟨answer, s'⟩
  rcases hyt : y.exec t with ⟨answer', t'⟩
  rw [hxs, hyt] at hx
  obtain ⟨rfl, hR⟩ := hx
  cases answer with
  | error e => exact hf e s' t' hR
  | ok a => exact ⟨rfl, hR⟩

theorem agrees_pure (a : α) (h : R s t) :
    Agrees R ((pure a : Action σ ε α).exec s) ((pure a : Action σ ε α).exec t) := ⟨rfl, h⟩

theorem agrees_throw (e : ε) (h : R s t) :
    Agrees R ((throw e : Action σ ε α).exec s) ((throw e : Action σ ε α).exec t) := ⟨rfl, h⟩

theorem agrees_modify {f g : σ → σ} (h : R (f s) (g t)) :
    Agrees R ((modify f : Action σ ε PUnit).exec s) ((modify g : Action σ ε PUnit).exec t) :=
  ⟨rfl, h⟩

end

end Rollup.Action
