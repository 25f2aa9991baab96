import Rollup.Proofs.Action
import Rollup.Storage.Backend

/-!
# Backends — content, and calls that may fail

A backend holds bytes (`held`).  A lawful one carries out a call or refuses it (`Carries`):
a call that answers has its answer and its effect, a call that fails leaves the content as it was.
The laws are asked of `Intact` states; in a `Sound` state no call fails.

`Memory` is lawful and always sound, a `LogFile` when its writes come to their ends, and a `Faulty`
backend as long as the one inside is, whichever of its calls are going to fail.
-/

namespace Rollup

open Rollup.Action

/-- What can be said about the states of a backend. -/
class BackendView (β : Type) where
  held : β → Bytes
  /-- The laws hold. -/
  Intact : β → Prop
  /-- No call is going to fail. -/
  Sound : β → Prop

open BackendView

/-- A call has this answer and leaves this content, or it fails and leaves the content alone;
in a sound state it does not fail. -/
structure Carries {β α : Type} [BackendView β] (step : Action β StorageError α) (b : β)
    (answer : α) (after : Bytes) : Prop where
  intact : Intact (step.exec b).2
  effect : ((step.exec b).1 = .ok answer ∧ held (step.exec b).2 = after) ∨
    ∃ e, (step.exec b).1 = .error e ∧ held (step.exec b).2 = held b
  sound : Sound b → (step.exec b).1 = .ok answer ∧ Sound (step.exec b).2

/-- A backend that carries out its calls or leaves things as they are. -/
class LawfulBackend (β : Type) [Backend β] extends BackendView β where
  intact_of_sound : ∀ {b : β}, Sound b → Intact b
  size : ∀ {b : β}, Intact b → Carries Backend.size b (held b).length (held b)
  read : ∀ {b : β}, Intact b → ∀ offset len : Nat, offset + len ≤ (held b).length →
    Carries (Backend.read offset len) b (((held b).drop offset).take len) (held b)
  append : ∀ {b : β}, Intact b → ∀ data : Bytes,
    Carries (Backend.append data) b (held b).length (held b ++ data)
  flush : ∀ {b : β}, Intact b → Carries Backend.flush b () (held b)
  sync : ∀ {b : β}, Intact b → Carries Backend.sync b () (held b)
  truncate : ∀ {b : β}, Intact b → ∀ newSize : Nat, newSize ≤ (held b).length →
    Carries (Backend.truncate newSize) b () ((held b).take newSize)

namespace Carries

variable {β α : Type} [BackendView β] {step : Action β StorageError α} {b : β} {answer : α}
  {after : Bytes}

/-- A call seen by its answer. -/
theorem cases (h : Carries step b answer after) :
    (∃ b', step.exec b = (.ok answer, b') ∧ Intact b' ∧ held b' = after ∧
      (Sound b → Sound b')) ∨
    ∃ e b', step.exec b = (.error e, b') ∧ Intact b' ∧ held b' = held b ∧ ¬ Sound b := by
  rcases h.effect with ⟨hok, hc⟩ | ⟨e, he, hc⟩
  · exact .inl ⟨_, Prod.ext hok rfl, h.intact, hc, fun hs => (h.sound hs).2⟩
  · refine .inr ⟨e, _, Prod.ext he rfl, h.intact, hc, fun hs => ?_⟩
    rw [(h.sound hs).1] at he
    cases he

/-- A call that always answers. -/
theorem of_exec {b' : β} (h : step.exec b = (.ok answer, b')) (hi : Intact b')
    (hc : held b' = after) (hs : Sound b → Sound b') : Carries step b answer after where
  intact := by rwa [h]
  effect := .inl (by rw [h]; exact ⟨rfl, hc⟩)
  sound hb := by rw [h]; exact ⟨rfl, hs hb⟩

/-- Two calls in a row that leave the content alone. -/
theorem bind {γ : Type} {f : α → Action β StorageError γ} {c : γ}
    (h : Carries step b answer (held b))
    (hf : ∀ b', Intact b' → held b' = held b → Carries (f answer) b' c (held b')) :
    Carries (step >>= f) b c (held b) := by
  rcases h.cases with ⟨b₁, h₁, hi₁, hc₁, hs₁⟩ | ⟨e, b₁, h₁, hi₁, hc₁, hs₁⟩
  · rcases (hf b₁ hi₁ hc₁).cases with ⟨b₂, h₂, hi₂, hc₂, hs₂⟩ | ⟨e, b₂, h₂, hi₂, hc₂, hs₂⟩
    · exact .of_exec ((exec_bind_ok h₁ f).trans h₂) hi₂ (hc₂.trans hc₁) fun hs => hs₂ (hs₁ hs)
    · rw [← exec_bind_ok h₁ f] at h₂
      exact ⟨by rwa [h₂], .inr ⟨e, by rw [h₂], by rw [h₂, hc₂, hc₁]⟩,
        fun hs => absurd (hs₁ hs) hs₂⟩
  · have h := exec_bind_error h₁ f
    exact ⟨by rwa [h], .inr ⟨e, by rw [h], by rw [h, hc₁]⟩, fun hs => absurd hs hs₁⟩

end Carries

/-! ### In memory -/

namespace Memory

theorem exec_read {b : Memory} {offset len : Nat} (h : offset + len ≤ b.bytes.length) :
    (read offset len).exec b = (.ok ((b.bytes.drop offset).take len), b) := by
  rw [read, exec_bind_ok (exec_get b)]
  dsimp only
  rw [if_pos h, exec_pure]

theorem exec_read_of_lt {b : Memory} {offset len : Nat}
    (h : b.bytes.length < offset + len) :
    (read offset len).exec b = (.error (.readPastEnd offset len b.bytes.length), b) := by
  rw [read, exec_bind_ok (exec_get b)]
  dsimp only
  rw [if_neg (Nat.not_le.2 h), exec_throw]

theorem exec_truncate {b : Memory} {newSize : Nat} (h : newSize ≤ b.bytes.length) :
    (truncate newSize).exec b = (.ok (), ⟨b.bytes.take newSize⟩) := by
  rw [truncate, exec_bind_ok (exec_get b)]
  dsimp only
  rw [if_neg (Nat.not_lt.2 h), exec_set]

theorem exec_truncate_of_lt {b : Memory} {newSize : Nat} (h : b.bytes.length < newSize) :
    (truncate newSize).exec b =
      (.error (.io (.truncateBeyondEnd newSize b.bytes.length)), b) := by
  rw [truncate, exec_bind_ok (exec_get b)]
  dsimp only
  rw [if_pos h, exec_throw]

instance view : BackendView Memory where
  held b := b.bytes
  Intact _ := True
  Sound _ := True

instance : LawfulBackend Memory where
  toBackendView := view
  intact_of_sound _ := trivial
  size _ := .of_exec rfl trivial rfl fun _ => trivial
  read _ _ _ hle := .of_exec (exec_read hle) trivial rfl fun _ => trivial
  append _ _ := .of_exec rfl trivial rfl fun _ => trivial
  flush _ := .of_exec rfl trivial rfl fun _ => trivial
  sync _ := .of_exec rfl trivial rfl fun _ => trivial
  truncate _ _ hle := .of_exec (exec_truncate hle) trivial rfl fun _ => trivial

end Memory

/-! ### In a file -/

namespace LogFile

/-- The file holds what the log knows of, and every write is going to come to its end. -/
def Whole (file : LogFile) : Prop :=
  file.size = file.content.length ∧ ∀ stop ∈ file.stops, stop = none

theorem Whole.head?_stops {file : LogFile} (h : file.Whole) : file.stops.head?.join = none := by
  cases hs : file.stops with
  | nil => rfl
  | cons stop rest => rw [List.head?_cons, h.2 stop (by simp [hs])]; rfl

theorem exec_size {file : LogFile} (h : file.Whole) :
    (Backend.size : Action LogFile StorageError Nat).exec file = (.ok file.content.length, file) :=
  congrArg (fun n => (Except.ok n, file)) h.1

theorem exec_read_of_le {file : LogFile} {offset len : Nat} (h : offset + len ≤ file.size) :
    (read offset len).exec file = (.ok ((file.content.drop offset).take len), file) := by
  rw [read, exec_bind_ok (exec_get file), if_neg (Nat.not_lt.2 h), exec_pure]

theorem exec_read_of_lt {file : LogFile} {offset len : Nat} (h : file.size < offset + len) :
    (read offset len).exec file = (.error (.readPastEnd offset len file.size), file) := by
  rw [read, exec_bind_ok (exec_get file), if_pos h, exec_throw]

theorem exec_read {file : LogFile} (h : file.Whole) {offset len : Nat}
    (hle : offset + len ≤ file.content.length) :
    (read offset len).exec file = (.ok ((file.content.drop offset).take len), file) :=
  exec_read_of_le (h.1 ▸ hle)

/-- A write that comes to its end. -/
theorem exec_append_of_next {file : LogFile} (hnext : file.stops.head?.join = none) (data : Bytes) :
    ∃ stops, (append data).exec file =
      (.ok file.size, ⟨file.content ++ data, file.size + data.length, stops⟩) ∧
      ∀ stop ∈ stops, stop ∈ file.stops := by
  rw [append, exec_bind_ok (exec_get file)]
  by_cases hdata : data.isEmpty
  · refine ⟨file.stops, ?_, fun _ hs => hs⟩
    rw [if_pos hdata, exec_pure, List.isEmpty_iff.1 hdata, List.append_nil]
    rfl
  · refine ⟨file.stops.tail, ?_, fun _ hs => List.mem_of_mem_tail hs⟩
    rw [if_neg hdata, hnext]
    rfl

/-- A write that stops. -/
theorem exec_append_of_stop {file : LogFile} {k : Nat} (hnext : file.stops.head?.join = some k)
    {data : Bytes} (hdata : data ≠ []) : (append data).exec file =
      (.error (.io .writeStopped), ⟨file.content ++ data.take k, file.size, file.stops.tail⟩) := by
  rw [append, exec_bind_ok (exec_get file), if_neg (mt List.isEmpty_iff.1 hdata), hnext]
  rfl

theorem exec_append {file : LogFile} (h : file.Whole) (data : Bytes) :
    ∃ stops, (append data).exec file =
      (.ok file.content.length, ⟨file.content ++ data, file.size + data.length, stops⟩) ∧
      ∀ stop ∈ stops, stop = none := by
  obtain ⟨stops, hexec, hstops⟩ := exec_append_of_next h.head?_stops data
  exact ⟨stops, hexec.trans (by rw [h.1]), fun stop hs => h.2 stop (hstops stop hs)⟩

theorem exec_truncate_of_le {file : LogFile} {newSize : Nat} (h : newSize ≤ file.size) :
    (truncate newSize).exec file = (.ok (), ⟨file.content.take newSize, newSize, file.stops⟩) := by
  rw [truncate, exec_bind_ok (exec_get file), if_neg (Nat.not_lt.2 h), exec_set]

theorem exec_truncate_of_lt {file : LogFile} {newSize : Nat} (h : file.size < newSize) :
    (truncate newSize).exec file =
      (.error (.io (.truncateBeyondEnd newSize file.size)), file) := by
  rw [truncate, exec_bind_ok (exec_get file), if_pos h, exec_throw]

theorem exec_truncate {file : LogFile} (h : file.Whole) {newSize : Nat}
    (hle : newSize ≤ file.content.length) :
    (truncate newSize).exec file = (.ok (), ⟨file.content.take newSize, newSize, file.stops⟩) :=
  exec_truncate_of_le (h.1 ▸ hle)

instance view : BackendView LogFile where
  held b := b.content
  Intact := Whole
  Sound := Whole

instance : LawfulBackend LogFile where
  toBackendView := view
  intact_of_sound h := h
  size h := .of_exec (exec_size h) h rfl id
  read h _ _ hle := .of_exec (exec_read h hle) h rfl id
  append {b} h data := by
    obtain ⟨stops, hexec, hstops⟩ := exec_append h data
    have hwhole : Whole ⟨b.content ++ data, b.size + data.length, stops⟩ := by
      refine ⟨?_, hstops⟩
      rw [List.length_append, h.1]
    exact .of_exec hexec hwhole rfl fun _ => hwhole
  flush h := .of_exec rfl h rfl id
  sync h := .of_exec rfl h rfl id
  truncate {b} h newSize hle := by
    have hwhole : Whole ⟨b.content.take newSize, newSize, b.stops⟩ :=
      ⟨(List.length_take_of_le hle).symm, h.2⟩
    exact .of_exec (exec_truncate h hle) hwhole rfl fun _ => hwhole

end LogFile

/-! ### With failing calls -/

namespace Faulty

variable {β : Type} [Backend β] [LawfulBackend β]

instance view : BackendView (Faulty β) where
  held b := held b.inner
  Intact b := Intact b.inner
  Sound b := Sound b.inner ∧ ∀ call, b.failures call = 0

omit [Backend β] [LawfulBackend β] in
theorem exec_guarded_of_zero {α : Type} {call : BackendCall} {b : Faulty β}
    (hf : b.failures call = 0) (step : Action β StorageError α) :
    (guarded call step).exec b =
      ((step.exec b.inner).1, { b with inner := (step.exec b.inner).2 }) := by
  rw [guarded, exec_bind_ok (exec_get b), hf]
  show ((step.exec b.inner).1.mapError id, _) = _
  cases (step.exec b.inner).1 <;> rfl

omit [Backend β] [LawfulBackend β] in
theorem exec_guarded_of_succ {α : Type} {call : BackendCall} {b : Faulty β} {n : Nat}
    (hf : b.failures call = n + 1) (step : Action β StorageError α) :
    (guarded call step).exec b = (.error (.io (.injected call)), b.fail call n) := by
  rw [guarded, exec_bind_ok (exec_get b), hf]
  rfl

theorem carries_guarded {α : Type} {call : BackendCall} {step : Action β StorageError α}
    {b : Faulty β} {answer : α} {after : Bytes} (hi : Intact b.inner)
    (h : Carries step b.inner answer after) : Carries (guarded call step) b answer after := by
  cases hf : b.failures call with
  | zero =>
      have hexec := exec_guarded_of_zero hf step
      rcases h.cases with ⟨b', hb', hi', hc, hs⟩ | ⟨e, b', hb', hi', hc, hs⟩ <;> rw [hb'] at hexec
      · exact .of_exec hexec hi' hc fun ⟨hb, hall⟩ => ⟨hs hb, hall⟩
      · exact ⟨by rw [hexec]; exact hi', .inr ⟨e, by rw [hexec], by rw [hexec]; exact hc⟩,
          fun hb => absurd hb.1 hs⟩
  | succ n =>
      have hexec := exec_guarded_of_succ hf step
      refine ⟨by rw [hexec]; exact hi, .inr ⟨_, by rw [hexec], by rw [hexec]; rfl⟩, fun hb => ?_⟩
      rw [hb.2 call] at hf
      cases hf

instance : LawfulBackend (Faulty β) where
  toBackendView := view
  intact_of_sound h := LawfulBackend.intact_of_sound h.1
  size hi := carries_guarded hi (LawfulBackend.size hi)
  read hi offset len hle := carries_guarded hi (LawfulBackend.read hi offset len hle)
  append hi data := carries_guarded hi (LawfulBackend.append hi data)
  flush hi := carries_guarded hi (LawfulBackend.flush hi)
  sync hi := carries_guarded hi (LawfulBackend.sync hi)
  truncate hi newSize hle := carries_guarded hi (LawfulBackend.truncate hi newSize hle)

end Faulty

end Rollup
