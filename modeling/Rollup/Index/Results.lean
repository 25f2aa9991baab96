import Rollup.Action
import Rollup.Index.Error
import Rollup.OrderedMap
import Rollup.Value

/-!
# Results

Where the reduced outputs of an index go.  A batch sends deliveries: the result of a group is taken
back, or a new one is written.
-/

namespace Rollup

inductive Delivery where
  | retract (hash : GroupHash)
  | write (hash : GroupHash) (output : Value)
deriving DecidableEq

/-- A receiver of deliveries with a state; it may refuse one. -/
structure Sink (σ : Type) where
  deliver : Delivery → Action σ IndexError Unit

/-- The outputs written and not taken back, by hash, and how many deliveries took one back. -/
structure ResultStore where
  results : OrderedMap GroupHash Value
  retractions : Nat
deriving Inhabited

namespace ResultStore

def empty : ResultStore := ⟨.empty, 0⟩

/-- The store after a delivery. -/
def accept (store : ResultStore) : Delivery → ResultStore
  | .retract hash => ⟨store.results.erase hash, store.retractions + 1⟩
  | .write hash output => ⟨store.results.insert hash output, store.retractions⟩

/-- A store takes every delivery. -/
def sink : Sink ResultStore := ⟨fun d => modify (·.accept d)⟩

end ResultStore

/-- Every delivery so far, in order, and the store behind it. -/
structure Recording (σ : Type) where
  calls : Array Delivery
  inner : σ

namespace Recording

variable {σ : Type}

def on (inner : σ) : Recording σ := ⟨#[], inner⟩

/-- The groups whose results were taken back, in order. -/
def retracted (r : Recording σ) : List GroupHash :=
  r.calls.toList.filterMap fun
    | .retract hash => some hash
    | .write _ _ => none

/-- Records each delivery and passes it on; the one numbered `failAt`, counted from one, is
refused instead. -/
def sink (failAt : Option Nat) (inner : Sink σ) : Sink (Recording σ) where
  deliver d := do
    modify fun r => { r with calls := r.calls.push d }
    if some (← get).calls.size = failAt then throw (.refused (.results "writer failed"))
    (inner.deliver d).within (·.inner) (fun inner r => { r with inner }) id

end Recording

/-- A receiver that keeps nothing. -/
def Sink.discard : Sink Unit := ⟨fun _ => pure ()⟩

end Rollup
