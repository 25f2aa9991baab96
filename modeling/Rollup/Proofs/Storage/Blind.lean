import Rollup.Proofs.Storage.Table

/-!
# Blind steps — what a transaction did so far does not matter

A step of a transaction reads what the transaction shows, never the list of its operations, and it
drops no tree.  So on two transactions that show the same it has the same answer, and they show the
same afterwards (`Blind`).  The writes of tables are made of such steps (`blind_insert`,
`blind_delete`).
-/

namespace Rollup

open Rollup.Action

namespace Transaction

variable {α β : Type}

/-- Two transactions show the same, these trees among it. -/
structure Showing (trees : String → Prop) (t t' : Transaction) : Prop where
  working : t'.working = t.working
  trees : ∀ n, trees n → t.working.hasTree n = true

/-- A step that does the same where the same is shown, and drops no tree. -/
def Blind (step : Step α) : Prop :=
  ∀ trees t t', Showing trees t t' → Agrees (Showing trees) (step.exec t) (step.exec t')

variable {trees : String → Prop} {t t' : Transaction}

/-- What changes the working snapshots alike, and drops no tree. -/
theorem Showing.next (h : Showing trees t t') {u u' : Transaction}
    (hworking : u'.working = u.working)
    (hle : ∀ n, t.working.hasTree n = true → u.working.hasTree n = true) : Showing trees u u' :=
  ⟨hworking, fun n hn => hle n (h.trees n hn)⟩

theorem blind_pure (a : α) : Blind (pure a) := fun _ _ _ h => ⟨rfl, h⟩

theorem blind_throw (e : StorageError) : Blind (throw e : Step α) := fun _ _ _ h => ⟨rfl, h⟩

theorem blind_lift (answer : Except StorageError α) : Blind (lift answer) := fun _ _ _ h => ⟨rfl, h⟩

theorem Blind.bind {x : Step α} {f : α → Step β} (hx : Blind x) (hf : ∀ a, Blind (f a)) :
    Blind (x >>= f) := fun trees t t' h => Agrees.bind (hx trees t t' h) fun a => hf a trees

theorem Blind.ite {p : Prop} [Decidable p] {x y : Step α} (hx : Blind x) (hy : Blind y) :
    Blind (if p then x else y) := by
  split
  · exact hx
  · exact hy

theorem blind_forM {l : List α} {f : α → Step PUnit} (hf : ∀ a, Blind (f a)) :
    Blind (l.forM f) := by
  induction l with
  | nil => exact blind_pure _
  | cons a l ih => exact (hf a).bind fun _ => ih

theorem blind_view (read : Snapshot → Except StorageError α) : Blind (view read) :=
  fun _ t t' h => by
    rw [exec_view, exec_view, h.working]
    exact ⟨rfl, h⟩

theorem blind_put (tree : String) (key value : Bytes) : Blind (put tree key value) :=
  fun _ t t' h => by
    rw [exec_put, exec_put, h.working]
    split
    · exact ⟨rfl, h.next (by rw [working_putAt, working_putAt, h.working])
        fun n hn => by rw [working_putAt, Snapshot.hasTree_put, hn]⟩
    · exact ⟨rfl, h⟩

theorem blind_delete (tree : String) (key : Bytes) : Blind (delete tree key) :=
  fun _ t t' h => by
    rw [exec_delete, exec_delete, h.working]
    split
    · exact ⟨rfl, h.next (by rw [working_removeAt, working_removeAt, h.working])
        fun n hn => by rw [working_removeAt, Snapshot.hasTree_remove, hn]⟩
    · exact ⟨rfl, h⟩

end Transaction

namespace TableSchema

open Transaction

theorem blind_insert (table : TableSchema) (row : Row) : Blind (table.insert row) := by
  have hentries : ∀ key values, Blind
      ((table.indexes.zip values).forM fun e => table.insertEntry key e.1 e.2) := fun key values =>
    blind_forM fun e => (blind_lift _).bind fun _ => blind_put _ _ _
  refine (blind_lift _).bind fun key => (blind_lift _).bind fun values =>
    (blind_view _).bind fun present => .ite ((blind_throw _).bind fun _ => ?_) ?_ <;>
  exact (blind_lift _).bind fun _ => (blind_put _ _ _).bind fun _ => hentries key values

theorem blind_delete (table : TableSchema) (key : Bytes) : Blind (table.delete key) := by
  refine (blind_view _).bind fun found => ?_
  cases found with
  | none => exact blind_pure _
  | some row =>
      exact (blind_forM fun _ => (blind_lift _).bind fun _ =>
        (Transaction.blind_delete _ _).bind fun _ => blind_pure _).bind fun _ =>
        Transaction.blind_delete _ _

end TableSchema

end Rollup
