import Rollup.Proofs.Action
import Rollup.Proofs.Except
import Rollup.Proofs.Storage.Snapshot
import Rollup.Storage.Transaction

/-!
# Transactions — the operations tell the working snapshot

Each write either finds its tree and leaves a transaction that can be named (`putAt`, `removeAt`,
`openedAt`), or does nothing.  A transaction is *faithful* to a base when its operations, applied
to the base, give its working snapshot (`Faithful`); every write keeps it so, which is why a log
of operations can be replayed.

Replaying needs no more than the trees: what can be applied to one snapshot can be applied to each
that has at least its trees (`applyAll_of_hasTree_le`).
-/

namespace Rollup

namespace Operation

theorem apply_put (s : Snapshot) (tree : String) (key value : Bytes) :
    apply s (.put tree key value) =
      if s.hasTree tree then .ok (s.put tree key value) else .error (.noTree tree) :=
  s.withTree_insert tree key value

theorem apply_delete (s : Snapshot) (tree : String) (key : Bytes) :
    apply s (.delete tree key) =
      if s.hasTree tree then .ok (s.remove tree key) else .error (.noTree tree) :=
  s.withTree_erase tree key

theorem applyAll_cons (s : Snapshot) (op : Operation) (ops : List Operation) :
    applyAll s (op :: ops) = apply s op >>= fun t => applyAll t ops := rfl

theorem applyAll_append (s : Snapshot) (ops later : List Operation) :
    applyAll s (ops ++ later) = applyAll s ops >>= fun t => applyAll t later :=
  List.foldlM_append

/-- No operation takes a tree away. -/
theorem hasTree_of_apply {s t : Snapshot} {op : Operation} (h : apply s op = .ok t) {n : String}
    (hn : s.hasTree n = true) : t.hasTree n = true := by
  cases op with
  | createTree tree =>
      cases h
      simp [hn]
  | put tree key value =>
      rw [apply_put] at h
      split at h
      · cases h; simpa using hn
      · cases h
  | delete tree key =>
      rw [apply_delete] at h
      split at h
      · cases h; simpa using hn
      · cases h

theorem hasTree_of_applyAll {ops : List Operation} {s t : Snapshot} (h : applyAll s ops = .ok t)
    {n : String} (hn : s.hasTree n = true) : t.hasTree n = true := by
  induction ops generalizing s with
  | nil => cases h; exact hn
  | cons op ops ih =>
      rw [applyAll_cons, bind_eq_ok_iff] at h
      obtain ⟨s₁, h₁, h⟩ := h
      exact ih h (hasTree_of_apply h₁ hn)

/-- What an operation does to a key of a tree. -/
theorem cell_cases {s t : Snapshot} {op : Operation} (h : apply s op = .ok t) (n : String)
    (k : Bytes) : t.cell n k = s.cell n k ∨ (∃ v, op = .put n k v ∧ t.cell n k = some v) ∨
      op = .delete n k ∧ t.cell n k = none := by
  cases op with
  | createTree tree =>
      cases h
      exact .inl (s.cell_addTree tree n k)
  | put tree key value =>
      rw [apply_put] at h
      split at h
      · next htree =>
        cases h
        rw [Snapshot.cell_put htree]
        split
        · next e =>
          obtain ⟨rfl, rfl⟩ := e
          exact .inr (.inl ⟨value, rfl, rfl⟩)
        · exact .inl rfl
      · cases h
  | delete tree key =>
      rw [apply_delete] at h
      split at h
      · cases h
        rw [Snapshot.cell_remove]
        split
        · next e =>
          obtain ⟨rfl, rfl⟩ := e
          exact .inr (.inr ⟨rfl, rfl⟩)
        · exact .inl rfl
      · cases h

/-- What is in a tree was there before, or the operation put it there. -/
theorem cell_of_apply {s t : Snapshot} {op : Operation} (h : apply s op = .ok t) {n : String}
    {k v : Bytes} (hv : t.cell n k = some v) : s.cell n k = some v ∨ op = .put n k v := by
  rcases cell_cases h n k with hsame | ⟨v', rfl, hput⟩ | ⟨-, hnone⟩
  · exact .inl (hsame ▸ hv)
  · rw [hput] at hv
    cases hv
    exact .inr rfl
  · rw [hnone] at hv
    cases hv

theorem cell_of_applyAll {ops : List Operation} {s t : Snapshot} (h : applyAll s ops = .ok t)
    {n : String} {k v : Bytes} (hv : t.cell n k = some v) :
    s.cell n k = some v ∨ .put n k v ∈ ops := by
  induction ops generalizing s with
  | nil => cases h; exact .inl hv
  | cons op ops ih =>
      rw [applyAll_cons, bind_eq_ok_iff] at h
      obtain ⟨s₁, h₁, h⟩ := h
      rcases ih h with hs₁ | hmem
      · rcases cell_of_apply h₁ hs₁ with hs | rfl
        · exact .inl hs
        · exact .inr List.mem_cons_self
      · exact .inr (List.mem_cons_of_mem _ hmem)

/-- What can be applied to a snapshot can be applied to one with more trees. -/
theorem apply_of_hasTree_le {s s' t : Snapshot} {op : Operation} (h : apply s op = .ok s')
    (hle : ∀ n, s.hasTree n = true → t.hasTree n = true) :
    ∃ t', apply t op = .ok t' ∧ ∀ n, s'.hasTree n = true → t'.hasTree n = true := by
  cases op with
  | createTree tree =>
      cases h
      refine ⟨_, rfl, fun n hn => ?_⟩
      rw [Snapshot.hasTree_addTree, Bool.or_eq_true] at hn ⊢
      exact hn.imp_right (hle n)
  | put tree key value =>
      rw [apply_put] at h ⊢
      split at h
      · next htree =>
        cases h
        rw [if_pos (hle tree htree)]
        exact ⟨_, rfl, fun n hn => by simpa using hle n (by simpa using hn)⟩
      · cases h
  | delete tree key =>
      rw [apply_delete] at h ⊢
      split at h
      · next htree =>
        cases h
        rw [if_pos (hle tree htree)]
        exact ⟨_, rfl, fun n hn => by simpa using hle n (by simpa using hn)⟩
      · cases h

theorem applyAll_of_hasTree_le {ops : List Operation} {s s' t : Snapshot}
    (h : applyAll s ops = .ok s') (hle : ∀ n, s.hasTree n = true → t.hasTree n = true) :
    ∃ t', applyAll t ops = .ok t' ∧ ∀ n, s'.hasTree n = true → t'.hasTree n = true := by
  induction ops generalizing s t with
  | nil => cases h; exact ⟨t, rfl, hle⟩
  | cons op ops ih =>
      rw [applyAll_cons, bind_eq_ok_iff] at h
      obtain ⟨s₁, h₁, h⟩ := h
      obtain ⟨t₁, ht₁, hle₁⟩ := apply_of_hasTree_le h₁ hle
      obtain ⟨t', ht', hle'⟩ := ih h hle₁
      exact ⟨t', by rw [applyAll_cons, ht₁]; exact ht', hle'⟩

end Operation

namespace Transaction

open Rollup.Action

/-! ### The writes -/

/-- The transaction after an entry was put into a tree that exists. -/
def putAt (txn : Transaction) (tree : String) (key value : Bytes) : Transaction :=
  ⟨txn.working.put tree key value, txn.ops.push (.put tree key value)⟩

/-- The transaction after an entry was removed, if it was there. -/
def removeAt (txn : Transaction) (tree : String) (key : Bytes) : Transaction :=
  if (txn.working.cell tree key).isNone then txn
  else ⟨txn.working.remove tree key, txn.ops.push (.delete tree key)⟩

/-- The transaction after a tree was added, unless it was there. -/
def openedAt (txn : Transaction) (tree : String) : Transaction :=
  if txn.working.hasTree tree then txn
  else ⟨txn.working.addTree tree, txn.ops.push (.createTree tree)⟩

@[simp] theorem working_putAt (txn : Transaction) (tree : String) (key value : Bytes) :
    (txn.putAt tree key value).working = txn.working.put tree key value := rfl

@[simp] theorem working_removeAt (txn : Transaction) (tree : String) (key : Bytes) :
    (txn.removeAt tree key).working = txn.working.remove tree key := by
  rw [removeAt]
  split
  · next h => rw [Snapshot.remove_eq_self (Option.isNone_iff_eq_none.1 h)]
  · rfl

@[simp] theorem working_openedAt (txn : Transaction) (tree : String) :
    (txn.openedAt tree).working = txn.working.addTree tree := by
  rw [openedAt]
  split
  · next h => rw [Snapshot.addTree, if_pos h]
  · rfl

theorem exec_createTree (txn : Transaction) (tree : String) :
    (createTree tree).exec txn = (.ok (!txn.working.hasTree tree), txn.openedAt tree) := by
  rw [createTree, exec_bind_ok (exec_get txn), openedAt]
  split
  · next h => rw [h]; rfl
  · next h => rw [Bool.eq_false_iff.2 h]; rfl

theorem exec_put (txn : Transaction) (tree : String) (key value : Bytes) :
    (put tree key value).exec txn =
      if txn.working.hasTree tree then (.ok (), txn.putAt tree key value)
      else (.error (.noTree tree), txn) := by
  rw [put, exec_bind_ok (exec_get txn), Snapshot.withTree_insert]
  split <;> rfl

theorem exec_delete (txn : Transaction) (tree : String) (key : Bytes) :
    (delete tree key).exec txn =
      if txn.working.hasTree tree then
        (.ok (txn.working.cell tree key).isSome, txn.removeAt tree key)
      else (.error (.noTree tree), txn) := by
  rw [delete, exec_bind_ok (exec_get txn), Snapshot.lookup_eq, Snapshot.withTree_erase, removeAt]
  split
  · cases h : txn.working.cell tree key <;> rfl
  · rfl

theorem exec_view {α : Type} (read : Snapshot → Except StorageError α) (txn : Transaction) :
    (view read).exec txn = (read txn.working, txn) := rfl

/-! ### Faithful transactions -/

/-- The operations, applied to the base, give the working snapshot. -/
def Faithful (base : Snapshot) (txn : Transaction) : Prop :=
  Operation.applyAll base txn.ops.toList = .ok txn.working

theorem faithful_on (s : Snapshot) : Faithful s (.on s) := rfl

/-- A transaction that did nothing shows its base. -/
theorem Faithful.working_eq {base : Snapshot} {txn : Transaction} (h : Faithful base txn)
    (hops : txn.ops.isEmpty = true) : txn.working = base := by
  rw [Faithful, Array.isEmpty_iff.1 hops] at h
  cases h
  rfl

theorem Faithful.push {base s : Snapshot} {txn : Transaction} {op : Operation}
    (h : Faithful base txn) (hop : Operation.apply txn.working op = .ok s) :
    Faithful base ⟨s, txn.ops.push op⟩ := by
  rw [Faithful, Array.toList_push, Operation.applyAll_append, h]
  show Operation.applyAll txn.working [op] = _
  rw [Operation.applyAll_cons, hop]
  rfl

/-- A property of transactions that every allowed operation keeps. -/
structure Kept (may : Operation → Prop) (P : Transaction → Prop) : Prop where
  push : ∀ {txn op s}, may op → Operation.apply txn.working op = .ok s → P txn →
    P ⟨s, txn.ops.push op⟩

theorem kept_faithful (base : Snapshot) : Kept (fun _ => True) (Faithful base) where
  push _ hop h := h.push hop

/-- What a transaction did stays on its list. -/
theorem kept_mem (op : Operation) : Kept (fun _ => True) fun txn => op ∈ txn.ops.toList where
  push _ _ h := by simpa using Or.inl (Array.mem_toList_iff.1 h)

namespace Kept

variable {may : Operation → Prop} {P : Transaction → Prop} {txn : Transaction}

theorem mono (hP : Kept may P) {may' : Operation → Prop} (hmay : ∀ op, may' op → may op) :
    Kept may' P := ⟨fun hop => hP.push (hmay _ hop)⟩

theorem opened (hP : Kept may P) {tree : String} (hm : may (.createTree tree)) (h : P txn) :
    P (txn.openedAt tree) := by
  rw [openedAt]
  split
  · exact h
  · exact hP.push hm rfl h

theorem put (hP : Kept may P) {tree : String} {key value : Bytes} (hm : may (.put tree key value))
    (htree : txn.working.hasTree tree = true) (h : P txn) : P (txn.putAt tree key value) :=
  hP.push hm (by rw [Operation.apply_put, if_pos htree]) h

theorem removed (hP : Kept may P) {tree : String} {key : Bytes} (hm : may (.delete tree key))
    (htree : txn.working.hasTree tree = true) (h : P txn) : P (txn.removeAt tree key) := by
  rw [removeAt]
  split
  · exact h
  · exact hP.push hm (by rw [Operation.apply_delete, if_pos htree]) h

theorem createTree (hP : Kept may P) {tree : String} (hm : may (.createTree tree)) :
    Preserves P (createTree tree) := by
  intro txn h
  rw [exec_createTree]
  exact hP.opened hm h

theorem putStep (hP : Kept may P) {tree : String} {key value : Bytes}
    (hm : may (.put tree key value)) : Preserves P (Transaction.put tree key value) := by
  intro txn h
  rw [exec_put]
  split
  · next htree => exact hP.put hm htree h
  · exact h

theorem deleteStep (hP : Kept may P) {tree : String} {key : Bytes} (hm : may (.delete tree key)) :
    Preserves P (Transaction.delete tree key) := by
  intro txn h
  rw [exec_delete]
  split
  · next htree => exact hP.removed hm htree h
  · exact h

end Kept

theorem preserves_view {α : Type} {P : Transaction → Prop}
    (read : Snapshot → Except StorageError α) : Preserves P (view read) := fun _ h => h

end Transaction

end Rollup
