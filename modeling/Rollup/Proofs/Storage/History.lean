import Rollup.Proofs.Storage.Environment

/-!
# Histories — runs of write transactions

A *script* is what a writer does with one transaction: its calls, whatever they answer, and how it
ends.  A run of scripts leaves two lists of transactions: those that were *published*, whose
commit succeeded, and those that were *recorded*, whose record is in the log.  They differ by the
stranded ones, whose commit failed behind its record.

`Ends` collects what a run comes to.  It holds of one commit (`commit_ends`) and of two runs in a
row (`Ends.trans`), so of every run (`playAll_ends`).
-/

namespace Rollup

open Rollup.Action BackendView

namespace Transaction

/-! ### Scripts -/

/-- A call of a write transaction. -/
inductive Call where
  | createTree (tree : String)
  | put (tree : String) (key value : Bytes)
  | delete (tree : String) (key : Bytes)
deriving DecidableEq, Repr

/-- The transaction after a call, whatever the call answered. -/
def call (txn : Transaction) : Call → Transaction
  | .createTree tree => ((createTree tree).exec txn).2
  | .put tree key value => ((put tree key value).exec txn).2
  | .delete tree key => ((delete tree key).exec txn).2

theorem Kept.call {P : Transaction → Prop} (hP : Kept (fun _ => True) P) {txn : Transaction}
    (h : P txn) (c : Call) : P (txn.call c) := by
  cases c with
  | createTree tree => exact hP.createTree trivial txn h
  | put tree key value => exact hP.putStep trivial txn h
  | delete tree key => exact hP.deleteStep trivial txn h

/-- How a transaction ends; a commit is synced or not. -/
inductive Ending where
  | commit (sync : Bool)
  | drop
deriving DecidableEq, Repr

/-- What a writer does with a transaction. -/
structure Script where
  calls : List Call
  ending : Ending
deriving DecidableEq, Repr

/-- The transaction when it is about to end. -/
def Script.run (script : Script) (txn : Transaction) : Transaction := script.calls.foldl call txn

theorem Script.run_faithful (script : Script) (s : Snapshot) :
    Faithful s (script.run (.on s)) := by
  suffices ∀ (calls : List Call) (txn : Transaction), Faithful s txn →
      Faithful s (calls.foldl call txn) from this _ _ (faithful_on s)
  intro calls
  induction calls with
  | nil => exact fun _ h => h
  | cons c calls ih => exact fun txn h => ih _ ((kept_faithful s).call h c)

/-- The snapshot after a script, as long as nothing fails but a record that cannot be written. -/
def Script.applied (script : Script) (s : Snapshot) : Snapshot :=
  let txn := script.run (.on s)
  match script.ending, Record.encode txn.ops.toList with
  | .commit _, .ok _ => txn.working
  | _, _ => s

/-! ### Transactions one on top of the other -/

/-- The operations of transactions, in order. -/
def allOps (txns : List Transaction) : List (List Operation) := txns.map (·.ops.toList)

theorem flatten_allOps_singleton (txn : Transaction) :
    (allOps [txn]).flatten = txn.ops.toList := by
  rw [allOps, List.map_singleton, List.flatten_singleton]

/-- The snapshot that the last of some transactions leaves. -/
def lastOf (s : Snapshot) (txns : List Transaction) : Snapshot :=
  txns.foldl (fun _ txn => txn.working) s

/-- Each transaction was begun on what the one before left. -/
inductive Stacked : Snapshot → List Transaction → Prop where
  | nil (s : Snapshot) : Stacked s []
  | cons {s : Snapshot} {txn : Transaction} {txns : List Transaction} (h : Faithful s txn)
      (t : Stacked txn.working txns) : Stacked s (txn :: txns)

theorem Stacked.append {s : Snapshot} {txns later : List Transaction} (h : Stacked s txns)
    (h' : Stacked (lastOf s txns) later) : Stacked s (txns ++ later) := by
  induction h with
  | nil => exact h'
  | cons h _ ih => exact .cons h (ih h')

theorem Stacked.take {s : Snapshot} {txns : List Transaction} (h : Stacked s txns) (m : Nat) :
    Stacked s (txns.take m) := by
  induction h generalizing m with
  | nil => rw [List.take_nil]; exact .nil _
  | cons h _ ih =>
      cases m with
      | zero => exact .nil _
      | succ m => exact .cons h (ih m)

/-- **Replaying transactions** that are stacked leaves what the last of them left. -/
theorem Stacked.replay {s : Snapshot} {txns : List Transaction} (h : Stacked s txns) :
    Operation.applyAll s (allOps txns).flatten = .ok (lastOf s txns) := by
  induction h with
  | nil => rfl
  | cons h _ ih =>
      rw [allOps, List.map_cons, List.flatten_cons, Operation.applyAll_append, h]
      exact ih

theorem lastOf_take {s : Snapshot} {txns : List Transaction} {m : Nat} (h : m ≤ txns.length) :
    (s :: txns.map working)[m]? = some (lastOf s (txns.take m)) := by
  induction txns generalizing s m with
  | nil =>
      cases Nat.le_zero.1 h
      rfl
  | cons txn txns ih =>
      cases m with
      | zero => rfl
      | succ m => exact ih (Nat.le_of_succ_le_succ h)

end Transaction

/-! ### Runs -/

open Transaction

namespace Environment

variable {β : Type} [Backend β]

/-- The store after a script. -/
def play (env : Environment β) (script : Script) : Environment β :=
  match script.ending with
  | .commit sync => ((commit (script.run env.begin) sync).exec env).2
  | .drop => env

def playAll (env : Environment β) (scripts : List Script) : Environment β :=
  scripts.foldl play env

/-- What became of a transaction that has ended. -/
inductive Fate where
  /-- It was dropped, or there was nothing to write. -/
  | idle
  | published (txn : Transaction)
  /-- The commit failed and left the log as it was. -/
  | refused (txn : Transaction)
  /-- The commit failed, and the log has its record. -/
  | stranded (txn : Transaction)

namespace Fate

/-- The transaction, if it was published. -/
def effective : Fate → List Transaction
  | .published txn => [txn]
  | _ => []

/-- The transaction, if the log has its record. -/
def recorded : Fate → List Transaction
  | .published txn | .stranded txn => [txn]
  | _ => []

end Fate

variable [LawfulBackend β]

/-- What becomes of a transaction that is committed. -/
def commitFate (env : Environment β) (txn : Transaction) (sync : Bool) : Fate :=
  if txn.ops.isEmpty then .idle
  else
    match (commit txn sync).exec env with
    | (.ok _, _) => .published txn
    | (.error _, env') =>
      if held env'.log.backend = held env.log.backend then .refused txn else .stranded txn

/-- What becomes of the transaction of a script. -/
def fate (env : Environment β) (script : Script) : Fate :=
  match script.ending with
  | .commit sync => env.commitFate (script.run env.begin) sync
  | .drop => .idle

/-- What becomes of the transactions of a run. -/
def fates (env : Environment β) : List Script → List Fate
  | [] => []
  | script :: scripts => env.fate script :: fates (env.play script) scripts

/-- The transactions of a run that were published. -/
def effective (env : Environment β) (scripts : List Script) : List Transaction :=
  (env.fates scripts).flatMap Fate.effective

/-- The transactions of a run whose records are in the log. -/
def recorded (env : Environment β) (scripts : List Script) : List Transaction :=
  (env.fates scripts).flatMap Fate.recorded

/-- What a run comes to, by the transactions recorded and published. -/
structure Ends (env env' : Environment β) (recorded effective : List Transaction) : Prop where
  intact : Intact env'.log.backend
  grown : ∃ forms, Record.Encoded (allOps recorded) forms ∧
    held env'.log.backend = held env.log.backend ++ forms.flatten
  committed : env'.committed = lastOf env.committed effective
  commits : env'.commits = env.commits + effective.length
  stacked : Stacked env.committed effective
  /-- What is recorded can be replayed on every snapshot that has the trees of this store. -/
  replays : ∀ s : Snapshot, (∀ n, env.committed.hasTree n = true → s.hasTree n = true) →
    ∃ s', Operation.applyAll s (allOps recorded).flatten = .ok s' ∧
      ∀ n, env'.committed.hasTree n = true → s'.hasTree n = true
  sound : Sound env.log.backend → Sound env'.log.backend ∧ recorded = effective

namespace Ends

theorem refl {env : Environment β} (hi : Intact env.log.backend) : Ends env env [] [] where
  intact := hi
  grown := ⟨[], .nil, (List.append_nil _).symm⟩
  committed := rfl
  commits := rfl
  stacked := .nil _
  replays s h := ⟨s, rfl, h⟩
  sound h := ⟨h, rfl⟩

theorem trans {env env₁ env₂ : Environment β} {rs rs' es es' : List Transaction}
    (h : Ends env env₁ rs es) (h' : Ends env₁ env₂ rs' es') :
    Ends env env₂ (rs ++ rs') (es ++ es') where
  intact := h'.intact
  grown := by
    obtain ⟨forms, hforms, hc⟩ := h.grown
    obtain ⟨forms', hforms', hc'⟩ := h'.grown
    refine ⟨forms ++ forms', ?_, by rw [hc', hc, List.flatten_append, List.append_assoc]⟩
    rw [allOps, List.map_append]
    exact List.rel_append hforms hforms'
  committed := by rw [h'.committed, h.committed, lastOf, lastOf, lastOf, List.foldl_append]
  commits := by rw [h'.commits, h.commits, List.length_append, Nat.add_assoc]
  stacked := h.stacked.append (h.committed ▸ h'.stacked)
  replays s hs := by
    obtain ⟨s₁, h₁, hs₁⟩ := h.replays s hs
    obtain ⟨s₂, h₂, hs₂⟩ := h'.replays s₁ hs₁
    refine ⟨s₂, ?_, hs₂⟩
    rw [allOps, List.map_append, List.flatten_append, Operation.applyAll_append]
    exact bind_eq_ok_iff.2 ⟨s₁, h₁, h₂⟩
  sound hs := by
    obtain ⟨hs₁, rfl⟩ := h.sound hs
    obtain ⟨hs₂, rfl⟩ := h'.sound hs₁
    exact ⟨hs₂, rfl⟩

end Ends

/-- A commit that succeeded. -/
theorem ends_publish {env : Environment β} {b' : β} {txn : Transaction} {form : Bytes}
    (hi : Intact b') (hform : Record.encode txn.ops.toList = .ok form)
    (hc : held b' = held env.log.backend ++ form) (hs : Sound env.log.backend → Sound b')
    (hf : Faithful env.committed txn) : Ends env (env.publish b' txn) [txn] [txn] where
  intact := hi
  grown := ⟨[form], .cons hform .nil, by simpa [publish] using hc⟩
  committed := rfl
  commits := rfl
  stacked := .cons hf (.nil _)
  replays s hle := by
    rw [flatten_allOps_singleton]
    exact Operation.applyAll_of_hasTree_le hf hle
  sound h := ⟨hs h, rfl⟩

/-- A commit that failed behind its record. -/
theorem ends_strand {env : Environment β} {b' : β} {txn : Transaction} {form : Bytes}
    (hi : Intact b') (hform : Record.encode txn.ops.toList = .ok form)
    (hc : held b' = held env.log.backend ++ form) (hs : ¬ Sound env.log.backend)
    (hf : Faithful env.committed txn) : Ends env (env.withBackend b') [txn] [] where
  intact := hi
  grown := ⟨[form], .cons hform .nil, by simpa [withBackend] using hc⟩
  committed := rfl
  commits := rfl
  stacked := .nil _
  replays s hle := by
    rw [flatten_allOps_singleton]
    obtain ⟨s', hs', -⟩ := Operation.applyAll_of_hasTree_le hf hle
    exact ⟨s', hs', fun n hn => Operation.hasTree_of_applyAll hs' (hle n hn)⟩
  sound h := absurd h hs

/-- A commit that failed and left the log as it was. -/
theorem ends_refuse {env : Environment β} {b' : β} (hi : Intact b')
    (hc : held b' = held env.log.backend) (hs : ¬ Sound env.log.backend) :
    Ends env (env.withBackend b') [] [] where
  intact := hi
  grown := ⟨[], .nil, by simpa [withBackend] using hc⟩
  committed := rfl
  commits := rfl
  stacked := .nil _
  replays s hle := ⟨s, rfl, hle⟩
  sound h := absurd h hs

/-- **A commit.** -/
theorem commit_ends {env : Environment β} (hi : Intact env.log.backend) {txn : Transaction}
    (hf : Faithful env.committed txn) (sync : Bool) :
    Ends env ((commit txn sync).exec env).2 (env.commitFate txn sync).recorded
      (env.commitFate txn sync).effective := by
  rw [commitFate]
  cases hops : txn.ops.isEmpty with
  | true =>
      rw [commit_of_isEmpty hops]
      exact .refl hi
  | false =>
      rw [if_neg Bool.false_ne_true]
      rcases commit_cases hi hops sync with ⟨damage, -, h⟩ | ⟨form, b', hform, hi', h⟩
      · rw [h]
        simp only [if_true]
        exact .refl hi
      · have hne : held env.log.backend ++ form ≠ held env.log.backend := by
          simpa using Record.ne_nil_of_encode hform
        rcases h with ⟨h, hc, hs⟩ | ⟨⟨e, h⟩, hc | hc, hs⟩ <;> rw [h]
        · exact ends_publish hi' hform hc hs hf
        · simp only [withBackend, hc, if_true]
          exact ends_refuse hi' hc hs
        -- the record is there, so the log is not what it was
        · simp only [withBackend, hc, if_neg hne]
          exact ends_strand hi' hform hc hs hf

/-- **One script.** -/
theorem play_ends {env : Environment β} (hi : Intact env.log.backend) (script : Script) :
    Ends env (env.play script) (env.fate script).recorded (env.fate script).effective := by
  rw [play, fate]
  cases script.ending with
  | commit sync => exact commit_ends hi (script.run_faithful env.committed) sync
  | drop => exact .refl hi

/-- **A run of scripts.** -/
theorem playAll_ends {env : Environment β} (hi : Intact env.log.backend)
    (scripts : List Script) :
    Ends env (env.playAll scripts) (env.recorded scripts) (env.effective scripts) := by
  induction scripts generalizing env with
  | nil => exact .refl hi
  | cons script scripts ih =>
      have h := play_ends hi script
      exact h.trans (ih h.intact)

end Environment

end Rollup
