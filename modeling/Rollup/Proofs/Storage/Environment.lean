import Rollup.Proofs.Storage.Backend
import Rollup.Proofs.Storage.Record
import Rollup.Proofs.Storage.Transaction
import Rollup.Storage.Event

/-!
# Environments — what a commit leaves in the log, and what opening a log finds

Over a lawful backend a commit that writes comes to one of four ends (`commit_cases`): it succeeds,
its record is too long, the log is left as it was, or the record stays in the log and nothing is
published.  The last is what becomes of a failing `flush` or `sync`.

Opening a log that holds the first `k` bytes of some records finds those that lie entirely within
them, replays these and cuts off what is left of the next one (`openLog_cases`).
-/

namespace Rollup

open Rollup.Action BackendView

variable {β : Type} [Backend β]

namespace CommitLog

/-! ### Records -/

/-- The calls that bring a record into a log. -/
def write (record : Bytes) (sync : Bool) : Action β StorageError Unit := do
  let _ ← Backend.append record
  Backend.flush
  if sync then Backend.sync

section

variable [LawfulBackend β]

theorem carries_content {b : β} (hi : Intact b) :
    Carries CommitLog.content b (held b) (held b) := by
  refine (LawfulBackend.size hi).bind fun b' hi' hc => ?_
  have h := LawfulBackend.read hi' 0 (held b).length (by rw [hc]; omega)
  rw [List.drop_zero, hc, List.take_length] at h
  rwa [hc]

theorem carries_flushed {b : β} (hi : Intact b) (sync : Bool) :
    Carries (do Backend.flush; if sync then Backend.sync) b PUnit.unit (held b) := by
  refine (LawfulBackend.flush hi).bind fun b' hi' _ => ?_
  cases sync with
  | false => exact .of_exec rfl hi' rfl id
  | true => exact LawfulBackend.sync hi'

/-- A write that fails may have left the record behind. -/
theorem write_cases {b : β} (hi : Intact b) (record : Bytes) (sync : Bool) :
    (∃ b', (write record sync).exec b = (.ok (), b') ∧ Intact b' ∧
      held b' = held b ++ record ∧ (Sound b → Sound b')) ∨
    ∃ e b', (write record sync).exec b = (.error e, b') ∧ Intact b' ∧
      (held b' = held b ∨ held b' = held b ++ record) ∧ ¬ Sound b := by
  rcases (LawfulBackend.append hi record).cases with
    ⟨b₁, h₁, hi₁, hc₁, hs₁⟩ | ⟨e, b₁, h₁, hi₁, hc₁, hs₁⟩
  · rcases (carries_flushed hi₁ sync).cases with
      ⟨b₂, h₂, hi₂, hc₂, hs₂⟩ | ⟨e, b₂, h₂, hi₂, hc₂, hs₂⟩
    · exact .inl ⟨b₂, (exec_bind_ok h₁ _).trans h₂, hi₂, hc₂.trans hc₁, fun hs => hs₂ (hs₁ hs)⟩
    · exact .inr ⟨e, b₂, (exec_bind_ok h₁ _).trans h₂, hi₂, .inr (hc₂.trans hc₁),
        fun hs => hs₂ (hs₁ hs)⟩
  · exact .inr ⟨e, b₁, exec_bind_error h₁ _, hi₁, .inl hc₁, hs₁⟩

end

theorem exec_append_of_error {log : CommitLog β} {ops : List Operation} {damage : Damage}
    (h : Record.encode ops = .error damage) (sync : Bool) :
    (append ops sync).exec log = (.error (.corrupted damage), log) := by
  rw [append, h]
  rfl

theorem exec_append_of_ok {log : CommitLog β} {ops : List Operation} {form : Bytes}
    (h : Record.encode ops = .ok form) (sync : Bool) :
    (append ops sync).exec log = match (write form sync).exec log.backend with
      | (.ok _, backend) => (.ok (), ⟨backend, log.records + 1⟩)
      | (.error e, backend) => (.error e, ⟨backend, log.records⟩) := by
  rw [append, h]
  show ((write form sync).within CommitLog.backend (fun backend log => { log with backend }) id >>=
    fun _ => modify fun log => { log with records := log.records + 1 }).exec log = _
  rw [exec_bind, exec_within]
  rcases (write form sync).exec log.backend with ⟨_ | _, b⟩ <;> rfl

end CommitLog

namespace Environment

/-! ### Commits -/

theorem commit_of_isEmpty {txn : Transaction} (h : txn.ops.isEmpty = true) (sync : Bool)
    (env : Environment β) : (commit txn sync).exec env = (.ok (), env) := by
  rw [commit, h]
  rfl

theorem exec_commit_of_ops {txn : Transaction} (h : txn.ops.isEmpty = false) (sync : Bool)
    (env : Environment β) : (commit txn sync).exec env =
      match (CommitLog.append txn.ops.toList sync).exec env.log with
      | (.ok _, log) => (.ok (), { env with log, committed := txn.working })
      | (.error e, log) => (.error e, { env with log }) := by
  have hcommit : (commit txn sync).exec env =
      (((CommitLog.append txn.ops.toList sync).within (·.log)
          (fun log env => { env with log }) id >>= fun _ =>
        modify fun env => { env with committed := txn.working } :
        Action (Environment β) StorageError Unit)).exec env := by
    rw [commit, h]
    rfl
  rw [hcommit, exec_bind, exec_within]
  rcases (CommitLog.append txn.ops.toList sync).exec env.log with ⟨_ | _, log⟩ <;> rfl

/-- A commit publishes what its transaction shows, or nothing. -/
theorem committed_of_commit {env : Environment β} {txn : Transaction}
    (hf : Transaction.Faithful env.committed txn) (sync : Bool) :
    (((commit txn sync).exec env).1 = .ok () →
        ((commit txn sync).exec env).2.committed = txn.working) ∧
      ∀ e, ((commit txn sync).exec env).1 = .error e →
        ((commit txn sync).exec env).2.committed = env.committed := by
  cases hops : txn.ops.isEmpty with
  | true =>
      rw [commit_of_isEmpty hops, hf.working_eq hops]
      exact ⟨fun _ => rfl, fun _ _ => rfl⟩
  | false =>
      rw [exec_commit_of_ops hops]
      rcases (CommitLog.append txn.ops.toList sync).exec env.log with ⟨_ | _, log⟩
      · exact ⟨fun h => (by cases h), fun _ _ => rfl⟩
      · exact ⟨fun _ => rfl, fun _ h => (by cases h)⟩

/-- So either way one of the two is published afterwards. -/
theorem committed_commit {env : Environment β} {txn : Transaction}
    (hf : Transaction.Faithful env.committed txn) (sync : Bool) :
    ((commit txn sync).exec env).2.committed = txn.working ∨
      ((commit txn sync).exec env).2.committed = env.committed := by
  obtain ⟨hok, herror⟩ := committed_of_commit hf sync
  cases hanswer : ((commit txn sync).exec env).1 with
  | ok _ => exact .inl (hok hanswer)
  | error e => exact .inr (herror e hanswer)

/-- What was committed could be written. -/
theorem encode_of_commit {env : Environment β} {txn : Transaction} {sync : Bool}
    (hops : txn.ops.isEmpty = false) (h : ((commit txn sync).exec env).1 = .ok ()) :
    ∃ form, Record.encode txn.ops.toList = .ok form := by
  cases hform : Record.encode txn.ops.toList with
  | ok form => exact ⟨form, rfl⟩
  | error damage =>
      rw [exec_commit_of_ops hops, CommitLog.exec_append_of_error hform] at h
      cases h

/-- What it put into a tree fits the length field of its record. -/
theorem length_lt_of_commit {env : Environment β} {txn : Transaction} {sync : Bool}
    (hf : Transaction.Faithful env.committed txn) (h : ((commit txn sync).exec env).1 = .ok ())
    {n : String} {k v : Bytes} (hv : txn.working.cell n k = some v) :
    env.committed.cell n k = some v ∨ v.length < Bytes.capacity 4 := by
  cases hops : txn.ops.isEmpty with
  | true => exact .inl (by rwa [hf.working_eq hops] at hv)
  | false =>
      obtain ⟨form, hform⟩ := encode_of_commit hops h
      exact (Operation.cell_of_applyAll hf hv).imp_right (Record.length_lt_of_encode hform)

/-- The store with another log backend. -/
def withBackend (env : Environment β) (backend : β) : Environment β :=
  { env with log := { env.log with backend } }

/-- The store after the transaction's record was added and its snapshot published. -/
def publish (env : Environment β) (backend : β) (txn : Transaction) : Environment β :=
  { env with log := ⟨backend, env.log.records + 1⟩, committed := txn.working }

/-- A commit on a host is one on its store; events aside. -/
theorem exec_hostCommit (txn : Transaction) (sync : Bool) (host : Host β) :
    ∃ events, (Host.commit txn sync).exec host =
      (((commit txn sync).exec host.env).1, ⟨((commit txn sync).exec host.env).2, events⟩) := by
  rw [Host.commit, exec_bind, exec_within]
  rcases (commit txn sync).exec host.env with ⟨_ | _, env⟩
  · exact ⟨host.events, rfl⟩
  · cases txn.ops.isEmpty with
    | true => exact ⟨host.events, rfl⟩
    | false => exact ⟨_, rfl⟩

variable [LawfulBackend β]

/-- **The ends of a commit** that has something to write. -/
theorem commit_cases {env : Environment β} (hi : Intact env.log.backend) {txn : Transaction}
    (hops : txn.ops.isEmpty = false) (sync : Bool) :
    (∃ damage, Record.encode txn.ops.toList = .error damage ∧
      (commit txn sync).exec env = (.error (.corrupted damage), env)) ∨
    ∃ form b', Record.encode txn.ops.toList = .ok form ∧ Intact b' ∧
      ((commit txn sync).exec env = (.ok (), env.publish b' txn) ∧
          held b' = held env.log.backend ++ form ∧ (Sound env.log.backend → Sound b') ∨
        (∃ e, (commit txn sync).exec env = (.error e, env.withBackend b')) ∧
          (held b' = held env.log.backend ∨ held b' = held env.log.backend ++ form) ∧
          ¬ Sound env.log.backend) := by
  rw [exec_commit_of_ops hops]
  cases hform : Record.encode txn.ops.toList with
  | error damage =>
      refine .inl ⟨damage, rfl, ?_⟩
      rw [CommitLog.exec_append_of_error hform]
  | ok form =>
      rw [CommitLog.exec_append_of_ok hform]
      rcases CommitLog.write_cases hi form sync with
        ⟨b', h, hi', hc, hs⟩ | ⟨e, b', h, hi', hc, hs⟩ <;> rw [h]
      · exact .inr ⟨form, b', rfl, hi', .inl ⟨rfl, hc, hs⟩⟩
      · exact .inr ⟨form, b', rfl, hi', .inr ⟨⟨e, rfl⟩, hc, hs⟩⟩

/-- **When no call fails** a commit succeeds just when its record can be written. -/
theorem commit_ok_iff {env : Environment β} (hs : Sound env.log.backend) {txn : Transaction}
    {sync : Bool} : ((commit txn sync).exec env).1 = .ok () ↔
      ∃ form, Record.encode txn.ops.toList = .ok form := by
  cases hops : txn.ops.isEmpty with
  | true =>
      have hnil : txn.ops.toList = [] := by simpa using hops
      rw [commit_of_isEmpty hops, hnil]
      exact iff_of_true rfl ⟨_, rfl⟩
  | false =>
      refine ⟨encode_of_commit hops, fun ⟨form, hform⟩ => ?_⟩
      rcases commit_cases (LawfulBackend.intact_of_sound hs) hops sync with
        ⟨damage, hdamage, -⟩ | ⟨_, _, -, -, ⟨h, -⟩ | ⟨-, -, h⟩⟩
      · rw [hform] at hdamage
        cases hdamage
      · rw [h]
      · exact absurd hs h

/-- Then nothing else can go wrong. -/
theorem corrupted_of_commit {env : Environment β} (hs : Sound env.log.backend) {txn : Transaction}
    {sync : Bool} {e : StorageError} (h : ((commit txn sync).exec env).1 = .error e) :
    ∃ damage, e = .corrupted damage := by
  cases hops : txn.ops.isEmpty with
  | true =>
      rw [commit_of_isEmpty hops] at h
      cases h
  | false =>
      rcases commit_cases (LawfulBackend.intact_of_sound hs) hops sync with
        ⟨damage, -, hexec⟩ | ⟨_, _, -, -, ⟨hexec, -⟩ | ⟨-, -, hnot⟩⟩
      · rw [hexec] at h
        cases h
        exact ⟨damage, rfl⟩
      · rw [hexec] at h
        cases h
      · exact absurd hs hnot

/-! ### Opening -/

/-- Reads a log and scans it. -/
def load : Action β StorageError (Nat × Scan) := do
  let log ← CommitLog.content
  let scan ← Action.lift (Scan.ofLog 0 log)
  return (log.length, scan)

theorem carries_load {b : β} (hi : Intact b) {scan : Scan}
    (h : Scan.ofLog 0 (held b) = .ok scan) :
    Carries load b ((held b).length, scan) (held b) := by
  refine (CommitLog.carries_content hi).bind fun b' hi' _ => ?_
  rw [h]
  exact .of_exec rfl hi' rfl id

/-- What opening a log that was cut at `k` comes to.  It fails only when a call of the backend
does. -/
theorem openLog_cases {b : β} (hi : Intact b) {records : List (List Operation)}
    {forms : List Bytes} (hforms : Record.Encoded records forms) {k : Nat}
    (hc : held b = forms.flatten.take k) {s : Snapshot}
    (hs : Operation.applyAll .empty (records.take (Scan.wholeWithin k forms)).flatten = .ok s) :
    (∃ b', (openLog b).outcome = .ok ⟨⟨b', Scan.wholeWithin k forms⟩, s, none⟩ ∧
      (openLog b).backend = b' ∧ Intact b' ∧ (Sound b → Sound b') ∧
      held b' = (forms.take (Scan.wholeWithin k forms)).flatten) ∨
    (∃ e, (openLog b).outcome = .error e) ∧ ¬ Sound b := by
  generalize hm : Scan.wholeWithin k forms = m at hs
  have hlen : (records.take m).length = m := by
    rw [List.length_take, hforms.length_eq, Nat.min_eq_left (hm ▸ Scan.wholeWithin_le k forms)]
  have hreplay : ∀ b' : β, replay b' (records.take m) = .ok ⟨⟨b', m⟩, s, none⟩ := fun b' => by
    rw [replay, hs, hlen]
    rfl
  have hscan : Scan.ofLog 0 (held b) =
      .ok ⟨records.take m, (forms.take m).flatten.length⟩ := by
    rw [hc, Scan.ofLog_take hforms, hm, Nat.zero_add]
  -- what the trimming leaves
  have hcut : (held b).take (forms.take m).flatten.length = (forms.take m).flatten := by
    rw [hc, ← hm, Scan.take_take_whole]
  rw [openLog]
  rcases (carries_load hi hscan).cases with ⟨b₁, h₁, hi₁, hc₁, hs₁⟩ | ⟨e, b₁, h₁, -, -, hs₁⟩ <;>
    simp only [load] at h₁ <;> simp only [h₁]
  · split
    · next hlt =>
      -- a torn end, to be cut off
      rw [← hc₁] at hlt hcut
      rcases (LawfulBackend.truncate hi₁ _ (Nat.le_of_lt hlt)).cases with
        ⟨b₂, h₂, hi₂, hc₂, hs₂⟩ | ⟨e, b₂, h₂, -, -, hs₂⟩ <;> simp only [h₂]
      · exact .inl ⟨b₂, hreplay b₂, rfl, hi₂, fun hs => hs₂ (hs₁ hs), hc₂.trans hcut⟩
      · exact .inr ⟨⟨e, rfl⟩, fun hs => hs₂ (hs₁ hs)⟩
    · next hge =>
      refine .inl ⟨b₁, hreplay b₁, rfl, hi₁, hs₁, ?_⟩
      rw [hc₁, ← hcut, List.take_of_length_le (Nat.not_lt.1 hge)]
  · exact .inr ⟨⟨e, rfl⟩, hs₁⟩

end Environment

end Rollup
