import Rollup.Proofs.Storage.History

/-!
# Recovery — what a log brings back

* A log that was cut at any byte brings back a prefix of the commits, and goes on from there
  (`crash_recovery`).
* When calls of the backend fail, a log brings back whatever was recorded (`Replays.recorded`).
  At every point of a run this is what is published if and only if no stranded commit had
  anything to change (`reopens_committed_iff`).
-/

namespace Rollup

open Rollup.Action BackendView Transaction

/-- A property that holds after each step under the same condition holds at every point of a run
if and only if the condition does. -/
theorem forall_take_foldl_iff {α σ : Type} {step : σ → α → σ} {P : σ → Prop} {Q : σ → α → Prop}
    (hstep : ∀ s a, P s → (P (step s a) ↔ Q s a)) {s : σ} (h : P s) (l : List α) :
    (∀ i, P ((l.take i).foldl step s)) ↔
      ∀ i a, l[i]? = some a → Q ((l.take i).foldl step s) a := by
  induction l generalizing s with
  | nil => simp [h]
  | cons a l ih =>
      constructor
      · intro hall i b hb
        cases i with
        | zero =>
            cases hb
            exact (hstep s a h).1 (hall 1)
        | succ i => exact (ih (hall 1)).1 (fun j => hall (j + 1)) i b hb
      · intro hall i
        cases i with
        | zero => exact h
        | succ i =>
            exact (ih ((hstep s a h).2 (hall 0 a rfl))).2 (fun j b hb => hall (j + 1) b hb) i

namespace Environment

variable {β : Type} [Backend β] [LawfulBackend β]

/-! ### Opening -/

/-- The store that opening an empty log leaves. -/
structure Unwritten (env : Environment β) : Prop where
  intact : Intact env.log.backend
  held : held env.log.backend = []
  committed : env.committed = .empty
  commits : env.commits = 0

theorem unwritten_of_openLog {b : β} (hi : Intact b) (hempty : held b = []) {env : Environment β}
    (h : (openLog b).outcome = .ok env) :
    Unwritten env ∧ (Sound b → Sound env.log.backend) := by
  rcases openLog_cases (k := 0) hi .nil hempty rfl with
    ⟨b', h', -, hi', hs, hc⟩ | ⟨⟨e, h'⟩, -⟩ <;> rw [h'] at h <;> cases h
  exact ⟨⟨hi', hc, rfl, rfl⟩, hs⟩

theorem openLog_empty : (openLog (Memory.mk [])).outcome = .ok (fresh (Memory.mk [])) := by
  have hempty : held (Memory.mk []) = [].flatten.take 0 := rfl
  rcases openLog_cases (b := Memory.mk []) trivial .nil hempty rfl with
    ⟨⟨bytes⟩, h, -, -, -, hc⟩ | ⟨-, h⟩
  · cases hc
    exact h
  · exact absurd trivial h

/-- Opening a log that was not cut. -/
theorem openLog_whole {b : β} (hi : Intact b) {records : List (List Operation)}
    {forms : List Bytes} (hforms : Record.Encoded records forms) (hc : held b = forms.flatten)
    {s : Snapshot} (hs : Operation.applyAll .empty records.flatten = .ok s) :
    (∃ b', (openLog b).outcome = .ok ⟨⟨b', forms.length⟩, s, none⟩ ∧ Intact b' ∧
      held b' = held b ∧ (Sound b → Sound b')) ∨
    (∃ e, (openLog b).outcome = .error e) ∧ ¬ Sound b := by
  have hwhole := Scan.wholeWithin_of_length_le (Nat.le_refl forms.flatten.length)
  rcases openLog_cases hi hforms (by rw [hc, List.take_length])
      (by rwa [hwhole, ← hforms.length_eq, List.take_length]) with
    ⟨b', h, -, hi', hs', hc'⟩ | h
  · rw [hwhole] at h hc'
    exact .inl ⟨b', h, hi', by rw [hc', hc, List.take_length], hs'⟩
  · exact .inr h

/-! ### Runs in which nothing fails -/

theorem committed_play_of_sound {env : Environment β} (hs : Sound env.log.backend)
    (script : Script) : (env.play script).committed = script.applied env.committed := by
  have hfaithful := script.run_faithful env.committed
  rw [play, Script.applied, begin]
  generalize script.run (.on env.committed) = txn at hfaithful ⊢
  cases script.ending with
  | drop => rfl
  | commit sync =>
      dsimp only
      cases hops : txn.ops.isEmpty with
      | true =>
          rw [commit_of_isEmpty hops, hfaithful.working_eq hops]
          split <;> rfl
      | false =>
          rcases commit_cases (LawfulBackend.intact_of_sound hs) hops sync with
            ⟨damage, hform, h⟩ | ⟨form, b', hform, -, ⟨h, -⟩ | ⟨-, -, h⟩⟩
          · rw [h, hform]
          · rw [h, hform]
            rfl
          · exact absurd hs h

theorem committed_playAll_of_sound {env : Environment β} (hs : Sound env.log.backend)
    (scripts : List Script) :
    (env.playAll scripts).committed =
      scripts.foldl (fun s script => script.applied s) env.committed := by
  induction scripts generalizing env with
  | nil => rfl
  | cons script scripts ih =>
      rw [List.foldl_cons, ← committed_play_of_sound hs]
      exact ih ((play_ends (LawfulBackend.intact_of_sound hs) script).sound hs).1

/-- A store whose log replays to its snapshot, and still does after a run. -/
theorem reopen_after {env : Environment β} (hs : Sound env.log.backend)
    {records : List (List Operation)} {forms : List Bytes}
    (hforms : Record.Encoded records forms) (hc : held env.log.backend = forms.flatten)
    (hreplay : Operation.applyAll .empty records.flatten = .ok env.committed)
    (later : List Script) {again : β} (hagain : Sound again)
    (hheld : held again = held (env.playAll later).log.backend) :
    ∃ reopened, (openLog again).outcome = .ok reopened ∧
      reopened.committed = later.foldl (fun s script => script.applied s) env.committed := by
  have h := playAll_ends (LawfulBackend.intact_of_sound hs) later
  obtain ⟨more, hmore, hgrown⟩ := h.grown
  rw [(h.sound hs).2] at hmore
  -- the old records and the new ones replay in a row
  have hall : Operation.applyAll .empty
      (records ++ allOps (env.effective later)).flatten = .ok (env.playAll later).committed := by
    rw [List.flatten_append, Operation.applyAll_append, hreplay, h.committed]
    exact h.stacked.replay
  rcases openLog_whole (LawfulBackend.intact_of_sound hagain) (List.rel_append hforms hmore)
      (by rw [hheld, hgrown, hc, List.flatten_append]) hall with ⟨b', hopen, -⟩ | ⟨-, hno⟩
  · exact ⟨_, hopen, committed_playAll_of_sound hs later⟩
  · exact absurd hagain hno

/-- **Recovery from a crash.**  Cut anywhere, the log of a run opens to the snapshot after as many
commits as it has whole records, keeps just these, and takes later transactions on top. -/
theorem crash_recovery {b : β} (hb : Sound b) (hempty : held b = []) {env : Environment β}
    (hopen : (openLog b).outcome = .ok env) (scripts : List Script) :
    ∃ forms, Record.Encoded (allOps (env.effective scripts)) forms ∧
      held (env.playAll scripts).log.backend = forms.flatten ∧
      ∀ (k : Nat) (cut : β), Sound cut → held cut = forms.flatten.take k →
        ∃ recovered, (openLog cut).outcome = .ok recovered ∧
          (Snapshot.empty :: (env.effective scripts).map working)[Scan.wholeWithin k forms]? =
            some recovered.committed ∧
          recovered.commits = Scan.wholeWithin k forms ∧
          recovered.log.backend = (openLog cut).backend ∧
          held (openLog cut).backend = (forms.take (Scan.wholeWithin k forms)).flatten ∧
          (∀ (later : List Script) (again : β), Sound again →
            held again = held (recovered.playAll later).log.backend →
            ∃ reopened, (openLog again).outcome = .ok reopened ∧
              reopened.committed =
                later.foldl (fun s script => script.applied s) recovered.committed) ∧
          (forms.flatten.length ≤ k → recovered.committed = (env.playAll scripts).committed) := by
  obtain ⟨hstart, hsound⟩ := unwritten_of_openLog (LawfulBackend.intact_of_sound hb) hempty hopen
  have h := playAll_ends hstart.intact scripts
  obtain ⟨forms, hforms, hgrown⟩ := h.grown
  have hstacked := h.stacked
  rw [(h.sound (hsound hb)).2] at hforms
  rw [hstart.held, List.nil_append] at hgrown
  rw [hstart.committed] at hstacked
  refine ⟨forms, hforms, hgrown, fun k cut hcut hheld => ?_⟩
  -- a record for each effective commit
  have hlen : Scan.wholeWithin k forms ≤ (env.effective scripts).length := by
    have := hforms.length_eq
    rw [allOps, List.length_map] at this
    exact this ▸ Scan.wholeWithin_le k forms
  have hwhole : forms.flatten.length ≤ k →
      Scan.wholeWithin k forms = (env.effective scripts).length := fun hk => by
    rw [Scan.wholeWithin_of_length_le hk, ← hforms.length_eq, allOps, List.length_map]
  have hreplay : Operation.applyAll .empty
      ((allOps (env.effective scripts)).take (Scan.wholeWithin k forms)).flatten =
        .ok (lastOf .empty ((env.effective scripts).take (Scan.wholeWithin k forms))) := by
    rw [allOps, ← List.map_take]
    exact (hstacked.take _).replay
  rcases openLog_cases (LawfulBackend.intact_of_sound hcut) hforms hheld hreplay with
    ⟨b', hout, hback, -, hs', hc'⟩ | ⟨-, hs'⟩
  · refine ⟨_, hout, lastOf_take hlen, rfl, hback.symm, by rw [hback, hc'], ?_, fun hk => ?_⟩
    · intro later again hagain hheld'
      have henc : Record.Encoded ((allOps (env.effective scripts)).take (Scan.wholeWithin k forms))
          (forms.take (Scan.wholeWithin k forms)) := List.forall₂_take _ hforms
      refine reopen_after ?_ henc ?_ hreplay later hagain hheld'
      · exact hs' hcut
      · exact hc'
    · rw [h.committed, hstart.committed, hwhole hk, List.take_length]
  · exact absurd hcut hs'

theorem crash_recovery_of_two_commits :
    ∃ forms recovered,
      held ((fresh (Memory.mk [])).playAll
        [⟨[.createTree "t", .put "t" [1] [2], .put "u" [1] [2]], .commit true⟩,
          ⟨[.delete "t" [1]], .commit false⟩]).log.backend = forms.flatten ∧
      (openLog (Memory.mk (forms.flatten.take 40))).outcome = .ok recovered ∧
      recovered.commits = Scan.wholeWithin 40 forms := by
  obtain ⟨forms, -, hheld, hcut⟩ := crash_recovery trivial rfl openLog_empty
    [⟨[.createTree "t", .put "t" [1] [2], .put "u" [1] [2]], .commit true⟩,
      ⟨[.delete "t" [1]], .commit false⟩]
  obtain ⟨recovered, hopen, -, hcommits, -⟩ :=
    hcut 40 (Memory.mk (forms.flatten.take 40)) trivial rfl
  exact ⟨forms, recovered, hheld, hopen, hcommits⟩

/-! ### Runs in which calls fail -/

/-- What the log of a store replays to. -/
def Replays (env : Environment β) (s : Snapshot) : Prop :=
  ∃ records forms, Record.Encoded records forms ∧ held env.log.backend = forms.flatten ∧
    Operation.applyAll .empty records.flatten = .ok s

/-- A new store is in step with its log. -/
theorem Unwritten.replays {env : Environment β} (h : Unwritten env) :
    Replays env env.committed :=
  ⟨[], [], .nil, h.held, h.committed ▸ rfl⟩

/-- A copy of the log opens to this snapshot, wherever it is kept, when no call fails. -/
def Reopens (env : Environment β) (s : Snapshot) : Prop :=
  ∀ (β' : Type) [Backend β'] [LawfulBackend β'] (copy : β'), Sound copy →
    held copy = held env.log.backend →
      ∃ reopened, (openLog copy).outcome = .ok reopened ∧ reopened.committed = s

theorem Reopens.unique {env : Environment β} {s t : Snapshot} (h : Reopens env s)
    (h' : Reopens env t) : s = t := by
  obtain ⟨e, he, rfl⟩ := h Memory (Memory.mk (held env.log.backend)) trivial rfl
  obtain ⟨e', he', rfl⟩ := h' Memory (Memory.mk (held env.log.backend)) trivial rfl
  rw [he] at he'
  cases he'
  rfl

namespace Replays

variable {env env' : Environment β} {s t : Snapshot}

/-- A log that can be read opens to what it replays to. -/
theorem reopens (h : Replays env s) : Reopens env s := by
  intro β' _ _ copy hcopy hheld
  obtain ⟨records, forms, hforms, hc, hs⟩ := h
  rcases openLog_whole (LawfulBackend.intact_of_sound hcopy) hforms (hheld.trans hc) hs with
    ⟨b', hopen, -⟩ | ⟨-, hno⟩
  · exact ⟨_, hopen, rfl⟩
  · exact absurd hcopy hno

/-- A log that is opened holds what it held, and still replays to the same. -/
theorem of_openLog (h : Replays env s) {copy : β} (hcopy : Intact copy)
    (hheld : held copy = held env.log.backend) (hopen : (openLog copy).outcome = .ok env') :
    Intact env'.log.backend ∧ env'.committed = s ∧ Replays env' s := by
  obtain ⟨records, forms, hforms, hc, hs⟩ := h
  rcases openLog_whole hcopy hforms (hheld.trans hc) hs with
    ⟨b', h, hi, hc', -⟩ | ⟨⟨e, h⟩, -⟩ <;> rw [h] at hopen <;> cases hopen
  exact ⟨hi, rfl, records, forms, hforms, hc'.trans (hheld.trans hc), hs⟩

/-- A copy no call of which fails is opened, and is one still. -/
theorem openLog_of_sound (h : Replays env s) {copy : β} (hcopy : Sound copy)
    (hheld : held copy = held env.log.backend) :
    ∃ env', (openLog copy).outcome = .ok env' ∧ Sound env'.log.backend ∧
      env'.committed = s ∧ Replays env' s := by
  obtain ⟨records, forms, hforms, hc, hs⟩ := h
  rcases openLog_whole (LawfulBackend.intact_of_sound hcopy) hforms (hheld.trans hc) hs with
    ⟨b', hopen, -, hc', hs'⟩ | ⟨-, hno⟩
  · exact ⟨_, hopen, hs' hcopy, rfl, records, forms, hforms, hc'.trans (hheld.trans hc), hs⟩
  · exact absurd hcopy hno

/-- What the log opens to is what it replays to. -/
theorem reopens_iff (h : Replays env s) : Reopens env t ↔ Replays env t :=
  ⟨fun h' => h.reopens.unique h' ▸ h, reopens⟩

theorem unique (h : Replays env s) (h' : Replays env t) : s = t := h.reopens.unique h'.reopens

theorem ends (h : Replays env s) {rs es : List Transaction} (hends : Ends env env' rs es)
    (ht : Operation.applyAll s (allOps rs).flatten = .ok t) : Replays env' t := by
  obtain ⟨records, forms, hforms, hc, hs⟩ := h
  obtain ⟨more, hmore, hgrown⟩ := hends.grown
  refine ⟨records ++ allOps rs, forms ++ more, List.rel_append hforms hmore,
    by rw [hgrown, hc, List.flatten_append], ?_⟩
  rw [List.flatten_append, Operation.applyAll_append]
  exact bind_eq_ok_iff.2 ⟨s, hs, ht⟩

/-- A run that recorded what it published. -/
theorem ends_eq (h : Replays env env.committed) {es : List Transaction}
    (hends : Ends env env' es es) : Replays env' env'.committed :=
  h.ends hends (hends.committed ▸ hends.stacked.replay)

end Replays

/-- Every log that a run leaves can be read, and replays to what was recorded. -/
theorem Replays.recorded {env env' : Environment β} (h : Replays env env.committed)
    {rs es : List Transaction} (hends : Ends env env' rs es) :
    ∃ s, Operation.applyAll env.committed (allOps rs).flatten = .ok s ∧ Replays env' s := by
  obtain ⟨s, hs, -⟩ := hends.replays env.committed fun _ hn => hn
  exact ⟨s, hs, h.ends hends hs⟩

/-- Only the transaction that is committed can get into the log. -/
theorem eq_of_mem_recorded {env : Environment β} {txn t : Transaction} {sync : Bool}
    (h : t ∈ (env.commitFate txn sync).recorded) : t = txn := by
  rw [commitFate] at h
  split at h
  · cases h
  · split at h
    · exact List.mem_singleton.1 h
    · split at h
      · cases h
      · exact List.mem_singleton.1 h

theorem eq_of_commitFate_stranded {env : Environment β} {txn t : Transaction} {sync : Bool}
    (h : env.commitFate txn sync = .stranded t) : t = txn :=
  eq_of_mem_recorded (by rw [h]; exact List.mem_singleton_self _)

/-- A commit that succeeds is not stranded. -/
theorem commitFate_ne_stranded {env : Environment β} {txn : Transaction} {sync : Bool}
    (h : ((commit txn sync).exec env).1 = .ok ()) (t : Transaction) :
    env.commitFate txn sync ≠ .stranded t := by
  intro hfate
  rw [commitFate] at hfate
  rcases hexec : (commit txn sync).exec env with ⟨e | _, env'⟩ <;> rw [hexec] at h hfate
  · cases h
  · cases hops : txn.ops.isEmpty <;> rw [hops] at hfate <;> cases hfate

/-- **A commit keeps the log in step** with what is published, unless it is stranded and had
something to change. -/
theorem replays_commit_iff {env : Environment β} (hi : Intact env.log.backend)
    (h : Replays env env.committed) {txn : Transaction} (hf : Faithful env.committed txn)
    (sync : Bool) :
    Replays ((commit txn sync).exec env).2 ((commit txn sync).exec env).2.committed ↔
      ∀ t, env.commitFate txn sync = .stranded t → t.working = env.committed := by
  have hends := commit_ends hi hf sync
  generalize ((commit txn sync).exec env).2 = env' at hends ⊢
  cases hfate : env.commitFate txn sync <;> rw [hfate] at hends
  case idle | published | refused =>
    exact ⟨fun _ t ht => (by cases ht), fun _ => h.ends_eq hends⟩
  case stranded t =>
    have hcommitted : env'.committed = env.committed := hends.committed
    have ht : Replays env' t.working := by
      refine h.ends hends ?_
      show Operation.applyAll env.committed (allOps [t]).flatten = _
      rw [flatten_allOps_singleton, eq_of_commitFate_stranded hfate]
      exact hf
    rw [hcommitted]
    constructor
    · -- the log has the change, the store has not
      rintro h' _ ⟨⟩
      exact ht.unique h'
    · intro h'
      rw [← h' t rfl]
      exact ht

/-- **A run of scripts keeps the log in step** with what is published, at every point, if and only
if no stranded transaction had changed anything. -/
theorem reopens_committed_iff {env : Environment β} (hi : Intact env.log.backend)
    (h : Replays env env.committed) (scripts : List Script) :
    (∀ i, Reopens (env.playAll (scripts.take i)) (env.playAll (scripts.take i)).committed) ↔
      ∀ i script, scripts[i]? = some script → ∀ t,
        (env.playAll (scripts.take i)).fate script = .stranded t →
          t.working = (env.playAll (scripts.take i)).committed := by
  have hstep : ∀ (env : Environment β) (script : Script),
      Intact env.log.backend ∧ Replays env env.committed →
      (Intact (env.play script).log.backend ∧
          Replays (env.play script) (env.play script).committed ↔
        ∀ t, env.fate script = .stranded t → t.working = env.committed) := by
    rintro env script ⟨hi, h⟩
    rw [and_iff_right (play_ends hi script).intact, play, fate]
    cases script.ending with
    | commit sync => exact replays_commit_iff hi h (script.run_faithful env.committed) sync
    | drop => exact ⟨fun _ t ht => (by cases ht), fun _ => h⟩
  have hall := forall_take_foldl_iff hstep ⟨hi, h⟩ scripts
  refine Iff.trans (forall_congr' fun i => ?_) hall
  have hends := playAll_ends hi (scripts.take i)
  obtain ⟨s, -, hs⟩ := h.recorded hends
  exact hs.reopens_iff.trans (and_iff_right hends.intact).symm

end Environment

end Rollup
