import Rollup.Proofs.Index.Calls
import Rollup.Proofs.Index.Invisible
import Rollup.Proofs.Index.Reopening

/-!
# Handles — several of them on one index

Handles on one index share the store, but each keeps a counter of its own, which it reads when it is
opened and moves by its own batches only.  So batches that are run through several handles come out
as through a single one as long as each that maps a document goes through a handle whose counter is
where the single one's would be; a batch that maps nothing may go through any.  Through any other
handle a batch does not come out as the single one's that is committed (`handles_agree`).  Where no
commit fails, the counter of the single one is at the stored last etag, and so is that of a handle
that has just been opened (`Together.fresh_of_load`).
-/

namespace Rollup

open Rollup.Action

namespace Live

variable {ι β σ : Type}

/-! ### Runs through several handles -/

/-- A store with handles on one index.  One that is not open yet stands for the one that was
created. -/
structure Shared (ι β σ : Type) extends Host β where
  handles : ι → Index
  sink : σ

/-- What happens next: a batch is run through a handle, or a handle is opened again. -/
inductive HandleTurn (ι σ : Type) where
  | batch (handle : ι) (job : Job σ)
  | reopen (handle : ι)

/-- A batch of a run through several handles, beside the same batch through a single one. -/
structure Round (β σ : Type) where
  single : Live β σ
  through : Live β σ
  job : Job σ

namespace Shared

/-- The index as a handle shows it. -/
def through (s : Shared ι β σ) (i : ι) : Live β σ := ⟨s.toHost, s.handles i, s.sink⟩

variable [DecidableEq ι] [Backend β]

def turn (s : Shared ι β σ) : HandleTurn ι σ → Shared ι β σ
  | .batch i job =>
    let live := (s.through i).after job
    ⟨live.toHost, Function.update s.handles i live.index, live.sink⟩
  | .reopen i =>
    match (Index.load (s.handles i).name (s.handles i).config).exec s.toHost with
    | (.ok ix, host) => ⟨host, Function.update s.handles i ix, s.sink⟩
    | (.error _, _) => s

end Shared

section

variable [Backend β]

/-- The batch of a turn, through a single handle. -/
def turn (live : Live β σ) : HandleTurn ι σ → Live β σ
  | .batch _ job => live.after job
  | .reopen _ => live

variable [DecidableEq ι]

/-- The batches of a run through several handles, each beside that of the single one. -/
def rounds : Shared ι β σ → Live β σ → List (HandleTurn ι σ) → List (Round β σ)
  | _, _, [] => []
  | s, live, .batch i job :: turns =>
    ⟨live, s.through i, job⟩ :: rounds (s.turn (.batch i job)) (live.after job) turns
  | s, live, .reopen i :: turns => rounds (s.turn (.reopen i)) live turns

end

namespace Round

/-- The counter of the handle is where the single one's is. -/
def Current (r : Round β σ) : Prop := r.through.index.lastEtag = r.single.index.lastEtag

/-- The batch maps a document. -/
def Maps (r : Round β σ) : Prop := ∃ change ∈ r.job.changes, change.isPut = true

variable [Backend β]

/-- Through the single handle the batch is committed. -/
def Commits (r : Round β σ) : Prop :=
  ∃ done live', (commitBatch r.job.changes).exec r.single = (.ok done, live')

/-- If the batch gets to its commit through the single handle, that succeeds. -/
def Unfailing (r : Round β σ) : Prop := ∀ prepared update,
  r.single.Ready r.job.changes prepared update → (r.single.committing update).1 = .ok ()

/-- The batch comes out the same. -/
structure Same (r : Round β σ) : Prop where
  /-- It is committed with the same etags and the same deliveries, or fails with the same error. -/
  commit : ((commitBatch r.job.changes).exec r.through).1 =
    ((commitBatch r.job.changes).exec r.single).1
  /-- The receiver has nothing else to say. -/
  answer : ((runBatch r.job.sink r.job.changes).exec r.through).1 =
    ((runBatch r.job.sink r.job.changes).exec r.single).1
  committed : (r.through.after r.job).committed = (r.single.after r.job).committed

end Round

/-! ### One batch -/

/-- Nothing is asked of counters or last etags. -/
abbrev Beside (a b : Live β σ) : Prop := Alike (fun _ _ => True) (fun _ _ => True) a b

theorem counted_true : Counted fun _ _ => True := ⟨fun _ => trivial, fun _ _ => trivial⟩

variable {a b : Live β σ}

/-- A batch that maps nothing is the same inside its transaction, whatever the counter is. -/
theorem Alike.staged_of_blind {S : Counters → Counters → Prop} {L : Etag → Etag → Prop}
    (h : Alike S L a b) {changes : List Change} (hblind : Update.Blind (a.index.prepare changes)) :
    Staged (fun _ _ => True) (a.stage changes) (b.stage changes) := by
  have hstage : b.stage changes = (a.index.prepare changes).exec
      (a.start.withLast b.index.lastEtag) := by
    rw [stage, Index.prepare_congr h.toSameHandle, h.name, h.env]
    rfl
  rw [hstage, hblind]
  exact ⟨rfl, _, rfl, trivial⟩

variable [Backend β]

/-- **A batch through a handle that is current**, or one that maps nothing, comes out the same. -/
theorem same_of_current {r : Round β σ} (h : Beside r.single r.through)
    (hcurrent : r.Maps → r.Current) :
    r.Same ∧ Beside (r.single.after r.job) (r.through.after r.job) := by
  have hstage : Staged (fun _ _ => True) (r.single.stage r.job.changes)
      (r.through.stage r.job.changes) := by
    by_cases hmaps : r.Maps
    · have heq : Alike (fun _ _ => True) Eq r.single r.through :=
        ⟨h.toSameHandle, h.env, h.sink, trivial, (hcurrent hmaps).symm⟩
      obtain ⟨hanswer, etag, hupdate, -⟩ := staged_of_eq (heq.stage_eq r.job.changes)
      exact ⟨hanswer, etag, hupdate, trivial⟩
    · refine h.staged_of_blind (r.single.index.blind_prepare fun change hchange => ?_)
      exact Bool.eq_false_iff.2 fun hput => hmaps ⟨change, hchange, hput⟩
  obtain ⟨hcommit, -⟩ := h.commitBatch counted_true hstage
  obtain ⟨hanswer, hafter⟩ := h.runBatch counted_true r.job.sink hstage
  exact ⟨⟨hcommit.symm, hanswer.symm, congrArg Environment.committed hafter.env⟩, hafter⟩

/-- **A batch that is committed** by the single handle, and maps a document, comes out otherwise
through a handle that is not current. -/
theorem current_of_same {r : Round β σ} (hsame : r.Same) (hmaps : r.Maps) (hcommits : r.Commits) :
    r.Current := by
  obtain ⟨⟨result, deliveries⟩, live', hsingle⟩ := hcommits
  rcases hthrough : (commitBatch r.job.changes).exec r.through with ⟨answer, live''⟩
  have hanswer := hsame.commit
  rw [hsingle, hthrough] at hanswer
  obtain rfl : answer = _ := hanswer
  -- the same etags stand behind the same counter
  have hetags := etags_of_commitBatch hthrough
  rw [etags_of_commitBatch hsingle, List.range'_inj] at hetags
  obtain ⟨change, hchange, hput⟩ := hmaps
  have hpos := List.countP_pos_iff.2 ⟨change, hchange, hput⟩
  exact Etag.toNat_inj.1 (by omega)

/-! ### Counters at the stored last etag -/

section

variable {c : Contents} {live live' : Live β σ}

/-- The handle has drawn no etag that is not stored, and none was stored that it has not seen. -/
def Fresh (live : Live β σ) : Prop :=
  live.committed.cell (metaTree live.index.name) Index.lastEtagKey =
    some live.index.lastEtag.encode

omit [Backend β] in
theorem fresh_iff (h : c.Holds live.index.name live.committed) :
    live.Fresh ↔ live.index.lastEtag = c.last := by
  rw [Fresh, h.last_eq, Option.some_inj, Etag.encode_inj, eq_comm]

/-- A batch that is committed stores the etag that it drew last. -/
theorem fresh_of_commitBatch (hat : At c live) (hfresh : live.Fresh) {changes : List Change}
    {result : BatchResult} {deliveries : List Delivery}
    (h : (commitBatch changes).exec live = (.ok (result, deliveries), live')) : live'.Fresh := by
  obtain ⟨-, hall, -, hetags⟩ := calls_of_commitBatch h
  rcases commitBatch_at hat changes with
    ⟨e, live', hexec, -⟩ | ⟨c', update, prepared, live', hcommitted, hexec⟩ <;>
    rw [hexec] at h <;> cases h
  obtain ⟨result, happlied, hresult⟩ := hcommitted.applied
  have hupdate := (live.stage_calls changes).1
  rw [hcommitted.stage, hall] at hupdate
  refine (fresh_iff hcommitted.holds.holds).2 ?_
  calc live'.index.lastEtag
      = update.lastEtag := hcommitted.lastEtag
    _ = (live.index.drawn live.start (changes.flatMap Change.calls)).getLast?.getD
          live.start.lastEtag := by rw [live.index.getLast?_drawn, ← hupdate]
    _ = result.etags.getLast?.getD c.last := by
      rw [← hetags, hresult, ← (fresh_iff hat.holds).1 hfresh]
      rfl
    _ = c'.last := happlied.last_eq.symm

/-- A batch whose commit does not fail leaves a fresh handle fresh. -/
theorem Round.fresh_after {r : Round β σ} (hat : At c r.single) (hfresh : r.single.Fresh)
    (hok : r.Unfailing) : (r.single.after r.job).Fresh := by
  obtain ⟨state, hrun⟩ := exec_runBatch r.job.sink r.job.changes r.single
  rw [after, hrun]
  -- the receiver does not matter
  show Fresh ((commitBatch r.job.changes).exec r.single).2
  rcases commitBatch_cases r.single r.job.changes with
    ⟨e, live', hexec, hquiet, -⟩ | ⟨prepared, update, live', hready, -, ⟨e, he, -⟩ | ⟨-, hexec⟩⟩
  · rw [hexec]
    have hname : live'.index.name = r.single.index.name :=
      congrArg Definition.name hquiet.definition
    show live'.committed.cell (metaTree live'.index.name) _ = some live'.index.lastEtag.encode
    rw [committed, hquiet.env, hname, hquiet.lastEtag]
    exact hfresh
  · rw [hok prepared update hready] at he
    cases he
  · rw [hexec]
    exact fresh_of_commitBatch hat hfresh hexec

end

/-! ### Runs beside each other -/

variable [DecidableEq ι] {d : Definition} {c : Contents} {s : Shared ι β σ} {live : Live β σ}

/-- A store with handles, and the same store with a single one. -/
structure Together (d : Definition) (c : Contents) (s : Shared ι β σ) (live : Live β σ) : Prop where
  definition : live.index.definition = d
  handles : ∀ i, Index.SameHandle live.index (s.handles i)
  env : s.env = live.env
  sink : s.sink = live.sink
  holds : At c live
  short : c.definition.length < Bytes.capacity 4

omit [Backend β] [DecidableEq ι] in
theorem Together.beside (h : Together d c s live) (i : ι) : Beside live (s.through i) :=
  ⟨h.handles i, h.env, h.sink, trivial, trivial⟩

omit [Backend β] [DecidableEq ι] in
theorem Together.holds_through (h : Together d c s live) (i : ι) :
    c.Holds (s.through i).index.name (s.through i).committed := by
  show c.Holds (s.handles i).name s.env.committed
  rw [(h.handles i).name, h.env]
  exact h.holds.holds

/-- **A batch** through one of the handles. -/
theorem Together.batch (h : Together d c s live) {i : ι} {job : Job σ}
    (hcurrent : (Round.mk live (s.through i) job).Maps →
      (Round.mk live (s.through i) job).Current) :
    (Round.mk live (s.through i) job).Same ∧
      ∃ c', Together d c' (s.turn (.batch i job)) (live.after job) := by
  obtain ⟨hsame, hafter⟩ := same_of_current (h.beside i) hcurrent
  obtain ⟨hdefinition, hconfig, c', hc', hat⟩ := runBatch_at h.holds job.sink job.changes
  refine ⟨hsame, c', hdefinition.trans h.definition, fun j => ?_, hafter.env, hafter.sink, hat,
    hc' ▸ h.short⟩
  show Index.SameHandle (live.after job).index (Function.update s.handles i _ j)
  rw [Function.update_apply]
  split
  · exact hafter.toSameHandle
  · exact ⟨(h.handles j).definition.trans hdefinition.symm,
      (h.handles j).config.trans hconfig.symm⟩

/-- **Opening a handle again** gives one on the same index. -/
theorem Together.reopen (h : Together d c s live) (hvalid : d.validate = .ok ())
    (hparsed : d.Parsed) (i : ι) : Together d c (s.turn (.reopen i)) live := by
  obtain ⟨rfl, hhandles, henv, hsink, hat, hshort⟩ := h
  rw [Shared.turn]
  rcases hload : (Index.load (s.handles i).name (s.handles i).config).exec s.toHost with
    ⟨e | ix, host⟩
  · exact ⟨rfl, hhandles, henv, hsink, hat, hshort⟩
  · obtain ⟨hfound, hhost⟩ := exec_load hload
    rw [henv, (hhandles i).name] at hfound
    obtain ⟨hdefinition, hconfig, -⟩ :=
      Index.ofSnapshot_eq hat.holds hvalid hparsed hat.definition hshort hfound
    refine ⟨rfl, fun j => ?_, hhost.trans henv, hsink, hat, hshort⟩
    show Index.SameHandle live.index (Function.update s.handles i ix j)
    rw [Function.update_apply]
    split
    · exact ⟨hdefinition, hconfig.trans (hhandles i).config⟩
    · exact hhandles j

/-- **Along a run** in which every batch that maps a document goes through a current handle, all
batches come out the same. -/
theorem Together.run (h : Together d c s live) (hvalid : d.validate = .ok ())
    (hparsed : d.Parsed) {turns : List (HandleTurn ι σ)}
    (hcurrent : ∀ r ∈ rounds s live turns, r.Maps → r.Current) :
    (∀ r ∈ rounds s live turns, r.Same) ∧
      ∃ c', Together d c' (turns.foldl Shared.turn s) (turns.foldl turn live) := by
  induction turns generalizing s live c with
  | nil => exact ⟨fun r hr => (by cases hr), c, h⟩
  | cons t turns ih =>
      cases t with
      | reopen i => exact ih (h.reopen hvalid hparsed i) hcurrent
      | batch i job =>
          rw [rounds, List.forall_mem_cons] at hcurrent ⊢
          obtain ⟨hsame, c', h'⟩ := h.batch hcurrent.1
          obtain ⟨hall, hend⟩ := ih h' hcurrent.2
          exact ⟨⟨hsame, hall⟩, hend⟩

/-- **As long as no commit fails**, the handles for the batches that map a document are where the
single one is just when they are fresh. -/
theorem Together.current_iff (h : Together d c s live) (hvalid : d.validate = .ok ())
    (hparsed : d.Parsed) (hfresh : live.Fresh) {turns : List (HandleTurn ι σ)}
    (hok : ∀ r ∈ rounds s live turns, r.Unfailing) :
    (∀ r ∈ rounds s live turns, r.Maps → r.Current) ↔
      ∀ r ∈ rounds s live turns, r.Maps → r.through.Fresh := by
  induction turns generalizing s live c with
  | nil => exact ⟨fun _ r hr => (by cases hr), fun _ r hr => (by cases hr)⟩
  | cons t turns ih =>
      cases t with
      | reopen i => exact ih (h.reopen hvalid hparsed i) hfresh hok
      | batch i job =>
          rw [rounds, List.forall_mem_cons] at hok
          rw [rounds, List.forall_mem_cons, List.forall_mem_cons]
          have hhead : (Round.mk live (s.through i) job).Current ↔ (s.through i).Fresh := by
            rw [fresh_iff (h.holds_through i), ← (fresh_iff h.holds.holds).1 hfresh]
            exact Iff.rfl
          refine (and_congr (imp_congr_right fun _ => hhead) Iff.rfl).trans
            (and_congr_right fun hcurrent => ?_)
          obtain ⟨-, c', h'⟩ := h.batch fun hmaps => hhead.2 (hcurrent hmaps)
          have hafter : (live.after job).Fresh :=
            Round.fresh_after (r := ⟨live, s.through i, job⟩) h.holds hfresh hok.1
          exact ih h' hafter hok.2

omit [Backend β] [DecidableEq ι] in
/-- **A handle that is opened again** is fresh. -/
theorem Together.fresh_of_load (h : Together d c s live) {i : ι} {host : Host β} {ix : Index}
    (hload : (Index.load (s.handles i).name (s.handles i).config).exec s.toHost = (.ok ix, host)) :
    (ofHost host ix s.sink).Fresh := by
  obtain ⟨hfound, hhost⟩ := exec_load hload
  have hholds : c.Holds (s.handles i).name s.env.committed := h.holds_through i
  have hlast := Index.lastEtag_eq_of_ofSnapshot hholds h.holds.lockstep hfound
  refine (fresh_iff ?_).2 hlast
  show c.Holds ix.name host.env.committed
  rw [hhost, (Index.name_of_ofSnapshot hfound).1]
  exact hholds

/-- **When handles agree.**  From the creation of an index on, batches are run through several
handles of the same configuration, which may be opened again at any time.  If each batch that maps a
document goes through a handle whose counter is where that of a single handle would be, then all
batches come out as through the single one, and so do the store with its log and the receiver.  And
this is needed: among the batches that come out the same, each that maps a document, and that the
single handle commits, has gone through such a handle.  As long as no commit fails, those are the
handles whose counter is at the stored last etag. -/
theorem handles_agree {config : Config} {host host' : Host β} {ix : Index} (hparsed : d.Parsed)
    (hvacant : host.env.committed.Vacant d.name)
    (hcreate : (Index.create d config).exec host = (.ok ix, host')) (state : σ)
    (turns : List (HandleTurn ι σ)) :
    let s : Shared ι β σ := ⟨host', fun _ => ix, state⟩
    let live := ofHost host' ix state
    ((∀ r ∈ rounds s live turns, r.Maps → r.Current) →
      (∀ r ∈ rounds s live turns, r.Same) ∧
        (turns.foldl Shared.turn s).env = (turns.foldl turn live).env ∧
        (turns.foldl Shared.turn s).sink = (turns.foldl turn live).sink) ∧
    (∀ r ∈ rounds s live turns, r.Same → r.Maps → r.Commits → r.Current) ∧
    ((∀ r ∈ rounds s live turns, r.Unfailing) →
      ((∀ r ∈ rounds s live turns, r.Maps → r.Current) ↔
        ∀ r ∈ rounds s live turns, r.Maps → r.through.Fresh)) := by
  obtain ⟨hvalid, hix, -⟩ := Index.create_eq_ok hcreate
  obtain ⟨stored, hshort, hat⟩ := Index.at_of_create hvacant hcreate state
  have hstart : Together d (.initial stored) (⟨host', fun _ => ix, state⟩ : Shared ι β σ)
      (ofHost host' ix state) :=
    ⟨by rw [hix]; rfl, fun _ => ⟨rfl, rfl⟩, rfl, rfl, hat, hshort⟩
  have hfresh : (ofHost host' ix state).Fresh := (fresh_iff hat.holds).2 (by rw [hix]; rfl)
  refine ⟨fun hcurrent => ?_, fun r _ hsame hmaps hcommits => current_of_same hsame hmaps hcommits,
    hstart.current_iff hvalid hparsed hfresh⟩
  obtain ⟨hall, c', hend⟩ := hstart.run hvalid hparsed hcurrent
  exact ⟨hall, hend.env, hend.sink⟩

theorem handles_agree_of_delete :
    ∃ ix host', (Index.create Index.minimal {}).exec ⟨.fresh (Memory.mk []), #[]⟩ =
        (.ok ix, host') ∧
      ∀ r ∈ rounds (⟨host', fun _ => ix, ()⟩ : Shared Bool Memory Unit) (ofHost host' ix ())
        [.batch true ⟨Sink.discard, [.put ⟨[1], .null⟩]⟩,
          .batch false ⟨Sink.discard, [.delete [1]]⟩], r.Same := by
  obtain ⟨host', hcreate⟩ := Index.exec_create_minimal {}
  refine ⟨_, host', hcreate, ?_⟩
  refine ((handles_agree Index.parsed_minimal (Snapshot.vacant_empty _) hcreate ()
    [.batch true ⟨Sink.discard, [.put ⟨[1], .null⟩]⟩,
      .batch false ⟨Sink.discard, [.delete [1]]⟩]).1 ?_).1
  -- the other handle has not seen the document, but it only deletes
  refine List.forall_mem_cons.2 ⟨fun _ => rfl, List.forall_mem_singleton.2 ?_⟩
  rintro ⟨change, hchange, hput⟩
  rw [List.mem_singleton.1 hchange] at hput
  cases hput

end Live

end Rollup
