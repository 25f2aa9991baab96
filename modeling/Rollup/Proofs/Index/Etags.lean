import Rollup.Proofs.Index.Driving
import Rollup.Proofs.Index.Reopening
import Rollup.Proofs.Index.Stamp

/-!
# Etags — none is handed out again

The counter of an index is kept in three places: in its handle, among the committed settings, and in
the log, where the records of failed commits count as well.  Each is moved and restored on its own
paths, but no step takes the handle behind the settings (`Dates`), be it a batch that commits or
fails anywhere, a transaction driven by hand, or an index that is opened again (`Passed`).  So along
every run the etags that are handed out are past all that were committed before
(`etags_never_reused`).
-/

namespace Rollup

open Rollup.Action BackendView

namespace Index

/-! ### What happens -/

/-- What happens to an index at work. -/
inductive Happening where
  /-- A transaction handed out etags and came to its end. -/
  | transaction (drawn : List Etag) (fate : Environment.Fate)
  /-- The store was closed and opened again from its log, and the index with it. -/
  | reopened
  /-- The index was closed and opened again in the open store. -/
  | reloaded

namespace Happening

/-- The etags handed out. -/
def drawn : Happening → List Etag
  | .transaction drawn _ => drawn
  | _ => []

/-- A transaction was committed that has this etag. -/
def Publishes (index : String) (etag : Etag) : Happening → Prop
  | .transaction _ fate => ∃ txn ∈ fate.effective, txn.Enters index etag
  | _ => False

/-- A transaction got into the log that has this etag; its commit may have failed there. -/
def Records (index : String) (etag : Etag) : Happening → Prop
  | .transaction _ fate => ∃ txn ∈ fate.recorded, txn.Enters index etag
  | _ => False

variable {holds : Etag → Happening → Prop} {trace : List Happening} {bound bound' : Etag}
  {h : Happening}

/-- No etag of a happening is handed out later, and none is past the bound. -/
structure Ahead (holds : Etag → Happening → Prop) (trace : List Happening) (bound : Etag) :
    Prop where
  order : trace.Pairwise fun before after =>
    ∀ etag, holds etag before → ∀ next ∈ after.drawn, etag.toNat < next.toNat
  bounded : ∀ h ∈ trace, ∀ etag, holds etag h → etag.toNat ≤ bound.toNat

theorem ahead_nil (bound : Etag) : Ahead holds [] bound where
  order := .nil
  bounded _ h := (by cases h)

theorem Ahead.snoc (ht : Ahead holds trace bound) (hle : bound.toNat ≤ bound'.toNat)
    (hdrawn : ∀ next ∈ h.drawn, bound.toNat < next.toNat)
    (hholds : ∀ etag, holds etag h → etag.toNat ≤ bound'.toNat) :
    Ahead holds (trace ++ [h]) bound' where
  order := by
    refine List.pairwise_append.2 ⟨ht.order, List.pairwise_singleton .., ?_⟩
    rintro before hbefore after hafter etag hetag next hnext
    cases List.mem_singleton.1 hafter
    exact Nat.lt_of_le_of_lt (ht.bounded before hbefore etag hetag) (hdrawn next hnext)
  bounded before hbefore etag hetag := by
    rcases List.mem_append.1 hbefore with hbefore | hbefore
    · exact Nat.le_trans (ht.bounded before hbefore etag hetag) hle
    · cases List.mem_singleton.1 hbefore
      exact hholds etag hetag

end Happening

end Index

namespace Live

variable {β σ : Type} [Backend β] [LawfulBackend β]

/-! ### What a transaction does -/

/-- What a transaction comes to that makes these calls and ends so. -/
def driven (live : Live β σ) (list : List Index.Call) (ending : Transaction.Ending) :
    Index.Happening :=
  .transaction (live.index.drawn live.start list) (match ending with
    | .commit sync => live.env.commitFate (live.index.calls live.start list).txn sync
    | .drop => .idle)

/-- What a batch comes to. -/
def attempted (live : Live β σ) (changes : List Change) : Index.Happening :=
  live.driven (live.attempt changes).1 (live.attempt changes).2

/-! ### What every step keeps -/

variable {live live' : Live β σ} {name : String} {last last' reach reach' : Etag}

/-- The last etags of an index: the one among the committed settings is not ahead of the handle, nor
of the one that the log replays to. -/
structure Dates (name : String) (live : Live β σ) (last reach : Etag) : Prop where
  index : live.index.name = name
  intact : Intact live.env.log.backend
  stored : live.committed.cell (metaTree name) Index.lastEtagKey = some last.encode
  counter : last.toNat ≤ live.index.lastEtag.toNat
  log : last.toNat ≤ reach.toNat
  replays : ∃ s, Environment.Replays live.env s ∧
    (∀ n, live.committed.hasTree n = true → s.hasTree n = true) ∧
    s.cell (metaTree name) Index.lastEtagKey = some reach.encode

/-- What a step comes to. -/
structure Passed (name : String) (live : Live β σ) (last reach : Etag) (h : Index.Happening)
    (live' : Live β σ) (last' reach' : Etag) : Prop where
  dates : Dates name live' last' reach'
  grows : last.toNat ≤ last'.toNat
  drawn : ∀ next ∈ h.drawn, live.index.lastEtag.toNat < next.toNat
  published : ∀ etag, h.Publishes name etag → etag.toNat ≤ last'.toNat
  recorded : ∀ etag, h.Records name etag → etag.toNat ≤ reach'.toNat
  /-- Where nothing is behind the handle, nothing will be, unless it is given up for one on the same
  store. -/
  counter : reach.toNat ≤ live.index.lastEtag.toNat → h ≠ .reloaded →
    reach.toNat ≤ reach'.toNat ∧ reach'.toNat ≤ live'.index.lastEtag.toNat

theorem Dates.hasTree (h : Dates name live last reach) :
    live.committed.hasTree (metaTree live.index.name) = true := by
  rw [h.index]
  exact Snapshot.hasTree_of_cell h.stored

/-- What the log replays to when the record of a transaction was added. -/
theorem Dates.recorded (h : Dates name live last reach) {txn : Transaction}
    {es : List Transaction} (hends : Environment.Ends live.env live'.env [txn] es)
    {first mark : Etag} (hstamped : txn.Stamped name first mark mark) :
    ∃ s, Environment.Replays live'.env s ∧
      (∀ n, live'.committed.hasTree n = true → s.hasTree n = true) ∧
      s.cell (metaTree name) Index.lastEtagKey =
        some (Transaction.stampOver first mark reach).encode := by
  obtain ⟨s, hs, htrees, hcell⟩ := h.replays
  obtain ⟨s', hs', htrees'⟩ := hends.replays s htrees
  refine ⟨s', hs.ends hends hs', htrees', ?_⟩
  rw [Transaction.flatten_allOps_singleton] at hs'
  exact hstamped.cell hcell hs'

/-- **The end of a transaction** whose update is dated. -/
theorem Dates.ends (h : Dates name live last reach) (hindex : live'.index.name = name)
    (hcounter : live.index.lastEtag.toNat ≤ live'.index.lastEtag.toNat) {u : Update}
    (hdated : u.Dated name live.index.lastEtag)
    (hfaithful : Transaction.Faithful live.committed u.txn) {fate : Environment.Fate}
    (hends : Environment.Ends live.env live'.env fate.recorded fate.effective)
    (htxn : ∀ txn ∈ fate.recorded, txn = u.txn ∧ u.lastEtag.toNat ≤ live'.index.lastEtag.toNat)
    {drawn : List Etag} (hdrawn : ∀ next ∈ drawn, live.index.lastEtag.toNat < next.toNat) :
    ∃ last' reach', Passed name live last reach (.transaction drawn fate) live' last' reach' := by
  obtain ⟨-, mark, hfirst, hmark, hstamped⟩ := hdated
  -- where a last etag goes that is not ahead of the handle
  have hover : u.lastEtag.toNat ≤ live'.index.lastEtag.toNat → ∀ base : Etag,
      base.toNat ≤ live.index.lastEtag.toNat →
        base.toNat ≤ (Transaction.stampOver live.index.lastEtag mark base).toNat ∧
        (Transaction.stampOver live.index.lastEtag mark base).toNat ≤ live'.index.lastEtag.toNat :=
    fun hlast _ hbase => ⟨Transaction.le_stampOver hbase hfirst,
      Transaction.stampOver_le (Nat.le_trans hbase hcounter) (Nat.le_trans hmark hlast)⟩
  cases fate with
  | idle | refused =>
      have hcommitted : live'.committed = live.committed := hends.committed
      obtain ⟨s, hs, htrees, hcell⟩ := h.replays
      refine ⟨last, reach, ⟨hindex, hends.intact, ?_, Nat.le_trans h.counter hcounter, h.log, s,
        hs.ends hends rfl, ?_, hcell⟩, Nat.le_refl _, hdrawn, Transaction.le_of_enters_none,
        Transaction.le_of_enters_none, fun hreach _ => ?_⟩
      · rw [hcommitted]
        exact h.stored
      · rw [hcommitted]
        exact htrees
      · exact ⟨Nat.le_refl _, Nat.le_trans hreach hcounter⟩
  | stranded txn =>
      obtain ⟨rfl, hlast⟩ := htxn txn (List.mem_singleton_self _)
      have hcommitted : live'.committed = live.committed := hends.committed
      refine ⟨last, Transaction.stampOver live.index.lastEtag mark reach, ⟨hindex, hends.intact, ?_,
        Nat.le_trans h.counter hcounter, ?_, h.recorded hends hstamped⟩, Nat.le_refl _, hdrawn,
        Transaction.le_of_enters_none, hstamped.le_of_enters reach,
        fun hreach _ => hover hlast reach hreach⟩
      · rw [hcommitted]
        exact h.stored
      · exact Nat.le_trans (hover hlast last h.counter).1 (Transaction.stampOver_le_stampOver h.log)
  | published txn =>
      obtain ⟨rfl, hlast⟩ := htxn txn (List.mem_singleton_self _)
      have hcommitted : live'.committed = u.txn.working := hends.committed
      obtain ⟨hgrows, hbound⟩ := hover hlast last h.counter
      refine ⟨Transaction.stampOver live.index.lastEtag mark last,
        Transaction.stampOver live.index.lastEtag mark reach, ⟨hindex, hends.intact, ?_, hbound,
        Transaction.stampOver_le_stampOver h.log, h.recorded hends hstamped⟩, hgrows, hdrawn,
        hstamped.le_of_enters last, hstamped.le_of_enters reach,
        fun hreach _ => hover hlast reach hreach⟩
      rw [hcommitted]
      exact hstamped.cell h.stored hfaithful

/-- **A transaction**, whatever its calls answer and however it ends. -/
theorem Dates.transacts (h : Dates name live last reach) {list : List Index.Call}
    {ending : Transaction.Ending} (ht : Transacts live list ending live') :
    ∃ last' reach', Passed name live last reach (live.driven list ending) live' last' reach' := by
  have hdated := dated_calls h.hasTree list
  rw [h.index] at hdated
  have hfaithful := live.faithful_calls list
  refine h.ends (ht.name.trans h.index) ht.lastEtag_le hdated hfaithful ?_ ?_
    fun _ => live.index.lt_of_mem_drawn
  · rw [ht.env]
    cases ending with
    | drop => exact .refl h.intact
    | commit sync =>
        rw [env_drive_commit]
        exact Environment.commit_ends h.intact hfaithful sync
  · cases ending with
    | drop => exact fun _ hno => (by cases hno)
    | commit sync =>
        have hlast := ht.lastEtag.resolve_right fun hno => (by cases hno.1)
        exact fun txn hmem =>
          ⟨Environment.eq_of_mem_recorded hmem, Nat.le_of_eq (congrArg Etag.toNat hlast.symm)⟩

/-- **Opening the store again** brings the last etag back that the log has. -/
theorem Dates.reopened (h : Dates name live last reach) {config : Config}
    (hopen : Reopened live config live') :
    Passed name live last reach .reopened live' reach reach := by
  obtain ⟨copy, env, path, events, hcopy, hheld, hout, hload⟩ := hopen.store
  obtain ⟨s, hs, htrees, hcell⟩ := h.replays
  obtain ⟨hintact, hcommitted, hreplays⟩ := hs.of_openLog hcopy hheld hout
  obtain ⟨hload, henv⟩ := exec_load hload
  have hcommitted' : live'.committed = s := (congrArg Environment.committed henv).trans hcommitted
  have hload : Index.ofSnapshot name config s = .ok live'.index := by
    rw [← hload, ← h.index, hcommitted]
  have hlast := Index.lastEtag_of_ofSnapshot hcell hload
  refine ⟨⟨(Index.name_of_ofSnapshot hload).1, ?_, ?_, hlast, Nat.le_refl _, s, ?_, ?_, hcell⟩,
    h.log, fun _ hno => (by cases hno), fun _ hno => hno.elim, fun _ hno => hno.elim,
    fun _ _ => ⟨Nat.le_refl _, hlast⟩⟩
  · rw [henv]
    exact hintact
  · rw [hcommitted']
    exact hcell
  · rw [henv]
    exact hreplays
  · rw [hcommitted']
    exact fun _ hn => hn

/-- **Another handle** goes on from the settings, or from behind them. -/
theorem Dates.reloaded (h : Dates name live last reach) {config : Config}
    (hload : (Index.load live.index.name config).exec live.toHost =
      (.ok live'.index, live'.toHost)) :
    Passed name live last reach .reloaded live' last reach := by
  obtain ⟨hload, henv⟩ := exec_load hload
  rw [h.index] at hload
  have hcommitted : live'.committed = live.committed := congrArg Environment.committed henv
  refine ⟨⟨(Index.name_of_ofSnapshot hload).1, ?_, ?_, Index.lastEtag_of_ofSnapshot h.stored hload,
    h.log, ?_⟩, Nat.le_refl _, fun _ hno => (by cases hno), fun _ hno => hno.elim,
    fun _ hno => hno.elim, fun _ hno => absurd rfl hno⟩
  · rw [henv]
    exact h.intact
  · rw [hcommitted]
    exact h.stored
  · rw [hcommitted, henv]
    exact h.replays

/-! ### Runs -/

/-- A step of a run in which one handle on the index is open at a time. -/
inductive Happens (live : Live β σ) : Index.Happening → Live β σ → Prop where
  | batch (sink : Sink σ) (changes : List Change) :
      Happens live (live.attempted changes) ((runBatch sink changes).exec live).2
  | drive (list : List Index.Call) (ending : Transaction.Ending) :
      Happens live (live.driven list ending) (live.drive list ending)
  | reopen {config : Config} {live' : Live β σ} (h : Reopened live config live') :
      Happens live .reopened live'
  | reload {config : Config} {live' : Live β σ}
      (h : (Index.load live.index.name config).exec live.toHost =
        (.ok live'.index, live'.toHost)) : Happens live .reloaded live'

/-- A run, with what happened in it. -/
inductive Traced (start : Live β σ) : List Index.Happening → Live β σ → Prop where
  | refl : Traced start [] start
  | tail {trace : List Index.Happening} {live live' : Live β σ} {h : Index.Happening}
      (hrun : Traced start trace live) (hstep : Happens live h live') :
      Traced start (trace ++ [h]) live'

/-- **Every step** keeps the last etags in order. -/
theorem Dates.step (hdates : Dates name live last reach) {h : Index.Happening}
    (hstep : Happens live h live') :
    ∃ last' reach', Passed name live last reach h live' last' reach' := by
  cases hstep with
  | batch sink changes => exact hdates.transacts (transacts_runBatch sink live changes)
  | drive list ending => exact hdates.transacts (transacts_drive live list ending)
  | reopen h => exact ⟨_, _, hdates.reopened h⟩
  | reload h => exact ⟨_, _, hdates.reloaded h⟩

/-- **Along a run** the stored last etag grows, and is past all that was published; and if no handle
was given up for one on the same store, the handle is past all that was recorded. -/
theorem Dates.run (hdates : Dates name live last reach) {trace : List Index.Happening}
    (hrun : Traced live trace live') :
    ∃ last' reach', Dates name live' last' reach' ∧ last.toNat ≤ last'.toNat ∧
      Index.Happening.Ahead (Index.Happening.Publishes name) trace last' ∧
      (reach.toNat ≤ live.index.lastEtag.toNat → .reloaded ∉ trace →
        reach'.toNat ≤ live'.index.lastEtag.toNat ∧
          Index.Happening.Ahead (Index.Happening.Records name) trace reach') := by
  induction hrun with
  | refl => exact ⟨last, reach, hdates, Nat.le_refl _, Index.Happening.ahead_nil _,
      fun hreach _ => ⟨hreach, Index.Happening.ahead_nil _⟩⟩
  | tail _ hstep ih =>
      obtain ⟨last₁, reach₁, hdates₁, hgrows₁, hpublished, hrecorded⟩ := ih
      obtain ⟨last₂, reach₂, hpassed⟩ := hdates₁.step hstep
      refine ⟨last₂, reach₂, hpassed.dates, Nat.le_trans hgrows₁ hpassed.grows,
        hpublished.snoc hpassed.grows (fun next hnext =>
          Nat.lt_of_le_of_lt hdates₁.counter (hpassed.drawn next hnext)) hpassed.published,
        fun hreach hnot => ?_⟩
      rw [List.mem_append, List.mem_singleton, not_or] at hnot
      obtain ⟨hreach₁, hahead⟩ := hrecorded hreach hnot.1
      obtain ⟨hle, hreach₂⟩ := hpassed.counter hreach₁ (Ne.symm hnot.2)
      exact ⟨hreach₂, hahead.snoc hle (fun next hnext =>
        Nat.lt_of_le_of_lt hreach₁ (hpassed.drawn next hnext)) hpassed.recorded⟩

/-- **A new index** begins at zero, wherever its record is replayed. -/
theorem dates_of_create {d : Definition} {config : Config} {host host' : Host β} {ix : Index}
    (hintact : Intact host.env.log.backend) {s : Snapshot}
    (hreplays : Environment.Replays host.env s)
    (htrees : ∀ n, host.env.committed.hasTree n = true → s.hasTree n = true)
    (hcreate : (Index.create d config).exec host = (.ok ix, host')) (sink : σ) :
    Dates d.name (ofHost host' ix sink) .zero .zero := by
  obtain ⟨-, rfl, u, hlay, hcommit⟩ := Index.create_eq_ok hcreate
  obtain ⟨stored, -, hu⟩ := Index.layOut_eq_ok hlay
  have hfaithful := Index.faithful_of_layOut hlay
  have hstores : u.txn.Stores d.name fun _ => some Etag.zero.encode := by
    rw [hu]
    exact Index.stores_laidOut _ d.name stored
  have hops : u.txn.ops.isEmpty = false := by
    refine Bool.eq_false_iff.2 fun hops => ?_
    -- an empty store has no last etag
    have hcell := hstores .empty .empty (by rw [Array.isEmpty_iff.1 hops]; rfl)
    cases hcell
  have hends := Environment.commit_ends hintact hfaithful config.syncOnCommit
  rw [Environment.commitFate, hops, if_neg Bool.false_ne_true, hcommit] at hends
  have hcommitted : host'.env.committed = u.txn.working := hends.committed
  obtain ⟨s', hs', htrees'⟩ := hends.replays s htrees
  refine ⟨rfl, hends.intact, ?_, Nat.le_refl _, Nat.le_refl _, s', hreplays.ends hends hs', htrees',
    ?_⟩
  · show host'.env.committed.cell _ _ = _
    rw [hcommitted]
    exact hstores _ _ hfaithful
  · exact hstores _ _ ((congrArg _ (Transaction.flatten_allOps_singleton u.txn).symm).trans hs')

/-- **No etag is handed out again.**  Along every run in which one handle on the index is open at a
time, an etag that is handed out is past all that are in a transaction committed before, and, as
long as no handle is given up for one on the same open store, past all that are in a record of the
log, be it of a failed commit.  The stored last etag never goes back, and a committed batch has the
etags right behind the counter, in the order of its changes. -/
theorem etags_never_reused {d : Definition} {config : Config} {host host' : Host β} {ix : Index}
    (hintact : Intact host.env.log.backend) {s : Snapshot}
    (hreplays : Environment.Replays host.env s)
    (htrees : ∀ n, host.env.committed.hasTree n = true → s.hasTree n = true)
    (hcreate : (Index.create d config).exec host = (.ok ix, host')) (state : σ)
    {trace : List Index.Happening} (hrun : Traced (ofHost host' ix state) trace live) :
    (trace.Pairwise fun before after => ∀ etag, before.Publishes d.name etag →
      ∀ next ∈ after.drawn, etag.toNat < next.toNat) ∧
    (.reloaded ∉ trace → trace.Pairwise fun before after => ∀ etag, before.Records d.name etag →
      ∀ next ∈ after.drawn, etag.toNat < next.toNat) ∧
    (∃ last : Etag,
      live.committed.cell (metaTree d.name) Index.lastEtagKey = some last.encode ∧
      last.toNat ≤ live.index.lastEtag.toNat ∧
      ∀ more live', Traced live more live' → ∃ last' : Etag,
        live'.committed.cell (metaTree d.name) Index.lastEtagKey = some last'.encode ∧
        last.toNat ≤ last'.toNat) ∧
    (∀ changes result deliveries live',
      (commitBatch changes).exec live = (.ok (result, deliveries), live') →
        result.etags = (live.attempted changes).drawn ∧
        result.etags.map Etag.toNat =
          List.range' (live.index.lastEtag.toNat + 1) (changes.countP Change.isPut) ∧
        ∀ before document after, changes = before ++ .put document :: after →
          ∃ etag u, (live.index.mapDocument document).exec (live.index.calls live.start
              (before.flatMap Change.calls ++ [.remove document.key])) = (.ok etag, u) ∧
            etag.toNat = live.index.lastEtag.toNat + before.countP Change.isPut + 1) ∧
    ∀ list c etags u, (live.index.perform c).exec (live.index.calls live.start list) =
        (.ok etags, u) →
      live.index.drawn live.start (list ++ [c]) = live.index.drawn live.start list ++ etags := by
  have hstart := dates_of_create hintact hreplays htrees hcreate state
  obtain ⟨last, reach, hdates, -, hpublished, hrecorded⟩ := hstart.run hrun
  refine ⟨hpublished.order, fun hnot => (hrecorded (Nat.zero_le _) hnot).2.order,
    ⟨last, hdates.stored, hdates.counter, fun more live' hmore => ?_⟩,
    fun changes result deliveries live' hcommit => ⟨?_, etags_of_commitBatch hcommit, ?_⟩,
    fun list c etags u => live.index.drawn_concat⟩
  · obtain ⟨last', _, hdates', hgrows, -⟩ := hdates.run hmore
    exact ⟨last', hdates'.stored, hgrows⟩
  · obtain ⟨hsize, hall, -, hetags⟩ := calls_of_commitBatch hcommit
    rw [attempted, attempt, if_neg hsize, hetags, hall]
    rfl
  · rintro before document after rfl
    exact exec_mapDocument_of_commitBatch hcommit

theorem etags_never_reused_of_drives :
    ∃ ix host', (Index.create Index.minimal {}).exec ⟨.fresh (Memory.mk []), #[]⟩ =
        (.ok ix, host') ∧
      let live := (((runBatch Sink.discard [.put ⟨[1], .null⟩]).exec (ofHost host' ix ())).2.drive
        [.remove [1], .map ⟨[2], .null⟩] .drop).drive [.remove [1]] (.commit true)
      ∃ last : Etag, live.committed.cell (metaTree "i") Index.lastEtagKey = some last.encode ∧
        last.toNat ≤ live.index.lastEtag.toNat := by
  obtain ⟨host', hcreate⟩ := Index.exec_create_minimal {}
  refine ⟨_, host', hcreate, ?_⟩
  have hnew : Environment.Unwritten (Environment.fresh (Memory.mk [])) := ⟨trivial, rfl, rfl, rfl⟩
  have hrun : Traced (ofHost host' ⟨Index.minimal, {}, .zero, {}⟩ ()) _ _ :=
    .tail (.tail (.tail .refl (.batch Sink.discard [.put ⟨[1], .null⟩]))
      (.drive [.remove [1], .map ⟨[2], .null⟩] .drop)) (.drive [.remove [1]] (.commit true))
  obtain ⟨-, -, ⟨last, hstored, hle, -⟩, -⟩ := etags_never_reused hnew.intact hnew.replays
    (fun _ hn => hn) hcreate () hrun
  exact ⟨last, hstored, hle⟩

end Live

end Rollup
