import Rollup.Proofs.Index.Driving
import Rollup.Proofs.Index.Invisible
import Rollup.Proofs.Index.Names
import Rollup.Proofs.Index.Readable
import Rollup.Proofs.Index.Reopening

/-!
# Desks — several indexes in one store

Indexes are created in one store and opened, batches are run through any of their handles, and
transactions are driven by hand, with one context after another, each for one index (`Desk.act`).

A deed creates an index, or it keeps whatever the calls of the indexes that it works on keep
(`Desk.Worked`, `Desk.Tidy.act_cases`).  So the trees of the store are those of the indexes that
were created, and all of these can be opened (`Desk.Tidy`, `Desk.Tidy.run`).
-/

namespace Rollup

open Rollup.Action Update

/-! ### Trees of indexes -/

/-- Every tree is one of these indexes. -/
def Snapshot.Houses (names : List String) (s : Snapshot) : Prop :=
  ∀ n, s.hasTree n = true → ∃ name ∈ names, ∃ site : Site, n = site.tree name

/-- No tree is changed but those of certain indexes. -/
def Snapshot.ChangesOnly (may : String → Prop) (s t : Snapshot) : Prop :=
  ∀ n, (∀ name, may name → ∀ site : Site, n ≠ site.tree name) → s.SameTree n t

theorem Snapshot.ChangesOnly.refl (may : String → Prop) (s : Snapshot) : s.ChangesOnly may s :=
  fun n _ => .refl n s

/-- The trees of an index are the same. -/
def Snapshot.SameIndex (name : String) (s t : Snapshot) : Prop :=
  ∀ n, beforeSlash n = name.toList → s.SameTree n t

theorem Snapshot.SameIndex.site {name : String} {s t : Snapshot} (h : s.SameIndex name t)
    (hname : Slashless name) (site : Site) : s.SameTree (site.tree name) t :=
  h _ (Site.beforeSlash_tree hname site)

theorem Snapshot.ChangesOnly.sameIndex {may : String → Prop} {s t : Snapshot}
    (h : s.ChangesOnly may t) (hmay : ∀ name, may name → Slashless name) {name : String}
    (hnot : ¬ may name) : s.SameIndex name t := by
  intro n hn
  refine h n fun name' hname' site htree => hnot ?_
  rw [htree, Site.beforeSlash_tree (hmay name' hname')] at hn
  rwa [← String.toList_injective hn]

/-- An index that has settings is one of these. -/
theorem Snapshot.Houses.mem {names : List String} {s : Snapshot} (h : s.Houses names)
    {name : String} (hmeta : s.hasTree (metaTree name) = true) : name ∈ names := by
  obtain ⟨name', hmem, site, htree⟩ := h _ hmeta
  obtain ⟨rfl, -⟩ := Site.metaTree_eq_iff.1 htree
  exact hmem

namespace Operation

/-- The operation is on a tree of the index. -/
def On (index : String) (op : Operation) : Prop := ∃ site : Site, op.tree = site.tree index

variable {index name : String} {key value : Bytes}

theorem OfCall.on {op : Operation} (h : OfCall index op) : op.On index := by
  cases h <;> exact ⟨_, rfl⟩

/-- Among settings, calls write the last etag only. -/
theorem OfCall.of_put_settings (h : OfCall index (.put (metaTree name) key value)) :
    key = Index.lastEtagKey ∧ ∃ etag : Etag, value = etag.encode := by
  generalize hop : Operation.put (metaTree name) key value = op at h
  cases h with
  | bucket hash => cases hop
  | delete hsite k => cases hop
  | groupKey k v =>
      obtain ⟨htree, -, -⟩ := Operation.put.inj hop
      cases (Site.metaTree_eq_iff.1 htree).2
  | enter htells =>
      obtain ⟨htree, rfl, rfl⟩ := Operation.put.inj hop
      obtain ⟨-, rfl⟩ := Site.metaTree_eq_iff.1 htree
      exact ⟨htells.1, _, htells.2⟩

/-- They delete none. -/
theorem OfCall.not_delete_settings : ¬ OfCall index (.delete (metaTree name) key) := by
  intro h
  generalize hop : Operation.delete (metaTree name) key = op at h
  cases h with
  | delete hsite k => exact hsite (Site.metaTree_eq_iff.1 (Operation.delete.inj hop).1).2
  | _ => cases hop

/-- They enter rows under etags. -/
theorem OfCall.of_put_entries (hindex : Slashless index) (hname : Slashless name)
    (h : OfCall index (.put (entryTable name) key value)) : ∃ etag : Etag, key = etag.encode := by
  generalize hop : Operation.put (entryTable name) key value = op at h
  have hsite : ∀ {site : Site}, entryTable name = site.tree index → .entries = site := fun h =>
    ((Site.tree_eq_iff hname hindex).1 (Site.tree_entries name ▸ h)).2
  cases h with
  | bucket hash => cases hop
  | delete _ k => cases hop
  | groupKey k v => cases hsite (Operation.put.inj hop).1
  | enter htells =>
      obtain ⟨htree, rfl, rfl⟩ := Operation.put.inj hop
      obtain rfl := hsite htree
      exact ⟨_, htells⟩

end Operation

namespace Transaction

variable {index : String}

/-- What operations on an index keep, its calls keep. -/
theorem Kept.calls {P : Transaction → Prop} (hP : Kept (Operation.On index) P) :
    Kept (Operation.OfCall index) P := hP.mono fun _ => Operation.OfCall.on

/-- An operation on an index leaves the trees of all others. -/
theorem kept_changesOnly {may : String → Prop} (hmay : may index) (s : Snapshot) :
    Kept (Operation.On index) fun txn => s.ChangesOnly may txn.working where
  push := by
    rintro txn op t ⟨site, htree⟩ happly h n hn
    exact (h n hn).trans (Operation.sameTree_of_apply happly (htree ▸ hn index hmay site))

theorem kept_houses {names : List String} (hmem : index ∈ names) :
    Kept (Operation.On index) fun txn => txn.working.Houses names where
  push := by
    rintro txn op t ⟨site, htree⟩ happly h n hn
    by_cases hop : n = op.tree
    · exact ⟨index, hmem, site, hop.trans htree⟩
    · rw [(Operation.sameTree_of_apply happly hop).hasTree] at hn
      exact h n hn

/-- **Calls keep every index one that can be opened**, whichever they are of. -/
theorem kept_openable (hindex : Slashless index) {d : Definition} (hd : Slashless d.name) :
    Kept (Operation.OfCall index) fun txn => Index.Openable d txn.working where
  push {txn op t} hop happly h := by
    obtain ⟨⟨stored, hstored, hdefinition⟩, ⟨last, hlast⟩, htable, hkeys⟩ := h
    refine ⟨⟨stored, hstored, ?_⟩, ?_, Operation.hasTree_of_apply happly htable, fun k v hv => ?_⟩
    · -- the definition is not written again
      rcases Operation.cell_cases happly (metaTree d.name) Index.definitionKey with
        hsame | ⟨v, rfl, -⟩ | ⟨rfl, -⟩
      · exact hsame.trans hdefinition
      · exact absurd hop.of_put_settings.1 Contents.definitionKey_ne
      · exact absurd hop Operation.OfCall.not_delete_settings
    · rcases Operation.cell_cases happly (metaTree d.name) Index.lastEtagKey with
        hsame | ⟨v, rfl, hv⟩ | ⟨rfl, -⟩
      · exact ⟨last, hsame.trans hlast⟩
      · obtain ⟨-, etag, rfl⟩ := hop.of_put_settings
        exact ⟨etag, hv⟩
      · exact absurd hop Operation.OfCall.not_delete_settings
    · rcases Operation.cell_of_apply happly hv with hv | rfl
      · exact hkeys k v hv
      · exact hop.of_put_entries hindex hd

end Transaction

theorem Index.Openable.congr {d : Definition} {s t : Snapshot} (h : Openable d s)
    (hd : Slashless d.name) (hsame : s.SameIndex d.name t) : Openable d t := by
  have hmeta : s.SameTree (metaTree d.name) t := hsame.site hd .settings
  have htable : s.SameTree (entryTable d.name) t := hsame.site hd .entries
  refine ⟨?_, ?_, ?_, fun k v hv => h.keys k v ?_⟩
  · simpa only [hmeta.cell] using h.definition
  · simpa only [hmeta.cell] using h.lastEtag
  · rw [htable.hasTree, h.table]
  · rwa [htable.cell] at hv

/-! ### Deeds -/

/-- The work on one index inside a transaction: calls, each made through a handle. -/
structure Context where
  index : String
  calls : List (Nat × Index.Call)

/-- What is done next. -/
inductive Deed (σ : Type) where
  | create (d : Definition) (config : Config)
  | load (name : String) (config : Config)
  | batch (handle : Nat) (job : Live.Job σ)
  | reduceAll (handle : Nat) (sink : Sink σ)
  | transact (contexts : List Context) (ending : Transaction.Ending)

/-- A store with open handles, and the indexes that were created in it. -/
structure Desk (β σ : Type) extends Host β where
  handles : List Index
  sink : σ
  created : List Definition

/-- An open transaction, with the handles beside it. -/
structure Session where
  handles : List Index
  txn : Transaction
  events : Array Event

namespace Context

/-- A call through a handle.  It is made if the handle is on the index of the context. -/
def call (state : List Index × Update) (c : Nat × Index.Call) : List Index × Update :=
  match state.1[c.1]? with
  | none => state
  | some ix =>
    if ix.name = state.2.index then
      let u := ix.call (state.2.withLast ix.lastEtag) c.2
      (state.1.set c.1 { ix with lastEtag := u.lastEtag }, u)
    else state

/-- The session after a context was opened, used and let go. -/
def run (session : Session) (context : Context) : Session :=
  let (handles, u) :=
    context.calls.foldl call (session.handles, .on context.index session.txn .zero)
  ⟨handles, u.txn, session.events ++ u.events.push u.released⟩

variable {names : List String} {P : Transaction → Prop}

theorem keeps_call {index : String}
    (hP : index ∈ names → Transaction.Kept (Operation.OfCall index) P)
    {state : List Index × Update} (hhandles : ∀ ix ∈ state.1, ix.name ∈ names)
    (h : Works index P state.2) (c : Nat × Index.Call) :
    (∀ ix ∈ (call state c).1, ix.name ∈ names) ∧ Works index P (call state c).2 := by
  obtain ⟨handles, u⟩ := state
  rw [call]
  cases hix : handles[c.1]? with
  | none => exact ⟨hhandles, h⟩
  | some ix =>
      have hmem : ix.name ∈ names := hhandles ix (List.mem_of_getElem? hix)
      dsimp only
      split
      · next hname =>
        obtain rfl : ix.name = index := hname.trans h.1
        have hworks : Works ix.name P (u.withLast ix.lastEtag) := h
        refine ⟨fun jx hjx => ?_, ix.works_calls (hP hmem) hworks [c.2]⟩
        rcases List.mem_or_eq_of_mem_set hjx with hjx | rfl
        · exact hhandles jx hjx
        · exact hmem
      · exact ⟨hhandles, h⟩

theorem keeps_calls {index : String}
    (hP : index ∈ names → Transaction.Kept (Operation.OfCall index) P)
    {state : List Index × Update} (hhandles : ∀ ix ∈ state.1, ix.name ∈ names)
    (h : Works index P state.2) (calls : List (Nat × Index.Call)) :
    (∀ ix ∈ (calls.foldl call state).1, ix.name ∈ names) ∧
      Works index P (calls.foldl call state).2 := by
  induction calls generalizing state with
  | nil => exact ⟨hhandles, h⟩
  | cons c calls ih =>
      obtain ⟨hhandles, h⟩ := keeps_call hP hhandles h c
      exact ih hhandles h

theorem keeps_run {session : Session} {context : Context}
    (hP : context.index ∈ names → Transaction.Kept (Operation.OfCall context.index) P)
    (hhandles : ∀ ix ∈ session.handles, ix.name ∈ names) (h : P session.txn) :
    (∀ ix ∈ (run session context).handles, ix.name ∈ names) ∧ P (run session context).txn := by
  have hworks : Works context.index P (.on context.index session.txn .zero) := ⟨rfl, h⟩
  obtain ⟨hafter, hworks⟩ :=
    @keeps_calls _ _ _ hP (session.handles, _) hhandles hworks context.calls
  exact ⟨hafter, hworks.2⟩

/-- **What calls keep**, contexts keep one after another. -/
theorem keeps_all {contexts : List Context}
    (hP : ∀ context ∈ contexts, context.index ∈ names →
      Transaction.Kept (Operation.OfCall context.index) P)
    {session : Session} (hhandles : ∀ ix ∈ session.handles, ix.name ∈ names)
    (h : P session.txn) :
    (∀ ix ∈ (contexts.foldl run session).handles, ix.name ∈ names) ∧
      P (contexts.foldl run session).txn := by
  induction contexts generalizing session with
  | nil => exact ⟨hhandles, h⟩
  | cons context contexts ih =>
      rw [List.forall_mem_cons] at hP
      obtain ⟨hhandles, h⟩ := keeps_run hP.1 hhandles h
      exact ih hP.2 hhandles h

end Context

namespace Desk

variable {β σ : Type}

/-- The names of the indexes that were created. -/
def names (s : Desk β σ) : List String := s.created.map (·.name)

/-- The committed snapshot. -/
def committed (s : Desk β σ) : Snapshot := s.env.committed

/-- Puts the index of a handle to work. -/
def through (s : Desk β σ) (handle : Nat) (f : Live β σ → Live β σ) : Desk β σ :=
  match s.handles[handle]? with
  | none => s
  | some ix =>
    let live := f (.ofHost s.toHost ix s.sink)
    ⟨live.toHost, s.handles.set handle live.index, live.sink, s.created⟩

/-- The indexes whose trees a deed may change. -/
def worksOn (s : Desk β σ) : Deed σ → List String
  | .create d _ => [d.name]
  | .batch handle _ => s.handles[handle]?.toList.map Index.name
  | .transact contexts _ => contexts.map (·.index)
  | .load _ _ | .reduceAll _ _ => []

/-- A transaction in which these contexts were used, before its end. -/
def session (s : Desk β σ) (contexts : List Context) : Session :=
  contexts.foldl Context.run ⟨s.handles, s.env.begin, s.events⟩

variable [Backend β]

/-- The desk after a deed. -/
def act (s : Desk β σ) : Deed σ → Desk β σ
  | .create d config =>
    match (Index.create d config).exec s.toHost with
    | (.ok ix, host) => ⟨host, s.handles ++ [ix], s.sink, s.created ++ [d]⟩
    | (.error _, host) => { s with toHost := host }
  | .load name config =>
    match (Index.load name config).exec s.toHost with
    | (.ok ix, host) => { s with toHost := host, handles := s.handles ++ [ix] }
    | (.error _, host) => { s with toHost := host }
  | .batch handle job => s.through handle (·.after job)
  | .reduceAll handle sink => s.through handle fun live => ((Live.reduceAll sink).exec live).2
  | .transact contexts ending =>
    let session := s.session contexts
    -- the etags that were drawn stay drawn, however the transaction ends
    let noted := { s with handles := session.handles, events := session.events }
    match ending with
    | .commit sync =>
      { noted with toHost := ((Host.commit session.txn sync).exec noted.toHost).2 }
    | .drop => noted

/-! ### What a deed does -/

/-- What is made of a desk by calls of these indexes. -/
structure Worked (s : Desk β σ) (indexes : List String) (s' : Desk β σ) : Prop where
  created : s'.created = s.created
  handles : ∀ ix ∈ s'.handles, ix.name ∈ s.names
  keeps : ∀ P : Snapshot → Prop, (∀ index ∈ indexes, index ∈ s.names →
      Transaction.Kept (Operation.OfCall index) fun txn => P txn.working) →
    P s.committed → P s'.committed

variable {s : Desk β σ} (hhandles : ∀ ix ∈ s.handles, ix.name ∈ s.names)

include hhandles

omit [Backend β] in
/-- The index of a handle at work. -/
theorem worked_through {handle : Nat} {indexes : List String} {f : Live β σ → Live β σ}
    (hname : ∀ live, (f live).index.name = live.index.name)
    (hf : ∀ ix ∈ s.handles[handle]?, ∀ P : Snapshot → Prop, (∀ index ∈ indexes, index ∈ s.names →
        Transaction.Kept (Operation.OfCall index) fun txn => P txn.working) →
      P s.committed → P (f (.ofHost s.toHost ix s.sink)).committed) :
    s.Worked indexes (s.through handle f) := by
  rw [through]
  cases hix : s.handles[handle]? with
  | none => exact ⟨rfl, hhandles, fun _ _ h => h⟩
  | some ix =>
      refine ⟨rfl, fun jx hjx => ?_, hf ix hix⟩
      rcases List.mem_or_eq_of_mem_set hjx with hjx | rfl
      · exact hhandles jx hjx
      · rw [hname]
        exact hhandles ix (List.mem_of_getElem? hix)

theorem worked_batch (handle : Nat) (job : Live.Job σ) :
    s.Worked (s.worksOn (.batch handle job)) (s.act (.batch handle job)) := by
  have htransacts := fun live : Live β σ => Live.transacts_runBatch job.sink live job.changes
  refine worked_through hhandles (fun live => (htransacts live).name) fun ix hix P hP h => ?_
  rcases (htransacts (.ofHost s.toHost ix s.sink)).committed with ⟨hcalls, -⟩ | hsame
  · have hkept : Transaction.Kept (Operation.OfCall ix.name) fun txn => P txn.working := by
      refine hP ix.name ?_ (hhandles ix (List.mem_of_getElem? hix))
      rw [worksOn, Option.mem_def.1 hix]
      exact List.mem_singleton_self _
    show P (Live.committed ((Live.runBatch job.sink job.changes).exec _).2)
    rw [hcalls]
    exact (ix.works_calls hkept ⟨rfl, h⟩ _).2
  · show P (Live.committed ((Live.runBatch job.sink job.changes).exec _).2)
    rw [hsame]
    exact h

omit hhandles [Backend β] in
/-- Reducing changes nothing in the store. -/
theorem preserves_reduceAll (sink : Sink σ) (env : Environment β) (name : String) :
    Preserves (fun live : Live β σ => live.env = env ∧ live.index.name = name)
      (Live.reduceAll sink) := by
  refine preserves_get.bind fun _ => (preserves_lift _).bind fun hashes => ?_
  refine .bind (fun live h => ?_) fun _ => .bind (preserves_modify fun _ h => h) fun _ =>
    .bind (preserves_modify fun _ h => h) fun _ => preserves_pure _
  obtain ⟨_, state, hexec, -⟩ := Live.tells_reduceGroups sink hashes live
  rw [hexec]
  exact h

theorem worked_reduceAll (handle : Nat) (sink : Sink σ) :
    s.Worked (s.worksOn (.reduceAll handle sink)) (s.act (.reduceAll handle sink)) := by
  have hreduce := fun live : Live β σ =>
    preserves_reduceAll sink live.env live.index.name live ⟨rfl, rfl⟩
  refine worked_through hhandles (fun live => (hreduce live).2) fun ix _ P _ h => ?_
  show P (Environment.committed _)
  rw [(hreduce _).1]
  exact h

omit [Backend β] in
theorem keeps_session (contexts : List Context) {P : Transaction → Prop}
    (hP : ∀ context ∈ contexts, context.index ∈ s.names →
      Transaction.Kept (Operation.OfCall context.index) P) (h : P s.env.begin) :
    (∀ ix ∈ (s.session contexts).handles, ix.name ∈ s.names) ∧ P (s.session contexts).txn :=
  Context.keeps_all hP hhandles h

theorem worked_transact (contexts : List Context) (ending : Transaction.Ending) :
    s.Worked (s.worksOn (.transact contexts ending)) (s.act (.transact contexts ending)) := by
  have hfaithful := keeps_session hhandles contexts
    (fun _ _ _ => (Transaction.kept_faithful s.committed).mono fun _ _ => trivial)
    (Transaction.faithful_on _)
  cases ending with
  | drop => exact ⟨rfl, hfaithful.1, fun _ _ h => h⟩
  | commit sync =>
      refine ⟨rfl, hfaithful.1, fun P hP h => ?_⟩
      have hafter : P (s.session contexts).txn.working := (keeps_session hhandles contexts
        (fun context hmem => hP context.index (List.mem_map_of_mem hmem)) h).2
      obtain ⟨events, hhost⟩ := Environment.exec_hostCommit (s.session contexts).txn sync
        ⟨s.env, (s.session contexts).events⟩
      show P ((Host.commit (s.session contexts).txn sync).exec ⟨s.env, _⟩).2.env.committed
      rw [hhost]
      rcases Environment.committed_commit hfaithful.2 sync with hall | hsame
      · rw [hall]
        exact hafter
      · rw [hsame]
        exact h

/-! ### What every deed keeps -/

/-- The trees are those of the indexes that were created, and all of these can be opened. -/
structure Tidy (s : Desk β σ) : Prop where
  defined : ∀ d ∈ s.created, d.validate = .ok () ∧ d.Parsed ∧ d.toValue.Within
  distinct : s.names.Nodup
  handles : ∀ ix ∈ s.handles, ix.name ∈ s.names
  houses : s.committed.Houses s.names
  openable : ∀ d ∈ s.created, Index.Openable d s.committed

omit hhandles [Backend β]

theorem tidy_new {host : Host β} (hempty : host.env.committed = .empty) (sink : σ) :
    Tidy ⟨host, [], sink, []⟩ where
  defined _ hd := (by cases hd)
  distinct := .nil
  handles _ hix := (by cases hix)
  houses n hn := by
    rw [committed, hempty] at hn
    cases hn
  openable _ hd := (by cases hd)

namespace Tidy

theorem slashless (h : s.Tidy) {name : String} (hmem : name ∈ s.names) : Slashless name := by
  obtain ⟨d, hd, rfl⟩ := List.mem_map.1 hmem
  exact Definition.slashless_of_validate (h.defined d hd).1

/-- The indexes that were created are those that have settings. -/
theorem mem_names_iff (h : s.Tidy) {name : String} :
    name ∈ s.names ↔ s.committed.hasTree (metaTree name) = true := by
  refine ⟨fun hmem => ?_, h.houses.mem⟩
  obtain ⟨d, hd, rfl⟩ := List.mem_map.1 hmem
  exact (h.openable d hd).settings

/-- Where no index was created, there is nothing. -/
theorem vacant (h : s.Tidy) {name : String} (hslash : Slashless name) (hnot : name ∉ s.names) :
    s.committed.Vacant name := by
  intro site k
  refine Snapshot.cell_of_not_hasTree (Bool.eq_false_iff.2 fun htree => hnot ?_) k
  obtain ⟨name', hmem, site', heq⟩ := h.houses _ htree
  obtain ⟨rfl, -⟩ := (Site.tree_eq_iff hslash (h.slashless hmem)).1 heq
  exact hmem

variable {s' : Desk β σ} {indexes : List String}

/-- **Calls** keep a desk tidy. -/
theorem of_worked (h : s.Tidy) (hw : s.Worked indexes s') : s'.Tidy := by
  have hnames : s'.names = s.names := congrArg (List.map _) hw.created
  refine ⟨hw.created ▸ h.defined, hnames ▸ h.distinct, hnames ▸ hw.handles, ?_, ?_⟩
  · rw [hnames]
    exact hw.keeps _ (fun _ _ hmem => (Transaction.kept_houses hmem).calls) h.houses
  · rw [hw.created]
    intro d hd
    have hslash := Definition.slashless_of_validate (h.defined d hd).1
    exact hw.keeps _ (fun index _ hmem => Transaction.kept_openable (h.slashless hmem) hslash)
      (h.openable d hd)

variable [Backend β]

theorem worked_load (h : s.Tidy) (name : String) (config : Config) :
    s.Worked (s.worksOn (.load name config)) (s.act (.load name config)) := by
  obtain ⟨events, hload⟩ := Live.exec_load_eq name config s.toHost
  rw [act, hload]
  cases hfound : Index.ofSnapshot name config s.env.committed with
  | error e => exact ⟨rfl, h.handles, fun _ _ h => h⟩
  | ok ix =>
      refine ⟨rfl, fun jx hjx => ?_, fun _ _ h => h⟩
      rcases List.mem_append.1 hjx with hjx | hjx
      · exact h.handles jx hjx
      · cases List.mem_singleton.1 hjx
        rw [(Index.name_of_ofSnapshot hfound).1]
        by_contra hnot
        rw [h.mem_names_iff] at hnot
        cases (Index.ofSnapshot_of_not_hasTree hnot config).symm.trans hfound

/-- **A deed** is calls of the indexes that it works on, or it creates one. -/
theorem act_cases (h : s.Tidy) (deed : Deed σ) :
    s.Worked (s.worksOn deed) (s.act deed) ∨
      ∃ d config ix host, deed = .create d config ∧
        (Index.create d config).exec s.toHost = (.ok ix, host) ∧
        s.act deed = ⟨host, s.handles ++ [ix], s.sink, s.created ++ [d]⟩ := by
  cases deed with
  | load name config => exact .inl (h.worked_load name config)
  | batch handle job => exact .inl (worked_batch h.handles handle job)
  | reduceAll handle sink => exact .inl (worked_reduceAll h.handles handle sink)
  | transact contexts ending => exact .inl (worked_transact h.handles contexts ending)
  | create d config =>
      rw [act]
      rcases hcreate : (Index.create d config).exec s.toHost with ⟨e | ix, host⟩
      · have hsame : host.env.committed = s.committed := Index.committed_of_create_error hcreate
        refine .inl ⟨rfl, h.handles, fun P _ hP => ?_⟩
        show P host.env.committed
        rwa [hsame]
      · exact .inr ⟨d, config, ix, host, rfl, hcreate, rfl⟩

end Tidy

section

variable [Backend β] {d : Definition} {config : Config} {host : Host β} {ix : Index}

/-- A creation keeps what the operations on its trees keep. -/
theorem keeps_create {host' : Host β}
    (hcreate : (Index.create d config).exec host = (.ok ix, host')) {P : Snapshot → Prop}
    (hP : Transaction.Kept (Operation.On d.name) fun txn => P txn.working)
    (h : P host.env.committed) : P host'.env.committed := by
  obtain ⟨-, -, u, hlay, hcommit⟩ := Index.create_eq_ok hcreate
  have hkept := Index.preserves_layOut hP (fun site => ⟨site, rfl⟩) (fun _ _ => ⟨.settings, rfl⟩)
    (.on d.name host.env.begin .zero) h
  rw [hlay] at hkept
  rw [Index.committed_of_layOut hlay hcommit]
  exact hkept

/-- **A deed changes no tree** but those of the indexes that it works on. -/
theorem Tidy.changesOnly (h : s.Tidy) (deed : Deed σ) :
    s.committed.ChangesOnly (fun name => name ∈ s.worksOn deed ∧ Slashless name)
      (s.act deed).committed := by
  rcases h.act_cases deed with hw | ⟨d, config, ix, host, rfl, hcreate, hact⟩
  · refine hw.keeps _ (fun index hindex hmem => ?_) (.refl _ _)
    exact (Transaction.kept_changesOnly ⟨hindex, h.slashless hmem⟩ _).calls
  · have hslash := Definition.slashless_of_validate (Index.create_eq_ok hcreate).1
    rw [hact]
    exact keeps_create hcreate
      (Transaction.kept_changesOnly ⟨List.mem_singleton_self _, hslash⟩ _) (.refl _ _)

/-- An index that a deed does not work on has the same trees. -/
theorem Tidy.sameIndex (h : s.Tidy) (deed : Deed σ) {name : String}
    (hnot : name ∉ s.worksOn deed) : s.committed.SameIndex name (s.act deed).committed :=
  (h.changesOnly deed).sameIndex (fun _ hmay => hmay.2) fun hmay => hnot hmay.1

/-- **A new index** beside the others. -/
theorem Tidy.create (h : s.Tidy) (hparsed : d.Parsed) (hwithin : d.toValue.Within)
    (hcreate : (Index.create d config).exec s.toHost = (.ok ix, host)) :
    Tidy ⟨host, s.handles ++ [ix], s.sink, s.created ++ [d]⟩ := by
  obtain ⟨hvalid, rfl, u, hlay, -⟩ := Index.create_eq_ok hcreate
  have hslash := Definition.slashless_of_validate hvalid
  have hfree : d.name ∉ s.names := by
    rw [h.mem_names_iff]
    exact Index.free_of_layOut hlay
  have hnames : (s.created ++ [d]).map (·.name) = s.names ++ [d.name] := List.map_append
  have hmem : ∀ name, name ∈ s.names ++ [d.name] ↔ name ∈ s.names ∨ name = d.name := by simp
  have hothers : ∀ name, name ≠ d.name → s.committed.SameIndex name host.env.committed := by
    intro name hne
    have hsame := h.sameIndex (.create d config) (mt List.mem_singleton.1 hne)
    rw [act, hcreate] at hsame
    exact hsame
  obtain ⟨stored, -, hat⟩ := Index.at_of_create (h.vacant hslash hfree) hcreate s.sink
  refine ⟨?_, ?_, fun jx hjx => ?_, ?_, ?_⟩
  · exact List.forall_mem_append.2 ⟨h.defined, by simpa using ⟨hvalid, hparsed, hwithin⟩⟩
  · rw [names, hnames, ← List.concat_eq_append]
    exact h.distinct.concat hfree
  · rw [names, hnames, hmem]
    rcases List.mem_append.1 hjx with hjx | hjx
    · exact .inl (h.handles jx hjx)
    · exact .inr (congrArg Index.name (List.mem_singleton.1 hjx))
  · rw [names, hnames]
    refine keeps_create hcreate (Transaction.kept_houses ((hmem _).2 (.inr rfl))) fun n hn => ?_
    obtain ⟨name, hname, site, htree⟩ := h.houses n hn
    exact ⟨name, (hmem name).2 (.inl hname), site, htree⟩
  · refine List.forall_mem_append.2 ⟨fun d' hd' => ?_, ?_⟩
    · have hne : d'.name ≠ d.name := fun e => hfree (e ▸ List.mem_map_of_mem hd')
      exact (h.openable d' hd').congr (h.slashless (List.mem_map_of_mem hd')) (hothers _ hne)
    · rw [List.forall_mem_singleton]
      exact Index.openable_of_holds hat.holds hat.definition

/-- **Every deed** keeps a desk tidy. -/
theorem Tidy.act (h : s.Tidy) {deed : Deed σ}
    (hdef : ∀ d config, deed = .create d config → d.Parsed ∧ d.toValue.Within) :
    (s.act deed).Tidy := by
  rcases h.act_cases deed with hw | ⟨d, config, ix, host, rfl, hcreate, hact⟩
  · exact h.of_worked hw
  · obtain ⟨hparsed, hwithin⟩ := hdef d config rfl
    rw [hact]
    exact h.create hparsed hwithin hcreate

/-- **Along every run** a desk is tidy. -/
theorem Tidy.run (h : s.Tidy) {deeds : List (Deed σ)}
    (hdefs : ∀ d config, .create d config ∈ deeds → d.Parsed ∧ d.toValue.Within) :
    (deeds.foldl Desk.act s).Tidy := by
  induction deeds generalizing s with
  | nil => exact h
  | cons deed deeds ih =>
      refine ih (h.act fun d config hdeed => ?_) fun d config hmem => ?_
      · exact hdefs d config (hdeed ▸ List.mem_cons_self)
      · exact hdefs d config (List.mem_cons_of_mem _ hmem)

end

end Desk

end Rollup
