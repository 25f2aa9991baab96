import Rollup.Proofs.Index.Creation
import Rollup.Proofs.Index.Definition
import Rollup.Proofs.Storage.Recovery
import Rollup.Proofs.Value.Reading

/-!
# Reopening — an index is found again as it was

What a log holds is what was committed as long as no commit of a batch is stranded
(`logged_runBatch`).  Then closing a store and opening it again gives its snapshot back, and an
index that can be opened there has its definition and hands out no etag a second time
(`Reopened.found`).  It can be opened if its definition keeps to the limits of the reader
(`Openable.ofSnapshot`).
-/

namespace Rollup

open Rollup.Action BackendView

namespace Index

/-! ### What is loaded -/

variable {d : Definition} {s : Snapshot} {c : Contents}

theorem storedDefinition_eq (h : c.Holds d.name s) (hvalid : d.validate = .ok ())
    (hparsed : d.Parsed) (hstored : d.toValue.encode = .ok c.definition)
    (hlen : c.definition.length < Bytes.capacity 4) {found : Definition}
    (hfound : storedDefinition d.name s = .ok found) : found = d := by
  have htree : s.hasTree (metaTree d.name) = true := h.settings
  rw [storedDefinition, if_pos htree, Snapshot.lookup_eq, if_pos htree, h.definition_eq] at hfound
  obtain ⟨_, hlookup, hfound⟩ := bind_eq_ok_iff.1 hfound
  cases hlookup
  obtain ⟨v, hv, hfound⟩ := bind_eq_ok_iff.1 hfound
  rw [mapError_eq_ok_iff] at hv
  have hv := Value.eq_of_decode_encode (Definition.canonical_toValue d) hstored
    (Nat.lt_trans hlen (by decide)) hv
  obtain ⟨d', hd', hfound⟩ := bind_eq_ok_iff.1 hfound
  rw [hv, Definition.ofValue_toValue hvalid hparsed] at hd'
  cases hd'
  rw [if_pos rfl] at hfound
  cases hfound
  rfl

/-- An index without settings is not found. -/
theorem ofSnapshot_of_not_hasTree {name : String} (h : ¬ s.hasTree (metaTree name) = true)
    (config : Config) : ofSnapshot name config s = .error (.notFound name) := by
  rw [ofSnapshot, storedDefinition, if_neg h]
  rfl

/-- An index that is opened has its name. -/
theorem name_of_ofSnapshot {name : String} {config : Config} {ix : Index}
    (hload : ofSnapshot name config s = .ok ix) : ix.name = name ∧ ix.config = config := by
  obtain ⟨d', hd', hload⟩ := bind_eq_ok_iff.1 hload
  obtain ⟨etag, -, hload⟩ := bind_eq_ok_iff.1 hload
  cases hload
  refine ⟨?_, rfl⟩
  by_cases htree : s.hasTree (metaTree name) = true
  swap
  · rw [storedDefinition, if_neg htree] at hd'
    cases hd'
  rw [storedDefinition, if_pos htree] at hd'
  obtain ⟨found, -, hd'⟩ := bind_eq_ok_iff.1 hd'
  cases found with
  | none => cases hd'
  | some stored =>
      obtain ⟨v, -, hd'⟩ := bind_eq_ok_iff.1 hd'
      obtain ⟨found, -, hd'⟩ := bind_eq_ok_iff.1 hd'
      by_cases hname : found.name = name
      · rw [if_pos hname] at hd'
        cases hd'
        exact hname
      · rw [if_neg hname] at hd'
        cases hd'

/-- An index that is opened goes on from the stored last etag, or from the greatest in the table. -/
theorem storedLastEtag_cases {name : String} {last etag : Etag}
    (hlast : s.cell (metaTree name) lastEtagKey = some last.encode)
    (hfound : storedLastEtag name s = .ok etag) :
    etag = last ∨ ∃ top, EntryTable.lastEtag? name s = .ok (some top) ∧ etag = top.max last := by
  rw [storedLastEtag, Snapshot.lookup_eq, if_pos (Snapshot.hasTree_of_cell hlast), hlast] at hfound
  obtain ⟨_, hlookup, hfound⟩ := bind_eq_ok_iff.1 hfound
  cases hlookup
  obtain ⟨persisted, hpersisted, hfound⟩ := bind_eq_ok_iff.1 hfound
  rw [Etag.decode_encode] at hpersisted
  cases hpersisted
  obtain ⟨top?, htop, hfound⟩ := bind_eq_ok_iff.1 hfound
  cases top? <;> cases hfound
  · exact .inl rfl
  · exact .inr ⟨_, htop, rfl⟩

theorem lastEtag_of_ofSnapshot {name : String} {config : Config} {ix : Index} {last : Etag}
    (hlast : s.cell (metaTree name) lastEtagKey = some last.encode)
    (hload : ofSnapshot name config s = .ok ix) : last.toNat ≤ ix.lastEtag.toNat := by
  obtain ⟨d', -, hload⟩ := bind_eq_ok_iff.1 hload
  obtain ⟨etag, hetag, hload⟩ := bind_eq_ok_iff.1 hload
  cases hload
  rcases storedLastEtag_cases hlast hetag with rfl | ⟨top, -, rfl⟩
  · exact Nat.le_refl _
  · exact Etag.le_max_right top last

/-- Where no row is ahead of the stored last etag, it goes on right from there. -/
theorem lastEtag_eq_of_ofSnapshot {name : String} {config : Config} {ix : Index}
    (h : c.Holds name s) (hl : c.Lockstep) (hload : ofSnapshot name config s = .ok ix) :
    ix.lastEtag = c.last := by
  obtain ⟨d', -, hload⟩ := bind_eq_ok_iff.1 hload
  obtain ⟨etag, hetag, hload⟩ := bind_eq_ok_iff.1 hload
  cases hload
  rcases storedLastEtag_cases h.last_eq hetag with rfl | ⟨top, htop, rfl⟩
  · rfl
  · obtain ⟨m, hm⟩ := EntryTable.mem_of_lastEtag? h.table htop
    exact Etag.max_eq_right (hl.bounded top m hm)

/-- What has to be stored for an index to be opened. -/
structure Openable (d : Definition) (s : Snapshot) : Prop where
  definition : ∃ stored, d.toValue.encode = .ok stored ∧
    s.cell (metaTree d.name) definitionKey = some stored
  lastEtag : ∃ last : Etag, s.cell (metaTree d.name) lastEtagKey = some last.encode
  table : s.hasTree (entryTable d.name) = true
  keys : EntryTable.Keyed d.name s

theorem openable_of_holds (h : c.Holds d.name s) (hstored : d.toValue.encode = .ok c.definition) :
    Openable d s :=
  ⟨⟨_, hstored, h.definition_eq⟩, ⟨_, h.last_eq⟩, h.table.created, h.table.keyed⟩

namespace Openable

theorem settings (h : Openable d s) : s.hasTree (metaTree d.name) = true := by
  obtain ⟨last, hlast⟩ := h.lastEtag
  exact Snapshot.hasTree_of_cell hlast

/-- A definition that keeps to the limits of the reader is found. -/
theorem storedDefinition (h : Openable d s) (hvalid : d.validate = .ok ()) (hparsed : d.Parsed)
    (hwithin : d.toValue.Within) : Index.storedDefinition d.name s = .ok d := by
  obtain ⟨stored, hstored, hcell⟩ := h.definition
  have hvalue : (Value.decode stored).mapError IndexError.encoding = .ok d.toValue := by
    rw [Value.decode_encode (Definition.canonical_toValue d) hwithin hstored]
    rfl
  rw [Index.storedDefinition, if_pos h.settings, Snapshot.lookup_eq, if_pos h.settings, hcell]
  refine bind_eq_ok_iff.2 ⟨_, rfl, bind_eq_ok_iff.2 ⟨_, hvalue, ?_⟩⟩
  refine bind_eq_ok_iff.2 ⟨d, Definition.ofValue_toValue hvalid hparsed, ?_⟩
  rw [if_pos rfl]
  rfl

theorem storedLastEtag (h : Openable d s) : ∃ etag, Index.storedLastEtag d.name s = .ok etag := by
  obtain ⟨last, hcell⟩ := h.lastEtag
  obtain ⟨etag?, htable⟩ := EntryTable.lastEtag?_isOk h.table h.keys
  have hlast : (Etag.decode last.encode).mapError IndexError.ofKeyWidth = .ok last := by
    rw [Etag.decode_encode]
    rfl
  rw [Index.storedLastEtag, Snapshot.lookup_eq, if_pos h.settings, hcell]
  cases etag? with
  | none =>
      exact ⟨_, bind_eq_ok_iff.2 ⟨_, rfl, bind_eq_ok_iff.2 ⟨_, hlast,
        bind_eq_ok_iff.2 ⟨_, htable, rfl⟩⟩⟩⟩
  | some etag =>
      exact ⟨_, bind_eq_ok_iff.2 ⟨_, rfl, bind_eq_ok_iff.2 ⟨_, hlast,
        bind_eq_ok_iff.2 ⟨_, htable, rfl⟩⟩⟩⟩

/-- **An index can be opened** if its definition keeps to the limits of the reader. -/
theorem ofSnapshot (h : Openable d s) (hvalid : d.validate = .ok ()) (hparsed : d.Parsed)
    (hwithin : d.toValue.Within) (config : Config) :
    ∃ etag, Index.ofSnapshot d.name config s = .ok ⟨d, config, etag, {}⟩ := by
  obtain ⟨etag, hetag⟩ := h.storedLastEtag
  exact ⟨etag, bind_eq_ok_iff.2 ⟨d, h.storedDefinition hvalid hparsed hwithin,
    bind_eq_ok_iff.2 ⟨etag, hetag, rfl⟩⟩⟩

end Openable

theorem within_minimal : minimal.toValue.Within := by
  rw [toValue_minimal]
  simp [Value.Within, Value.Limited, Value.LimitedPairs, Value.LimitedItems, minimalPairs,
    minimalField]
  decide

/-- Where its trees are in lockstep, it goes on from the stored last etag. -/
theorem ofSnapshot_of_within (h : c.Holds d.name s) (hl : c.Lockstep)
    (hvalid : d.validate = .ok ()) (hparsed : d.Parsed)
    (hstored : d.toValue.encode = .ok c.definition) (hwithin : d.toValue.Within)
    (config : Config) : ofSnapshot d.name config s = .ok ⟨d, config, c.last, {}⟩ := by
  obtain ⟨etag, hload⟩ := (openable_of_holds h hstored).ofSnapshot hvalid hparsed hwithin config
  have hlast : etag = c.last := lastEtag_eq_of_ofSnapshot h hl hload
  rw [hload, hlast]

/-- **What is loaded** is the index that was stored. -/
theorem ofSnapshot_eq (h : c.Holds d.name s) (hvalid : d.validate = .ok ())
    (hparsed : d.Parsed) (hstored : d.toValue.encode = .ok c.definition)
    (hlen : c.definition.length < Bytes.capacity 4) {config : Config} {ix : Index}
    (hload : ofSnapshot d.name config s = .ok ix) :
    ix.definition = d ∧ ix.config = config ∧ c.last.toNat ≤ ix.lastEtag.toNat := by
  refine ⟨?_, (name_of_ofSnapshot hload).2, lastEtag_of_ofSnapshot h.last_eq hload⟩
  obtain ⟨d', hd', hload⟩ := bind_eq_ok_iff.1 hload
  obtain ⟨etag, -, hload⟩ := bind_eq_ok_iff.1 hload
  cases hload
  exact storedDefinition_eq h hvalid hparsed hstored hlen hd'

end Index

namespace Live

variable {β σ : Type} [Backend β] [LawfulBackend β]

/-! ### Batches and the log -/

/-- The log of the store replays to what is committed. -/
structure Logged (live : Live β σ) : Prop where
  intact : Intact live.env.log.backend
  replays : Environment.Replays live.env live.committed

/-- If the commit of the batch is stranded, there was nothing to change. -/
def Safe (live : Live β σ) (changes : List Change) : Prop :=
  ∀ prepared update, live.Ready changes prepared update →
    ∀ txn, live.env.commitFate update.txn live.index.config.syncOnCommit = .stranded txn →
      txn.working = live.committed

variable {live : Live β σ} {changes : List Change}

/-- When no call of the backend fails, no commit is stranded. -/
theorem safe_of_sound (hs : Sound live.env.log.backend) (changes : List Change) :
    live.Safe changes := by
  intro prepared update hready txn hfate
  have hfaithful := faithful_stage live changes
  rw [hready.stage] at hfaithful
  have hends := Environment.commit_ends (LawfulBackend.intact_of_sound hs) hfaithful
    live.index.config.syncOnCommit
  rw [hfate] at hends
  obtain ⟨-, hsame⟩ := hends.sound hs
  cases hsame

omit [LawfulBackend β] in
/-- A batch is at most one commit. -/
theorem env_runBatch (sink : Sink σ) (live : Live β σ) (changes : List Change) :
    ((runBatch sink changes).exec live).2.env = live.env ∧
        (∀ prepared update, ¬ live.Ready changes prepared update) ∨
      ∃ prepared update, live.Ready changes prepared update ∧
        Transaction.Faithful live.committed update.txn ∧
        ((runBatch sink changes).exec live).2.env = (live.committing update).2 := by
  obtain ⟨state, hrun⟩ := exec_runBatch sink changes live
  rw [hrun]
  rcases commitBatch_cases live changes with
    ⟨e, live', hexec, hquiet, hnot⟩ | ⟨prepared, update, live', hready, hafter, hend⟩
  · exact .inl ⟨by rw [hexec]; exact hquiet.env, hnot⟩
  · have hfaithful := faithful_stage live changes
    rw [hready.stage] at hfaithful
    refine .inr ⟨prepared, update, hready, hfaithful, ?_⟩
    rcases hend with ⟨e, -, hexec⟩ | ⟨-, hexec⟩ <;> rw [hexec] <;> exact hafter.env

/-- Where no call of the backend fails, none does after a batch. -/
theorem sound_runBatch (h : Sound live.env.log.backend) (sink : Sink σ) (changes : List Change) :
    Sound ((runBatch sink changes).exec live).2.env.log.backend := by
  rcases env_runBatch sink live changes with ⟨henv, -⟩ | ⟨_, update, -, hfaithful, henv⟩ <;>
    rw [henv]
  · exact h
  · exact ((Environment.commit_ends (LawfulBackend.intact_of_sound h) hfaithful
      live.index.config.syncOnCommit).sound h).1

/-- **A batch keeps the log** in step with what is committed, if and only if it is safe. -/
theorem replays_runBatch_iff (h : Logged live) (sink : Sink σ) (changes : List Change) :
    Intact ((runBatch sink changes).exec live).2.env.log.backend ∧
      (Environment.Replays ((runBatch sink changes).exec live).2.env
          ((runBatch sink changes).exec live).2.committed ↔ live.Safe changes) := by
  rcases env_runBatch sink live changes with
    ⟨henv, hnot⟩ | ⟨prepared, update, hready, hfaithful, henv⟩
  · rw [Live.committed, henv]
    exact ⟨h.intact, fun _ prepared update hready => absurd hready (hnot prepared update),
      fun _ => h.replays⟩
  · rw [Live.committed, henv]
    refine ⟨(Environment.commit_ends h.intact hfaithful _).intact,
      (Environment.replays_commit_iff h.intact h.replays hfaithful _).trans ⟨?_, ?_⟩⟩
    · intro hsafe prepared' update' hready'
      -- a batch is ready in one way only
      have hsame := hready.stage.symm.trans hready'.stage
      cases hsame
      exact hsafe
    · exact fun hsafe => hsafe prepared update hready

theorem logged_runBatch (h : Logged live) (hsafe : live.Safe changes) (sink : Sink σ) :
    Logged ((runBatch sink changes).exec live).2 := by
  obtain ⟨hintact, hiff⟩ := replays_runBatch_iff h sink changes
  exact ⟨hintact, hiff.2 hsafe⟩

/-- Creating an index keeps the log in step. -/
theorem logged_of_create {d : Definition} {config : Config} {host host' : Host β} {ix : Index}
    (hintact : Intact host.env.log.backend)
    (hreplays : Environment.Replays host.env host.env.committed)
    (hcreate : (Index.create d config).exec host = (.ok ix, host')) (sink : σ) :
    Logged (ofHost host' ix sink) := by
  obtain ⟨-, -, u, hlay, hcommit⟩ := Index.create_eq_ok hcreate
  have hfaithful := Index.faithful_of_layOut hlay
  have hends := Environment.commit_ends hintact hfaithful config.syncOnCommit
  have hstep := (Environment.replays_commit_iff hintact hreplays hfaithful config.syncOnCommit).2
    fun t ht => absurd ht (Environment.commitFate_ne_stranded (by rw [hcommit]) t)
  rw [hcommit] at hends hstep
  exact ⟨hends.intact, hstep⟩

/-- Where no call of the backend fails, none does after it. -/
theorem sound_of_create {d : Definition} {config : Config} {host host' : Host β} {ix : Index}
    (hsound : Sound host.env.log.backend)
    (hcreate : (Index.create d config).exec host = (.ok ix, host')) (sink : σ) :
    Sound (ofHost host' ix sink).env.log.backend := by
  obtain ⟨-, -, u, hlay, hcommit⟩ := Index.create_eq_ok hcreate
  have hends := Environment.commit_ends (LawfulBackend.intact_of_sound hsound)
    (Index.faithful_of_layOut hlay) config.syncOnCommit
  rw [hcommit] at hends
  exact (hends.sound hsound).1

/-! ### Closing and opening again -/

/-- The store was closed and opened again from a copy of its log, and the index with it. -/
structure Reopened (live : Live β σ) (config : Config) (live' : Live β σ) : Prop where
  receiver : live'.sink = live.sink
  store : ∃ (copy : β) (env : Environment β) (path : Option String) (events : Array Event),
    Intact copy ∧ held copy = held live.env.log.backend ∧
      (Environment.openLog copy).outcome = .ok env ∧
      (Index.load live.index.name config).exec ⟨{ env with path }, events⟩ =
        (.ok live'.index, live'.toHost)

omit [Backend β] [LawfulBackend β] in
/-- Opening an index reads the committed snapshot; events aside. -/
theorem exec_load_eq (name : String) (config : Config) (host : Host β) :
    ∃ events, (Index.load name config).exec host =
      (Index.ofSnapshot name config host.env.committed, { host with events }) := by
  rw [Index.load, exec_bind_ok (exec_get host)]
  dsimp only
  cases Index.ofSnapshot name config host.env.committed with
  | error e => exact ⟨host.events, rfl⟩
  | ok ix =>
      rw [exec_bind_ok (exec_lift _ _)]
      exact ⟨_, rfl⟩

omit [Backend β] [LawfulBackend β] in
theorem exec_load {name : String} {config : Config} {host host' : Host β} {ix : Index}
    (h : (Index.load name config).exec host = (.ok ix, host')) :
    Index.ofSnapshot name config host.env.committed = .ok ix ∧ host'.env = host.env := by
  obtain ⟨events, hload⟩ := exec_load_eq name config host
  rw [hload, Prod.mk.injEq] at h
  obtain ⟨hix, rfl⟩ := h
  exact ⟨hix, rfl⟩

variable {c : Contents} {config : Config} {live' : Live β σ}

/-- **It can be opened again** from a copy of the log on which no call fails, and goes on from the
stored last etag. -/
theorem At.exec_load (hat : At c live) (hreplays : Environment.Replays live.env live.committed)
    (hvalid : live.index.definition.validate = .ok ()) (hparsed : live.index.definition.Parsed)
    (hwithin : live.index.definition.toValue.Within) {copy : β} (hcopy : Sound copy)
    (hheld : held copy = held live.env.log.backend) (config : Config) (path : Option String)
    (events : Array Event) : ∃ env events', (Environment.openLog copy).outcome = .ok env ∧
      Sound env.log.backend ∧ env.committed = live.committed ∧
      Environment.Replays { env with path } live.committed ∧
      (Index.load live.index.name config).exec ⟨{ env with path }, events⟩ =
        (.ok ⟨live.index.definition, config, c.last, {}⟩, ⟨{ env with path }, events'⟩) := by
  obtain ⟨env, hopen, hsound, hcommitted, hreplays'⟩ := hreplays.openLog_of_sound hcopy hheld
  have hfound := Index.ofSnapshot_of_within hat.holds hat.lockstep hvalid hparsed hat.definition
    hwithin config
  rw [← hcommitted] at hfound
  obtain ⟨events', hload⟩ := exec_load_eq live.index.name config ⟨{ env with path }, events⟩
  exact ⟨env, events', hopen, hsound, hcommitted, hreplays', hload.trans (by rw [← hfound]; rfl)⟩

theorem At.exists_reopened (hat : At c live) (hlog : Logged live)
    (hvalid : live.index.definition.validate = .ok ()) (hparsed : live.index.definition.Parsed)
    (hwithin : live.index.definition.toValue.Within) (hsound : Sound live.env.log.backend)
    (config : Config) : ∃ live', Reopened live config live' := by
  obtain ⟨env, events, hopen, -, -, -, hload⟩ :=
    hat.exec_load hlog.replays hvalid hparsed hwithin hsound rfl config none #[]
  exact ⟨ofHost ⟨{ env with path := none }, events⟩ ⟨live.index.definition, config, c.last, {}⟩
    live.sink, rfl, live.env.log.backend, env, none, #[], hlog.intact, rfl, hopen, hload⟩

/-- **An index that is opened again** is as it was. -/
theorem Reopened.found (h : Reopened live config live') (hat : At c live) (hlog : Logged live)
    (hvalid : live.index.definition.validate = .ok ()) (hparsed : live.index.definition.Parsed)
    (hlen : c.definition.length < Bytes.capacity 4) :
    At c live' ∧ Logged live' ∧ live'.index.definition = live.index.definition ∧
      live'.index.config = config ∧ live'.committed = live.committed := by
  obtain ⟨copy, env, path, events, hcopy, hheld, hopen, hload⟩ := h.store
  obtain ⟨hi, hcommitted, hreplays⟩ := hlog.replays.of_openLog hcopy hheld hopen
  obtain ⟨hload, henv⟩ := exec_load hload
  have hsame : live'.committed = live.committed := by
    rw [Live.committed, henv, ← hcommitted]
  have hload : Index.ofSnapshot live.index.name config live.committed = .ok live'.index := by
    rw [← hload, ← hcommitted]
  obtain ⟨hdefinition, hconfig, hcounter⟩ :=
    Index.ofSnapshot_eq hat.holds hvalid hparsed hat.definition hlen hload
  refine ⟨⟨?_, hat.lockstep, hcounter, by rw [hdefinition]; exact hat.definition⟩, ⟨?_, ?_⟩,
    hdefinition, hconfig, hsame⟩
  · rw [hsame, Index.name, hdefinition]
    exact hat.holds
  · rw [henv]
    exact hi
  · rw [hsame, henv]
    exact hreplays

end Live

end Rollup
