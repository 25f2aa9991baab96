import Rollup.Proofs.Index.Batch
import Rollup.Proofs.Index.Definition

/-!
# Creation — a new index is empty

A store is *vacant* for an index when none of the trees that would be the index's holds anything.
There a new index has no rows and no blobs (`exec_layOut`), and creating one commits just that
(`create_eq_ok`, `at_of_create`).
-/

namespace Rollup

open Rollup.Action Update

/-- None of the trees of an index holds anything. -/
def Snapshot.Vacant (s : Snapshot) (index : String) : Prop :=
  ∀ (site : Site) (k : Bytes), s.cell (site.tree index) k = none

theorem Snapshot.vacant_empty (index : String) : Snapshot.empty.Vacant index := fun _ _ => rfl

/-- The contents of a new index. -/
def Contents.initial (definition : Bytes) : Contents :=
  ⟨definition, .zero, fun _ => none, fun _ => none, fun _ _ => none⟩

theorem Contents.lockstep_initial (definition : Bytes) : (initial definition).Lockstep where
  blobs _ _ := ⟨fun h => (by cases h), fun ⟨_, h, _⟩ => (by cases h)⟩
  groupKeys _ := ⟨fun h => (by cases h), fun ⟨_, h⟩ => (by cases h)⟩
  bounded _ _ h := (by cases h)

namespace Index

/-- The transaction after the settings of an index were written, and its tree of group keys
added. -/
def settled (txn : Transaction) (index : String) (stored : Bytes) : Transaction :=
  (((txn.openedAt (metaTree index)).putAt (metaTree index) definitionKey stored).putAt
    (metaTree index) lastEtagKey Etag.zero.encode).openedAt (groupKeyTree index)

theorem cell_settled (txn : Transaction) (index : String) (stored : Bytes) (n : String)
    (k : Bytes) : (settled txn index stored).working.cell n k =
      if n = metaTree index ∧ k = lastEtagKey then some Etag.zero.encode
      else if n = metaTree index ∧ k = definitionKey then some stored
      else txn.working.cell n k := by
  rw [settled, Transaction.working_openedAt, Snapshot.cell_addTree, Transaction.working_putAt,
    Snapshot.cell_put (by simp), Transaction.working_putAt, Snapshot.cell_put (by simp),
    Transaction.working_openedAt, Snapshot.cell_addTree]

/-- The definition is written. -/
theorem mem_settled (txn : Transaction) (index : String) (stored : Bytes) :
    .put (metaTree index) definitionKey stored ∈ (settled txn index stored).ops.toList := by
  have hkept := Transaction.kept_mem (.put (metaTree index) definitionKey stored)
  exact hkept.opened trivial (hkept.put trivial (by simp) (by simp [Transaction.putAt]))

theorem exec_layOut_of_ok {d : Definition} {stored : Bytes}
    (hstored : d.toValue.encode = .ok stored) {u : Update}
    (hnew : ¬ u.snapshot.hasTree (metaTree d.name) = true) :
    (layOut d).exec u =
      (inTxn (EntryTable.create d.name)).exec { u with txn := settled u.txn d.name stored } := by
  have hput : ∀ {txn : Transaction} {key value : Bytes},
      txn.working.hasTree (metaTree d.name) = true →
      (Transaction.put (metaTree d.name) key value).exec txn =
        (.ok (), txn.putAt (metaTree d.name) key value) := fun h => by
    rw [Transaction.exec_put, if_pos h]
  rw [layOut, exec_bind_ok (exec_get u)]
  dsimp only
  have hmap : (Except.ok stored : Except EncodingError Bytes).mapError IndexError.encoding =
      .ok stored := rfl
  rw [if_neg hnew, hstored, hmap, exec_bind_ok (exec_inTxn (Transaction.exec_createTree _ _)),
    exec_bind_ok (exec_lift _ _), exec_bind_ok (exec_inTxn (hput (by simp))),
    exec_bind_ok (exec_inTxn (hput (by simp))),
    exec_bind_ok (exec_inTxn (Transaction.exec_createTree _ _))]
  rfl

theorem cellsOf_none {κ ε α : Type} (decode : Bytes → Except ε κ) (stored : Bytes) :
    cellsOf decode (fun _ => (none : Option α)) stored = none := Option.bind_fun_none _

section

variable {txn : Transaction} {index : String} (hvacant : txn.working.Vacant index)
  (stored : Bytes)

include hvacant

/-- The trees of the map entry table are still empty. -/
theorem cell_settled_of_owns {n : String} (hn : (EntryTable.schema index).Owns n) (k : Bytes) :
    (settled txn index stored).working.cell n k = none := by
  obtain ⟨site, hsite, rfl⟩ := EntryTable.owns_iff.1 hn
  have hne : site.tree index ≠ metaTree index := fun e =>
    Site.not_inTable_settings ((Site.tree_inj (b := .settings)).1 e ▸ hsite)
  rw [cell_settled, if_neg fun e => hne e.1, if_neg fun e => hne e.1]
  exact hvacant site k

/-- The other trees are those of a new index. -/
theorem cell_settled_site {site : Site} (hsite : ¬ site.InTable) (k : Bytes) :
    (settled txn index stored).working.cell (site.tree index) k =
      (Contents.initial stored).cell site k := by
  have hnone : txn.working.cell (site.tree index) k = none := hvacant site k
  rw [cell_settled, hnone, ← Site.tree_settings]
  simp only [Site.tree_inj]
  cases site with
  | settings =>
      simp only [true_and, Contents.cell, Contents.initial]
      -- the etag is written behind the definition, under a key of its own
      by_cases hlast : k = lastEtagKey
      · rw [hlast, if_pos rfl, if_neg Contents.definitionKey_ne.symm, if_pos rfl]
      · rw [if_neg hlast, if_neg hlast]
  | groupKeys => simp [Contents.cell, cellsOf_none, Contents.initial]
  | bucket hash => simp [Contents.cell, cellsOf_none, Contents.initial]
  | entries | documents | hashes => exact absurd (by simp [Site.InTable]) hsite

end

/-- The transaction after an index was laid out in a store without it. -/
def laidOut (txn : Transaction) (index : String) (stored : Bytes) : Transaction :=
  ((EntryTable.create index).exec (settled txn index stored)).2

theorem exec_layOut_laidOut {d : Definition} {stored : Bytes}
    (hstored : d.toValue.encode = .ok stored) {u : Update}
    (hnew : ¬ u.snapshot.hasTree (metaTree d.name) = true) :
    (layOut d).exec u = (.ok (), { u with txn := laidOut u.txn d.name stored }) := by
  obtain ⟨txn', hindexes, -⟩ := TableSchema.exec_createIndexes (EntryTable.schema d.name)
    (EntryTable.schema d.name).indexes ((settled u.txn d.name stored).openedAt (entryTable d.name))
  have hcreate : (EntryTable.create d.name).exec (settled u.txn d.name stored) = (.ok (), txn') :=
    (exec_bind_ok (Transaction.exec_createTree _ _) _).trans hindexes
  rw [(exec_layOut_of_ok hstored hnew).trans (exec_inTxn hcreate), laidOut, hcreate]

/-- Where it is laid out, no index of its name was. -/
theorem free_of_layOut {d : Definition} {u u' : Update} (h : (layOut d).exec u = (.ok (), u')) :
    ¬ u.snapshot.hasTree (metaTree d.name) = true := by
  intro hnew
  rw [layOut, exec_bind_ok (exec_get u), if_pos hnew] at h
  cases h

/-- An index that was laid out. -/
theorem layOut_eq_ok {d : Definition} {u u' : Update} (h : (layOut d).exec u = (.ok (), u')) :
    ∃ stored, d.toValue.encode = .ok stored ∧
      u' = { u with txn := laidOut u.txn d.name stored } := by
  have hnew := free_of_layOut h
  cases hstored : d.toValue.encode with
  | error e =>
      rw [layOut, exec_bind_ok (exec_get u), if_neg hnew,
        exec_bind_ok (exec_inTxn (Transaction.exec_createTree _ _)), hstored] at h
      cases h
  | ok stored =>
      rw [exec_layOut_laidOut hstored hnew] at h
      cases h
      exact ⟨stored, rfl, rfl⟩

/-- **Laying out an index** where nothing was. -/
theorem exec_layOut {d : Definition} {u u' : Update} (hvacant : u.snapshot.Vacant d.name)
    (hexec : (layOut d).exec u = (.ok (), u')) :
    ∃ stored, d.toValue.encode = .ok stored ∧
      (Contents.initial stored).Holds d.name u'.snapshot ∧
      .put (metaTree d.name) definitionKey stored ∈ u'.txn.ops.toList := by
  obtain ⟨stored, hstored, rfl⟩ := layOut_eq_ok hexec
  have hmem : .put (metaTree d.name) definitionKey stored ∈
      (laidOut u.txn d.name stored).ops.toList :=
    TableSchema.preserves_create (Transaction.kept_mem _) (fun _ _ => trivial) _
      (mem_settled u.txn d.name stored)
  obtain ⟨txn', hcreate, htable, hcell, htree⟩ := TableSchema.exec_create
    (EntryTable.schema d.name) _ fun n => cell_settled_of_owns hvacant stored
  have hlaid : laidOut u.txn d.name stored = txn' := congrArg Prod.snd hcreate
  rw [hlaid] at hmem ⊢
  refine ⟨stored, hstored, ⟨?_, ?_, ?_, fun site hsite k => ?_⟩, hmem⟩
  · exact (htree _).2 (.inl (by simp [settled, Site.tree_settings]))
  · exact (htree _).2 (.inl (by simp [settled, Site.tree_groupKeys]))
  · show (EntryTable.schema d.name).Holds (cellsOf _ _) _
    rw [show cellsOf Etag.decode (EntryTable.rowAt (Contents.initial stored).rows) =
      fun _ => none from funext (cellsOf_none _)]
    exact htable
  · show txn'.working.cell _ _ = _
    rw [hcell]
    exact cell_settled_site hvacant stored hsite k

/-- A creation that succeeds commits the new trees and nothing else. -/
theorem create_eq_ok {β : Type} [Backend β] {d : Definition} {config : Config} {host host' : Host β}
    {ix : Index} (hcreate : (create d config).exec host = (.ok ix, host')) :
    d.validate = .ok () ∧ ix = ⟨d, config, .zero, {}⟩ ∧
      ∃ u, (layOut d).exec (.on d.name host.env.begin .zero) = (.ok (), u) ∧
        (Environment.commit u.txn config.syncOnCommit).exec host.env = (.ok (), host'.env) := by
  rw [create, exec_bind_eq_ok] at hcreate
  obtain ⟨_, _, hvalid, hcreate⟩ := hcreate
  rw [exec_lift, Prod.mk.injEq] at hvalid
  obtain ⟨hvalid, rfl⟩ := hvalid
  rw [exec_bind_ok (exec_get host)] at hcreate
  dsimp only at hcreate
  rcases hlay : (layOut d).exec (.on d.name host.env.begin .zero) with ⟨answer, u⟩
  rw [hlay] at hcreate
  dsimp only at hcreate
  rw [exec_bind_eq_ok] at hcreate
  obtain ⟨_, _, hanswer, hcreate⟩ := hcreate
  rw [exec_lift, Prod.mk.injEq] at hanswer
  obtain ⟨rfl, rfl⟩ := hanswer
  rw [exec_bind_eq_ok] at hcreate
  obtain ⟨_, host₁, hcommit, hcreate⟩ := hcreate
  rw [exec_adapt, Prod.mk.injEq, mapError_eq_ok_iff] at hcommit
  obtain ⟨events, hhost⟩ := Environment.exec_hostCommit u.txn config.syncOnCommit host
  rw [hhost] at hcommit
  obtain ⟨hok, rfl⟩ := hcommit
  cases hcreate
  exact ⟨hvalid, rfl, u, rfl, Prod.ext hok rfl⟩

theorem faithful_layOut (d : Definition) (s : Snapshot) :
    Transaction.Faithful s ((layOut d).exec (.on d.name (.on s) .zero)).2.txn :=
  preserves_layOut (Transaction.kept_faithful s) (fun _ => trivial) (fun _ _ => trivial) _
    (Transaction.faithful_on s)

/-- What is laid out for a store replays to what it makes. -/
theorem faithful_of_layOut {β : Type} {d : Definition} {env : Environment β}
    {answer : Except IndexError Unit} {u : Update}
    (hlay : (layOut d).exec (.on d.name env.begin .zero) = (answer, u)) :
    Transaction.Faithful env.committed u.txn := by
  have hfaithful := faithful_layOut d env.committed
  rwa [← Environment.begin, hlay] at hfaithful

/-- A creation that fails commits nothing. -/
theorem committed_of_create_error {β : Type} [Backend β] {d : Definition} {config : Config}
    {host host' : Host β} {e : IndexError}
    (hcreate : (create d config).exec host = (.error e, host')) :
    host'.env.committed = host.env.committed := by
  cases hvalid : d.validate with
  | error flaw =>
      rw [create, hvalid, exec_bind_error (exec_lift _ _)] at hcreate
      cases hcreate
      rfl
  | ok _ =>
      rw [create, hvalid, exec_bind_ok (exec_lift _ _), exec_bind_ok (exec_get host)] at hcreate
      dsimp only at hcreate
      rcases hlay : (layOut d).exec (.on d.name host.env.begin .zero) with ⟨_ | _, u⟩ <;>
        rw [hlay] at hcreate <;> dsimp only at hcreate
      · rw [exec_bind_error (exec_lift _ _)] at hcreate
        cases hcreate
        rfl
      · -- the trees could be written, so it is the commit that failed
        obtain ⟨events, hhost⟩ := Environment.exec_hostCommit u.txn config.syncOnCommit host
        rw [exec_bind_ok (exec_lift _ _), exec_bind, exec_adapt, hhost] at hcreate
        cases hcommit : ((Environment.commit u.txn config.syncOnCommit).exec host.env).1 with
        | ok _ =>
            rw [hcommit] at hcreate
            cases hcreate
        | error cause =>
            rw [hcommit] at hcreate
            cases hcreate
            exact (Environment.committed_of_commit (faithful_of_layOut hlay) _).2 cause hcommit

/-- What it commits is what was laid out. -/
theorem committed_of_layOut {β : Type} [Backend β] {d : Definition} {sync : Bool}
    {env env' : Environment β} {u : Update}
    (hlay : (layOut d).exec (.on d.name env.begin .zero) = (.ok (), u))
    (hcommit : (Environment.commit u.txn sync).exec env = (.ok (), env')) :
    env'.committed = u.txn.working := by
  have hcommitted := (Environment.committed_of_commit (faithful_of_layOut hlay) sync).1
  rw [hcommit] at hcommitted
  exact hcommitted rfl

/-- **A new index** is empty. -/
theorem at_of_create {β σ : Type} [Backend β] {d : Definition} {config : Config}
    {host host' : Host β} {ix : Index} (hvacant : host.env.committed.Vacant d.name)
    (hcreate : (create d config).exec host = (.ok ix, host')) (sink : σ) :
    ∃ stored, stored.length < Bytes.capacity 4 ∧
      Live.At (.initial stored) (Live.ofHost host' ix sink) := by
  obtain ⟨-, rfl, u, hlay, hcommit⟩ := create_eq_ok hcreate
  have hvacant : (Update.on d.name host.env.begin .zero).snapshot.Vacant d.name := hvacant
  obtain ⟨stored, hstored, hholds, hmem⟩ := exec_layOut hvacant hlay
  have hops : u.txn.ops.isEmpty = false := by
    rw [Array.isEmpty_eq_false_iff]
    rintro he
    simp [he] at hmem
  obtain ⟨form, hform⟩ := Environment.encode_of_commit hops (by rw [hcommit])
  refine ⟨stored, Record.length_lt_of_encode hform hmem,
    ⟨?_, Contents.lockstep_initial stored, Nat.le_refl _, hstored⟩⟩
  show (Contents.initial stored).Holds d.name host'.env.committed
  rw [committed_of_layOut hlay hcommit]
  exact hholds

/-! ### Success -/

/-- **An index can be created** where its name is free and its record can be written. -/
theorem exec_create {β : Type} [Backend β] [LawfulBackend β] {d : Definition} (config : Config)
    {host : Host β} (hs : BackendView.Sound host.env.log.backend) (hvalid : d.validate = .ok ())
    (hnew : ¬ host.env.committed.hasTree (metaTree d.name) = true) {stored form : Bytes}
    (hstored : d.toValue.encode = .ok stored)
    (hform : Record.encode (laidOut host.env.begin d.name stored).ops.toList = .ok form) :
    ∃ host', (create d config).exec host = (.ok ⟨d, config, .zero, {}⟩, host') := by
  obtain ⟨u, hlay, htxn⟩ : ∃ u, (layOut d).exec (.on d.name host.env.begin .zero) = (.ok (), u) ∧
      u.txn = laidOut host.env.begin d.name stored := ⟨_, exec_layOut_laidOut hstored hnew, rfl⟩
  have hcommit : ((Environment.commit (laidOut host.env.begin d.name stored)
      config.syncOnCommit).exec host.env).1 = .ok () :=
    (Environment.commit_ok_iff hs).2 ⟨form, hform⟩
  obtain ⟨events, hhost⟩ := Environment.exec_hostCommit (laidOut host.env.begin d.name stored)
    config.syncOnCommit host
  have hadapt : ∃ host₁, Action.exec (ExceptT.adapt IndexError.storage
      (Host.commit (laidOut host.env.begin d.name stored) config.syncOnCommit)) host =
      (.ok (), host₁) := by
    rw [exec_adapt, hhost, hcommit]
    exact ⟨_, rfl⟩
  obtain ⟨host₁, hadapt⟩ := hadapt
  rw [create, hvalid, exec_bind_ok (exec_lift _ _), exec_bind_ok (exec_get host)]
  dsimp only
  rw [hlay]
  dsimp only
  rw [exec_bind_ok (exec_lift _ _), htxn, exec_bind_ok hadapt]
  exact ⟨_, rfl⟩

/-- Where its name is free, it is the length of the record that decides. -/
theorem exec_create_of_short {β : Type} [Backend β] [LawfulBackend β] {d : Definition}
    (config : Config) {host : Host β} (hs : BackendView.Sound host.env.log.backend) {s : Snapshot}
    (hcommitted : host.env.committed = s) (hvalid : d.validate = .ok ())
    (hnew : ¬ s.hasTree (metaTree d.name) = true) {stored : Bytes}
    (hstored : d.toValue.encode = .ok stored)
    (hsmall : ((Record.encodePayload (laidOut (.on s) d.name stored).ops.toList).toOption.any
      fun payload => decide (payload.length < Bytes.capacity 4)) = true) :
    ∃ host', (create d config).exec host = (.ok ⟨d, config, .zero, {}⟩, host') := by
  have hbegin : host.env.begin = .on s := congrArg Transaction.on hcommitted
  have hfree : ¬ host.env.committed.hasTree (metaTree d.name) = true := hcommitted ▸ hnew
  cases hpayload : Record.encodePayload (laidOut (.on s) d.name stored).ops.toList with
  | error damage =>
      rw [hpayload] at hsmall
      cases hsmall
  | ok payload =>
      rw [hpayload] at hsmall
      have hlen : payload.length < Bytes.capacity 4 := of_decide_eq_true hsmall
      rw [← hbegin] at hpayload
      exact exec_create config hs hvalid hfree hstored
        (Record.encode_eq_ok_iff.2 ⟨payload, hpayload, hlen, rfl⟩)

/-- The trees after a creation. -/
theorem committed_of_create {β : Type} [Backend β] {d : Definition} {config : Config}
    {host host' : Host β} {ix : Index} {stored : Bytes} (hstored : d.toValue.encode = .ok stored)
    (hcreate : (create d config).exec host = (.ok ix, host')) :
    host'.env.committed = (laidOut host.env.begin d.name stored).working := by
  obtain ⟨-, -, u, hlay, hcommit⟩ := create_eq_ok hcreate
  obtain ⟨stored', hstored', hu⟩ := layOut_eq_ok hlay
  cases hstored.symm.trans hstored'
  rw [committed_of_layOut hlay hcommit, hu]
  rfl

/-- The smallest of all definitions. -/
def minimal : Definition := ⟨"i", "c", [], [⟨"g", ⟨["g"], []⟩, .first⟩]⟩

theorem parsed_minimal : minimal.Parsed := by
  intro field hfield
  rw [List.mem_singleton.1 hfield]
  exact ⟨"g", by decide⟩

/-- Its one field, with the names in canonical order. -/
def minimalField : List (Value × Value) :=
  [(.text "op", .text "None"), (.text "name", .text "g"), (.text "path", .text "g")]

/-- Its parts, with the names in canonical order. -/
def minimalPairs : List (Value × Value) :=
  [(.text "map", .array []), (.text "name", .text "i"),
    (.text "group_by", .array [.map minimalField]), (.text "collection", .text "c")]

theorem toValue_minimal : minimal.toValue = .map minimalPairs := by
  have hfield : (⟨"g", ⟨["g"], []⟩, .first⟩ : IndexField).toValue = .map minimalField :=
    Value.ofPairs_of_perm (by decide) (by decide +kernel)
  rw [Definition.toValue, minimal, List.map_nil, List.map_singleton, hfield]
  exact Value.ofPairs_of_perm (by decide) (by decide +kernel)

/-- Its stored form. -/
def minimalForm : Bytes :=
  [164, 99, 109, 97, 112, 128, 100, 110, 97, 109, 101, 97, 105, 104, 103, 114, 111, 117, 112, 95,
    98, 121, 129, 163, 98, 111, 112, 100, 78, 111, 110, 101, 100, 110, 97, 109, 101, 97, 103, 100,
    112, 97, 116, 104, 97, 103, 106, 99, 111, 108, 108, 101, 99, 116, 105, 111, 110, 97, 99]

theorem encode_minimal : minimal.toValue.encode = .ok minimalForm := by
  rw [Definition.encode_toValue]
  decide +kernel

/-- It can be created in an empty store. -/
theorem exec_create_minimal (config : Config) :
    ∃ host', (create minimal config).exec ⟨.fresh (Memory.mk []), #[]⟩ =
      (.ok ⟨minimal, config, .zero, {}⟩, host') := by
  have hsmall : ((Record.encodePayload
      (laidOut (.on .empty) "i" minimalForm).ops.toList).toOption.any
      fun payload => decide (payload.length < Bytes.capacity 4)) = true := by decide +kernel
  have hname : minimal.name = "i" := rfl
  rw [← hname] at hsmall
  exact exec_create_of_short config trivial rfl (by decide) (by decide) encode_minimal hsmall

/-- The trees that it is created with. -/
def minimalTrees : Snapshot := (laidOut (.on .empty) "i" minimalForm).working

theorem committed_of_create_minimal {config : Config} {host' : Host Memory} {ix : Index}
    (h : (create minimal config).exec ⟨.fresh (Memory.mk []), #[]⟩ = (.ok ix, host')) :
    host'.env.committed = minimalTrees := by
  have hname : minimal.name = "i" := rfl
  have hbegin : Environment.begin (.fresh (Memory.mk [])) = .on .empty := rfl
  rw [committed_of_create encode_minimal h, hname, hbegin, minimalTrees]

end Index

end Rollup
