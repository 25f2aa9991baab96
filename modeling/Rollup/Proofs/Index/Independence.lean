import Rollup.Proofs.Index.Desk

/-!
# Independence — indexes in one store do not see each other

A query on an index reads trees of that index only (`SameIndex.answersAlike`), and a deed changes
trees of the indexes that it works on only (`Desk.Tidy.changesOnly`).  So whatever is done with one
index, all queries on another answer as before.  The names that are listed, and those that can be
opened, are the names of the indexes that were created (`Desk.indexes_independent`).
-/

namespace Rollup

open Rollup.Action

/-! ### Queries -/

/-- All queries on an index answer the same. -/
structure Index.AnswersAlike (name : String) (s t : Snapshot) : Prop where
  opened : ∀ config, ofSnapshot name config t = ofSnapshot name config s
  bucketCount : bucketCountIn name t = bucketCountIn name s
  entries : ∀ ix : Index, ix.name = name → ∀ key, ix.entriesIn t key = ix.entriesIn s key
  entryCount : ∀ ix : Index, ix.name = name → ix.entryCountIn t = ix.entryCountIn s
  hashes : ∀ ix : Index, ix.name = name → ix.hashesIn t = ix.hashesIn s
  bucket : ∀ ix : Index, ix.name = name → ∀ hash, ix.bucketIn t hash = ix.bucketIn s hash
  groupKey : ∀ ix : Index, ix.name = name → ∀ hash, ix.groupKeyIn t hash = ix.groupKeyIn s hash
  reduced : ∀ ix : Index, ix.name = name → ∀ hash, ix.reduceIn t hash = ix.reduceIn s hash

namespace Snapshot.SameIndex

variable {name : String} {ix : Index} {s t : Snapshot}

theorem ofTable (h : s.SameIndex name t) (hname : Slashless name) (tree : String)
    (htree : (EntryTable.schema name).Owns tree) : s.SameTree tree t := by
  obtain ⟨site, -, rfl⟩ := EntryTable.owns_iff.1 htree
  exact h.site hname site

theorem ofSnapshot (h : s.SameIndex name t) (hname : Slashless name) (config : Config) :
    Index.ofSnapshot name config t = Index.ofSnapshot name config s := by
  have hmeta : s.SameTree (metaTree name) t := h.site hname .settings
  have hlast := TableSchema.lastKey_congr (h.ofTable hname)
  simp only [Index.ofSnapshot, Index.storedDefinition, Index.storedLastEtag, EntryTable.lastEtag?,
    hmeta.hasTree, hmeta.lookup, hlast]

theorem bucketCountIn (h : s.SameIndex name t) (hname : Slashless name) :
    Index.bucketCountIn name t = Index.bucketCountIn name s := by
  refine congrArg List.length (treeNamesFrom_congr fun n hn => h n ?_)
  obtain ⟨rest, hrest⟩ := hn
  rw [bucketTreeStart, String.toList_append, List.append_assoc] at hrest
  exact beforeSlash_of_prefix hname hrest.symm

section

variable (h : s.SameIndex ix.name t) (hname : Slashless ix.name)

include h hname

theorem entriesIn (key : DocumentKey) : ix.entriesIn t key = ix.entriesIn s key := by
  have hseek := TableSchema.seek_congr (h.ofTable hname) EntryTable.documentIndex key
  simp only [Index.entriesIn, EntryTable.ofDocument, EntryTable.seek, hseek]

theorem hashesIn : ix.hashesIn t = ix.hashesIn s := by
  have hscan := TableSchema.scan_congr (h.ofTable hname) EntryTable.hashIndex
  simp only [Index.hashesIn, EntryTable.hashes, hscan]

theorem bucketIn (hash : GroupHash) : ix.bucketIn t hash = ix.bucketIn s hash := by
  have hbucket := h.site hname (.bucket hash)
  rw [Site.tree_bucket] at hbucket
  rw [Index.bucketIn, Index.bucketIn, Bucket.entries, Bucket.entries, Bucket.tree,
    hbucket.hasTree, hbucket.entriesFrom]

theorem groupKeyIn (hash : GroupHash) : ix.groupKeyIn t hash = ix.groupKeyIn s hash := by
  have hkeys : s.SameTree (groupKeyTree ix.name) t := h.site hname .groupKeys
  simp only [Index.groupKeyIn, hkeys.lookup]

theorem reduceIn (hash : GroupHash) : ix.reduceIn t hash = ix.reduceIn s hash := by
  have hbucket : (Bucket.mk ix.name hash).entries t = (Bucket.mk ix.name hash).entries s :=
    h.bucketIn hname hash
  rw [Index.reduceIn, Index.reduceIn, hbucket, h.groupKeyIn hname]

end

/-- **Queries** on an index read its trees. -/
theorem answersAlike (h : s.SameIndex name t) (hname : Slashless name) :
    Index.AnswersAlike name s t := by
  refine ⟨h.ofSnapshot hname, h.bucketCountIn hname, ?_, ?_, ?_, ?_, ?_, ?_⟩ <;> rintro ix rfl
  · exact h.entriesIn hname
  · exact TableSchema.size_congr (h.ofTable hname)
  · exact h.hashesIn hname
  · exact h.bucketIn hname
  · exact h.groupKeyIn hname
  · exact h.reduceIn hname

end Snapshot.SameIndex

/-! ### Independence -/

namespace Desk

variable {β σ : Type} {s : Desk β σ}

theorem load_answer (s : Desk β σ) (name : String) (config : Config) :
    ((Index.load name config).exec s.toHost).1 = Index.ofSnapshot name config s.committed := by
  obtain ⟨events, hload⟩ := Live.exec_load_eq name config s.toHost
  exact congrArg Prod.fst hload

namespace Tidy

/-- **The names that are listed** are those of the indexes that were created. -/
theorem indexNames_perm (h : s.Tidy) : (Console.indexNames s.committed).Perm s.names := by
  refine (List.perm_ext_iff_of_nodup (Console.nodup_indexNames _) h.distinct).2 fun name => ?_
  rw [Console.mem_indexNames_iff, h.mem_names_iff]

/-- **An index that was created** can be opened. -/
theorem load_created (h : s.Tidy) {d : Definition} (hd : d ∈ s.created) (config : Config) :
    ∃ etag, ((Index.load d.name config).exec s.toHost).1 = .ok ⟨d, config, etag, {}⟩ := by
  obtain ⟨hvalid, hparsed, hwithin⟩ := h.defined d hd
  rw [load_answer]
  exact (h.openable d hd).ofSnapshot hvalid hparsed hwithin config

/-- Any other is not found. -/
theorem load_absent (h : s.Tidy) {name : String} (hnot : name ∉ s.names) (config : Config) :
    ((Index.load name config).exec s.toHost).1 = .error (.notFound name) := by
  rw [h.mem_names_iff] at hnot
  rw [load_answer, Index.ofSnapshot_of_not_hasTree hnot]

end Tidy

variable [Backend β]

/-- **Indexes are independent.**  In a store that was empty, any deeds have been done with any
indexes whose definitions keep to the limits of the reader, on a backend that may fail.  Then the
names that are listed are those of the indexes that were created; each of these can be opened, and
no other.  A further deed leaves all trees of an index that it does not work on, and all queries on
it answer as before.  The trees of one index are different, whatever the hashes of its buckets. -/
theorem indexes_independent {host : Host β} (hempty : host.env.committed = .empty) (sink : σ)
    (deeds : List (Deed σ))
    (hdefs : ∀ d config, .create d config ∈ deeds → d.Parsed ∧ d.toValue.Within) :
    let s : Desk β σ := deeds.foldl act ⟨host, [], sink, []⟩
    (∀ name, Function.Injective (Site.name name)) ∧
    (Console.indexNames s.committed).Perm s.names ∧
    (∀ d ∈ s.created, ∀ config, ∃ etag,
      ((Index.load d.name config).exec s.toHost).1 = .ok ⟨d, config, etag, {}⟩) ∧
    (∀ name, name ∉ s.names → ∀ config,
      ((Index.load name config).exec s.toHost).1 = .error (.notFound name)) ∧
    ∀ deed, ∀ d ∈ s.created, d.name ∉ s.worksOn deed →
      (∀ site : Site, s.committed.SameTree (site.name d.name) (s.act deed).committed) ∧
      Index.AnswersAlike d.name s.committed (s.act deed).committed := by
  intro s
  have h : s.Tidy := (tidy_new hempty sink).run hdefs
  refine ⟨fun name x y hxy => ?_, h.indexNames_perm, fun d hd => h.load_created hd,
    fun name hnot => h.load_absent hnot, fun deed d hd hnot => ?_⟩
  · rw [Site.name_eq, Site.name_eq] at hxy
    exact Site.tree_inj.1 hxy
  · have hslash := Definition.slashless_of_validate (h.defined d hd).1
    have hsame := h.sameIndex deed hnot
    refine ⟨fun site => ?_, hsame.answersAlike hslash⟩
    rw [Site.name_eq]
    exact hsame.site hslash site

/-- Another small definition, named like the end of a tree of settings. -/
def another : Definition := { Index.minimal with name := "meta" }

/-- Its parts, with the names in canonical order. -/
def anotherPairs : List (Value × Value) :=
  [(.text "map", .array []), (.text "name", .text "meta"),
    (.text "group_by", .array [.map Index.minimalField]), (.text "collection", .text "c")]

theorem toValue_another : another.toValue = .map anotherPairs := by
  have hfield : (⟨"g", ⟨["g"], []⟩, .first⟩ : IndexField).toValue = .map Index.minimalField :=
    Value.ofPairs_of_perm (by decide) (by decide +kernel)
  rw [Definition.toValue, another, Index.minimal, List.map_nil, List.map_singleton, hfield]
  exact Value.ofPairs_of_perm (by decide) (by decide +kernel)

/-- Its stored form. -/
def anotherForm : Bytes :=
  [164, 99, 109, 97, 112, 128, 100, 110, 97, 109, 101, 100, 109, 101, 116, 97, 104, 103, 114, 111,
    117, 112, 95, 98, 121, 129, 163, 98, 111, 112, 100, 78, 111, 110, 101, 100, 110, 97, 109, 101,
    97, 103, 100, 112, 97, 116, 104, 97, 103, 106, 99, 111, 108, 108, 101, 99, 116, 105, 111, 110,
    97, 99]

theorem encode_another : another.toValue.encode = .ok anotherForm := by
  rw [Definition.encode_toValue]
  decide +kernel

theorem within_another : another.toValue.Within := by
  rw [toValue_another]
  simp [Value.Within, Value.Limited, Value.LimitedPairs, Value.LimitedItems, anotherPairs,
    Index.minimalField]
  decide

/-- Both are created. -/
def twoCreations : List (Deed Unit) := [.create Index.minimal {}, .create another {}]

theorem run_twoCreations : ∃ host : Host Memory,
    twoCreations.foldl act ⟨⟨.fresh (Memory.mk []), #[]⟩, [], (), []⟩ =
      ⟨host, [⟨Index.minimal, {}, .zero, {}⟩, ⟨another, {}, .zero, {}⟩], (),
        [Index.minimal, another]⟩ := by
  obtain ⟨host, hfirst⟩ := Index.exec_create_minimal {}
  have hcommitted := Index.committed_of_create_minimal hfirst
  have hfree : ¬ Index.minimalTrees.hasTree "meta/meta" = true := by decide +kernel
  have hsmall : ((Record.encodePayload
      (Index.laidOut (.on Index.minimalTrees) "meta" anotherForm).ops.toList).toOption.any
      fun payload => decide (payload.length < Bytes.capacity 4)) = true := by decide +kernel
  obtain ⟨host', hsecond⟩ := @Index.exec_create_of_short _ _ _ another {} host trivial _ hcommitted
    rfl hfree _ encode_another hsmall
  refine ⟨host', ?_⟩
  rw [twoCreations, List.foldl_cons, act, hfirst, List.foldl_cons, act]
  dsimp only
  rw [hsecond]
  rfl

theorem indexes_independent_of_two :
    ∃ s : Desk Memory Unit, twoCreations.foldl act ⟨⟨.fresh (Memory.mk []), #[]⟩, [], (), []⟩ = s ∧
      (Console.indexNames s.committed).Perm ["i", "meta"] ∧
      ∀ job, Index.AnswersAlike "i" s.committed (s.act (.batch 1 job)).committed := by
  have hdefs : ∀ d config, .create d config ∈ twoCreations → d.Parsed ∧ d.toValue.Within := by
    intro d config hmem
    rcases List.mem_pair.1 hmem with h | h <;> cases h
    · exact ⟨Index.parsed_minimal, Index.within_minimal⟩
    · exact ⟨Index.parsed_minimal, within_another⟩
  have h := @indexes_independent Memory Unit _ ⟨.fresh (Memory.mk []), #[]⟩ rfl () twoCreations
    hdefs
  obtain ⟨host', hrun⟩ := run_twoCreations
  rw [hrun] at h
  obtain ⟨-, hlisted, -, -, hapart⟩ := h
  refine ⟨_, hrun, hlisted, fun job => ?_⟩
  refine (hapart (.batch 1 job) Index.minimal List.mem_cons_self ?_).2
  show "i" ∉ ["meta"]
  decide

end Desk

end Rollup
