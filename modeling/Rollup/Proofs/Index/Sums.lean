import Mathlib.Algebra.Order.BigOperators.Group.List
import Rollup.Proofs.Index.Deletions
import Rollup.Proofs.Index.Outputs
import Rollup.Proofs.Index.Rebuild
import Rollup.Proofs.Index.Reduction

/-!
# Sums — what a total depends on

The integers of a field are added up in two nested loops, inside a blob and from blob to blob, and
each of their sums on the way has to fit 64 bits (`Runs`).  Where they do the total is exact, and
where one does not the group overflows, though its total may fit (`totalled`,
`overflow_of_exact_total`).  So the order of the blobs never changes a total, but it may decide
whether there is one; it does not when all that is added fits, and all that is taken
(`forall_perm_runs_iff`).

Two indexes with the same live documents hold the same blobs in a bucket, in the order of their own
etags (`perm_of_bucketIn`).  Hence they agree on the sums that both come to
(`sums_of_contributions`).
-/

namespace Rollup.Reduction

/-! ### What is added up -/

/-- The integers that a value contributes: itself, or those of its array. -/
def integersIn : Value → List Int64
  | .integer n => [n]
  | .array items => items.filterMap Value.asInteger
  | _ => []

/-- The integers that a blob contributes to a field. -/
def integersUnder (name : String) (blob : Value) : List Int64 :=
  (blob.field? name).toList.flatMap integersIn

/-- The exact sum of integers. -/
def exactSum (ns : List Int64) : Int := (ns.map Int64.toInt).sum

/-- **The exact total** of a field over blobs. -/
def exactTotal (name : String) (blobs : List Value) : Int :=
  exactSum (blobs.flatMap (integersUnder name))

/-- Every sum on the way to the total fits: those inside a blob, and those from blob to blob. -/
structure Runs (name : String) (blobs : List Value) : Prop where
  inside : ∀ blob ∈ blobs, Fits (integersUnder name blob)
  between : ∀ front, front <+: blobs → InRange (exactTotal name front)

theorem exactSum_append (ns ms : List Int64) : exactSum (ns ++ ms) = exactSum ns + exactSum ms := by
  rw [exactSum, List.map_append, List.sum_append]
  rfl

theorem exactSum_perm {ns ms : List Int64} (h : ns.Perm ms) : exactSum ns = exactSum ms :=
  (h.map _).sum_eq

theorem exactTotal_nil (name : String) : exactTotal name [] = 0 := rfl

theorem exactTotal_cons (name : String) (blob : Value) (blobs : List Value) :
    exactTotal name (blob :: blobs) =
      exactSum (integersUnder name blob) + exactTotal name blobs := by
  rw [exactTotal, List.flatMap_cons, exactSum_append]
  rfl

/-! ### Totals -/

theorem contribution?_eq (v : Value) : contribution? v = sumExact? (integersIn v) := by
  cases v with
  | integer n =>
      have hadd : Value.addExact? 0 n = some n := by
        rw [addExact?_eq_some_iff, Int64.toInt_zero, Int.zero_add]
      rw [integersIn, sumExact?, List.foldlM_cons, hadd]
      rfl
  | _ => rfl

theorem Fits.inRange {ns : List Int64} (h : Fits ns) : InRange (exactSum ns) := by
  have hall := h ns List.prefix_rfl
  rwa [Int.zero_add] at hall

/-- One contribution is added to a sum. -/
theorem addContribution?_eq_some_iff {first n : Int64} {v : Value} :
    (do Value.addExact? first (← contribution? v)) = some n ↔
      Fits (integersIn v) ∧ n.toInt = first.toInt + exactSum (integersIn v) := by
  simp only [Option.bind_eq_bind, Option.bind_eq_some_iff, contribution?_eq, sumExact?_eq_some_iff,
    addExact?_eq_some_iff]
  constructor
  · rintro ⟨m, ⟨hfits, hm⟩, hn⟩
    exact ⟨hfits, by rw [hn, hm]; rfl⟩
  · rintro ⟨hfits, hn⟩
    exact ⟨Int64.ofInt (exactSum (integersIn v)), ⟨hfits, toInt_ofInt hfits.inRange⟩,
      by rw [hn, toInt_ofInt hfits.inRange]⟩

/-- Where a blob is added to a sum, the sum before it has to fit, and those from it on. -/
theorem between_cons {name : String} {first : Int} {blob : Value} {blobs : List Value} :
    (∀ front, front <+: blob :: blobs → InRange (first + exactTotal name front)) ↔
      InRange first ∧ ∀ front, front <+: blobs →
        InRange (first + exactSum (integersUnder name blob) + exactTotal name front) := by
  simp only [List.prefix_cons_iff, Int.add_assoc, ← exactTotal_cons]
  constructor
  · refine fun h => ⟨?_, fun front hfront => h _ (.inr ⟨front, rfl, hfront⟩)⟩
    have hnone := h [] (.inl rfl)
    rwa [exactTotal_nil, Int.add_zero] at hnone
  · rintro ⟨hfirst, hrest⟩ _ (rfl | ⟨front, rfl, hfront⟩)
    · rwa [exactTotal_nil, Int.add_zero]
    · exact hrest front hfront

theorem integersUnder_of_none {name : String} {blob : Value} (h : blob.field? name = none) :
    integersUnder name blob = [] := by
  rw [integersUnder, h]
  rfl

theorem integersUnder_of_some {name : String} {blob v : Value} (h : blob.field? name = some v) :
    integersUnder name blob = integersIn v := by
  rw [integersUnder, h, Option.toList_some, List.flatMap_singleton]

/-- **Adding up blobs**, to a sum that is there already. -/
theorem foldlM_found_eq_some_iff {name : String} {blobs : List Value} {first n : Int64} :
    (blobs.filterMap (·.field? name)).foldlM
        (fun total v => do Value.addExact? total (← contribution? v)) first = some n ↔
      (∀ blob ∈ blobs, Fits (integersUnder name blob)) ∧
        (∀ front, front <+: blobs → InRange (first.toInt + exactTotal name front)) ∧
        n.toInt = first.toInt + exactTotal name blobs := by
  induction blobs generalizing first with
  | nil =>
      simp only [List.prefix_nil, forall_eq, exactTotal_nil, Int.add_zero, List.not_mem_nil,
        false_implies, forall_const, true_and, inRange_toInt, List.filterMap_nil, List.foldlM_nil]
      show some first = some n ↔ _
      rw [Option.some_inj, Int64.toInt_inj]
      exact eq_comm
  | cons blob blobs ih =>
      rw [List.forall_mem_cons, between_cons, exactTotal_cons, ← Int.add_assoc,
        and_iff_right (inRange_toInt first)]
      cases hfield : blob.field? name with
      | none =>
          have hnone : exactSum [] = 0 := rfl
          have hfits : Fits [] := fun p hp => by
            rw [List.prefix_nil.1 hp]
            exact inRange_toInt 0
          rw [List.filterMap_cons]
          simp only [hfield]
          rw [ih, integersUnder_of_none hfield, hnone, Int.add_zero, and_iff_right hfits]
      | some v =>
          rw [List.filterMap_cons]
          simp only [hfield, List.foldlM_cons]
          rw [integersUnder_of_some hfield]
          refine Option.bind_eq_some_iff.trans ?_
          simp only [addContribution?_eq_some_iff, ih]
          constructor
          · rintro ⟨total, ⟨hfits, htotal⟩, hrest⟩
            rw [htotal] at hrest
            exact ⟨⟨hfits, hrest.1⟩, hrest.2⟩
          · rintro ⟨⟨hfits, hinside⟩, hbetween, hn⟩
            have hin : InRange (first.toInt + exactSum (integersIn v)) := by
              have hnone := hbetween [] List.nil_prefix
              rwa [exactTotal_nil, Int.add_zero] at hnone
            have htotal := toInt_ofInt hin
            exact ⟨Int64.ofInt (first.toInt + exactSum (integersIn v)), ⟨hfits, htotal⟩, hinside,
              by rw [htotal]; exact hbetween, by rw [htotal]; exact hn⟩

theorem total?_eq_some_iff {name : String} {blobs : List Value} {n : Int64} :
    total? (blobs.filterMap (·.field? name)) = some n ↔
      Runs name blobs ∧ n.toInt = exactTotal name blobs := by
  have h := @foldlM_found_eq_some_iff name blobs 0 n
  simp only [Int64.toInt_zero, Int.zero_add] at h
  rw [total?, h, ← and_assoc]
  exact and_congr_left' ⟨fun h => ⟨h.1, h.2⟩, fun h => ⟨h.1, h.2⟩⟩

theorem Runs.inRange {name : String} {blobs : List Value} (h : Runs name blobs) :
    InRange (exactTotal name blobs) := h.between blobs List.prefix_rfl

theorem hasTotal_found_iff {name : String} {blobs : List Value} :
    HasTotal (blobs.filterMap (·.field? name)) ↔ Runs name blobs := by
  simp only [hasTotal_iff, total?_eq_some_iff]
  exact ⟨fun ⟨_, h, _⟩ => h, fun h => ⟨Int64.ofInt (exactTotal name blobs), h,
    toInt_ofInt h.inRange⟩⟩

/-! ### Outputs -/

theorem reduceField_eq_ok_iff {field : IndexField} {blobs : List Value} {v : Value}
    (hop : field.aggregate ≠ .first) :
    reduceField field blobs = .ok v ↔
      ∃ n, v = .integer n ∧ Runs field.name blobs ∧ n.toInt = exactTotal field.name blobs := by
  have htotal : reduceField field blobs = .ok v ↔
      ∃ n, v = .integer n ∧ total? (blobs.filterMap (·.field? field.name)) = some n := by
    rw [reduceField]
    cases haggregate : field.aggregate with
    | first => exact absurd haggregate hop
    | count | sum =>
        cases total? (blobs.filterMap (·.field? field.name)) with
        | none => simp
        | some n => simp [eq_comm]
  simp only [htotal, total?_eq_some_iff]

/-- What a definition makes of blobs: the totals are exact where they can be added up on the way,
and it fails where one of them cannot. -/
structure Totalled (d : Definition) (key : Option Value) (blobs : List Value) : Prop where
  succeeds : (∃ output, reduce d key blobs = .ok output) ↔
    ∀ field ∈ d.fields, field.aggregate ≠ .first → Runs field.name blobs
  exact : ∀ output, reduce d key blobs = .ok (some output) →
    ∀ field ∈ d.fields, field.aggregate ≠ .first →
      ∃ n, output.field? field.name = some (.integer n) ∧ n.toInt = exactTotal field.name blobs
  empty : reduce d key blobs = .ok none ↔ blobs = []
  overflow : ∀ e, reduce d key blobs = .error e → ∃ field ∈ d.fields,
    field.aggregate ≠ .first ∧ e = .overflow field.name ∧ ¬ Runs field.name blobs

theorem field?_of_reduce {d : Definition} (hvalid : d.validate = .ok ()) {key : Option Value}
    {blobs : List Value} {output : Value} (h : reduce d key blobs = .ok (some output))
    {field : IndexField} (hfield : field ∈ d.fields) :
    ∃ v, reduceField field blobs = .ok v ∧ output.field? field.name = some v := by
  rw [reduce] at h
  split at h
  · cases h
  · obtain ⟨fields, hfields, h⟩ := bind_eq_ok_iff.1 h
    cases h
    have hnames : d.fields.map (·.name) = fields.map (·.1) := by
      rw [← List.forall₂_eq_eq_eq, List.forall₂_map_left_iff, List.forall₂_map_right_iff]
      exact (mapM_eq_ok_iff.1 hfields).imp fun _ _ h => (return_pair_eq_ok_iff.1 h).1
    obtain ⟨v, hv⟩ := mapM_isOk_iff.1 ⟨fields, hfields⟩ field hfield
    obtain ⟨hname, hreduce⟩ := return_pair_eq_ok_iff.1 hv
    refine ⟨v.2, hreduce, ?_⟩
    rw [hname]
    have hmem := (mem_of_mapM hfields).2 ⟨field, hfield, hv⟩
    refine Value.field?_object ?_ (List.mem_append_right _ hmem)
    have hnodup := Definition.nodup_names_of_validate hvalid
    rw [List.map_append] at hnodup ⊢
    rw [← hnames, List.map_map]
    exact List.nodup_append_comm.1 hnodup

theorem totalled {d : Definition} (hvalid : d.validate = .ok ()) (key : Option Value)
    (blobs : List Value) : Totalled d key blobs where
  succeeds := by simp only [reduce_isOk_iff, Sums, hasTotal_found_iff]
  exact output h field hfield hop := by
    obtain ⟨v, hreduce, hoffered⟩ := field?_of_reduce hvalid h hfield
    obtain ⟨n, rfl, -, hn⟩ := (reduceField_eq_ok_iff hop).1 hreduce
    exact ⟨n, hoffered, hn⟩
  empty := by
    constructor
    · exact fun h => (eq_none_iff h).1 rfl
    · rintro rfl
      rfl
  overflow e h := by
    obtain ⟨field, hfield, hreduce⟩ := exists_of_reduce_eq_error h
    obtain ⟨hop, he⟩ := reduceField_eq_error hreduce
    refine ⟨field, hfield, hop, he, fun hruns => ?_⟩
    obtain ⟨v, hv⟩ := reduceField_isOk_iff.2 fun _ => hasTotal_found_iff.2 hruns
    rw [hreduce] at hv
    cases hv

/-- Equal sums, for blobs in whatever order and arrays in whatever order. -/
theorem field?_eq_of_perm {d d' : Definition} (hvalid : d.validate = .ok ())
    (hvalid' : d'.validate = .ok ()) (hfields : d'.fields = d.fields) {key key' : Option Value}
    {blobs blobs' : List Value} {output output' : Value}
    (h : reduce d key blobs = .ok (some output)) (h' : reduce d' key' blobs' = .ok (some output'))
    {field : IndexField} (hfield : field ∈ d.fields) (hop : field.aggregate ≠ .first)
    (hperm : (blobs'.flatMap (integersUnder field.name)).Perm
      (blobs.flatMap (integersUnder field.name))) :
    output'.field? field.name = output.field? field.name := by
  obtain ⟨n, hn, hexact⟩ := (totalled hvalid key blobs).exact output h field hfield hop
  obtain ⟨n', hn', hexact'⟩ :=
    (totalled hvalid' key' blobs').exact output' h' field (hfields ▸ hfield) hop
  rw [exactTotal, exactSum_perm hperm, ← exactTotal, ← hexact, Int64.toInt_inj] at hexact'
  rw [hn, hn', hexact']

/-! ### Orders -/

/-- What a blob adds to the total of a field. -/
def share (name : String) (blob : Value) : Int := exactSum (integersUnder name blob)

/-- The sums inside the blobs fit, and so do what all the blobs that add something add together, and
what all those that take something take. -/
structure RunsAnyhow (name : String) (blobs : List Value) : Prop where
  inside : ∀ blob ∈ blobs, Fits (integersUnder name blob)
  rise : InRange (blobs.map fun blob => max (share name blob) 0).sum
  fall : InRange (blobs.map fun blob => min (share name blob) 0).sum

theorem exactTotal_eq (name : String) (blobs : List Value) :
    exactTotal name blobs = (blobs.map (share name)).sum := by
  induction blobs with
  | nil => rfl
  | cons blob blobs ih => rw [exactTotal_cons, List.map_cons, List.sum_cons, ih, share]

theorem exactTotal_filter (name : String) (p : Value → Bool) (blobs : List Value) :
    exactTotal name (blobs.filter p) =
      (blobs.map fun blob => if p blob then share name blob else 0).sum := by
  induction blobs with
  | nil => rfl
  | cons blob blobs ih =>
      rw [List.filter_cons, List.map_cons, List.sum_cons, ← ih]
      split
      · rw [exactTotal_cons, share]
      · rw [Int.zero_add]

theorem RunsAnyhow.perm {name : String} {blobs other : List Value} (h : RunsAnyhow name blobs)
    (hperm : other.Perm blobs) : RunsAnyhow name other where
  inside blob hblob := h.inside blob (hperm.mem_iff.1 hblob)
  rise := by
    rw [(hperm.map _).sum_eq]
    exact h.rise
  fall := by
    rw [(hperm.map _).sum_eq]
    exact h.fall

theorem RunsAnyhow.runs {name : String} {blobs : List Value} (h : RunsAnyhow name blobs) :
    Runs name blobs where
  inside := h.inside
  between front hfront := by
    obtain ⟨rest, rfl⟩ := hfront
    have hrise := h.rise
    have hfall := h.fall
    rw [List.map_append, List.sum_append] at hrise hfall
    have hrest : 0 ≤ (rest.map fun blob => max (share name blob) 0).sum :=
      List.sum_nonneg (List.forall_mem_map.2 fun _ _ => Int.le_max_right _ _)
    have hrest' : (rest.map fun blob => min (share name blob) 0).sum ≤ (rest.map fun _ => 0).sum :=
      List.sum_le_sum fun _ _ => Int.min_le_right _ _
    rw [List.map_const', List.sum_replicate, nsmul_zero] at hrest'
    have hle : (front.map (share name)).sum ≤ (front.map fun blob => max (share name blob) 0).sum :=
      List.sum_le_sum fun _ _ => Int.le_max_left _ _
    have hge : (front.map fun blob => min (share name blob) 0).sum ≤ (front.map (share name)).sum :=
      List.sum_le_sum fun _ _ => Int.min_le_left _ _
    rw [exactTotal_eq]
    exact ⟨by have := hfall.1; omega, by have := hrise.2; omega⟩

/-- **Orders.**  A list of blobs can be added up in every order just when what they add together
fits, and what they take together. -/
theorem forall_perm_runs_iff {name : String} {blobs : List Value} :
    (∀ other, other.Perm blobs → Runs name other) ↔ RunsAnyhow name blobs := by
  refine ⟨fun h => ?_, fun h other hperm => (h.perm hperm).runs⟩
  -- the worst orders have all the blobs on one side of zero in front
  have hfront : ∀ p : Value → Bool, InRange (exactTotal name (blobs.filter p)) := fun p =>
    (h _ (List.filter_append_perm p blobs)).between _ (List.prefix_append _ _)
  refine ⟨(h blobs (.refl _)).inside, ?_, ?_⟩
  · have hrise := hfront fun blob => decide (0 < share name blob)
    rw [exactTotal_filter] at hrise
    simp only [decide_eq_true_eq] at hrise
    convert hrise using 4
    omega
  · have hfall := hfront fun blob => decide (share name blob < 0)
    rw [exactTotal_filter] at hfall
    simp only [decide_eq_true_eq] at hfall
    convert hfall using 4
    omega

end Rollup.Reduction

namespace Rollup

/-! ### Indexes with the same documents -/

/-- The two ledgers have the same live documents, whatever their etags. -/
def Ledger.SameDocuments (ledger ledger' : Ledger) : Prop := ledger'.data = ledger.data

/-- Reading a stored value back does not overflow. -/
theorem decode_ne_overflow {α : Type} (form : Bytes) (f : Value → α) (name : String) :
    ((Value.decode form).mapError IndexError.encoding >>= fun v => pure (f v)) ≠
      .error (.overflow name) := by
  cases Value.decode form with
  | error e => exact fun h => by cases h
  | ok v => exact fun h => by cases h

theorem Bucket.ofStored_ne_overflow (stored : Bytes × Bytes) (name : String) :
    ofStored stored ≠ .error (.overflow name) := by
  rw [ofStored]
  cases Etag.decode stored.1 with
  | error e => exact fun h => by cases h
  | ok etag => exact decode_ne_overflow stored.2 _ name

namespace Index

variable {ix ix' : Index} {s s' : Snapshot} {ledger ledger' : Ledger} {hash : GroupHash}

/-- The two indexes group and aggregate in one way. -/
structure Likened (ix ix' : Index) : Prop where
  fields : ix'.definition.fields = ix.definition.fields
  groupBy : ix'.definition.groupBy = ix.definition.groupBy
  hash : ix'.config.hash = ix.config.hash

theorem Likened.contribution (h : Likened ix ix') : ix'.contribution = ix.contribution := by
  funext data
  rw [Index.contribution, Index.contribution, groupOf, groupOf, Definition.groupKey,
    Definition.groupKey, Definition.mapped, Definition.mapped, h.fields, h.groupBy, h.hash]

/-- The blob of a document, read back, in the bucket of its group. -/
def Contributes (ix : Index) (ledger : Ledger) (hash : GroupHash) (key : DocumentKey) (v : Value) :
    Prop :=
  ∃ data blob, ledger.data key = some data ∧ ix.contribution data = .ok (hash, blob) ∧
    Value.decode blob = .ok v

theorem contributes_iff (hlike : Likened ix ix') (hsame : ledger.SameDocuments ledger')
    {key : DocumentKey} {v : Value} :
    Contributes ix' ledger' hash key v ↔ Contributes ix ledger hash key v := by
  rw [Contributes, Contributes, hlike.contribution, hsame]

/-- **A bucket** is read as what the documents contribute, one blob for each. -/
theorem exists_found_of_bucketIn (h : ledger.Stored ix s) {entries : List (Etag × Value)}
    (hread : ix.bucketIn s hash = .ok entries) :
    ∃ found : List (DocumentKey × Value), found.Nodup ∧ found.map (·.2) = entries.map (·.2) ∧
      ∀ key v, (key, v) ∈ found ↔ Contributes ix ledger hash key v := by
  -- each entry is of one document
  have hkey : ∀ e : Etag × Value, ∃ key, e ∈ entries → ∃ data blob,
      ledger.Has key e.1 data ∧ ix.contribution data = .ok (hash, blob) ∧
        Value.decode blob = .ok e.2 := by
    intro e
    by_cases he : e ∈ entries
    · obtain ⟨blob, hcell, hv⟩ := (Bucket.mem_entries_iff hread).1 he
      obtain ⟨key, etag, data, hkey, hc, hetag⟩ := (h.bucket hash _ _).1 hcell
      rw [← Etag.encode_inj.1 hetag] at hkey
      exact ⟨key, fun _ => ⟨data, blob, hkey, hc, hv⟩⟩
    · exact ⟨[], fun h => absurd h he⟩
  choose keyOf hkeyOf using hkey
  refine ⟨entries.map fun e => (keyOf e, e.2), ?_, List.map_map, fun key v => ?_⟩
  · have hnodup : entries.Nodup := (Bucket.entries_ascending hread).imp fun hlt heq =>
      absurd hlt (by rw [heq]; exact Nat.lt_irrefl _)
    refine hnodup.map_on fun e he f hf heq => ?_
    obtain ⟨data, blob, hlive, -⟩ := hkeyOf e he
    obtain ⟨data', blob', hlive', -⟩ := hkeyOf f hf
    rw [Prod.mk.injEq] at heq
    rw [heq.1] at hlive
    exact Prod.ext (hlive.inj hlive').1 heq.2
  · rw [List.mem_map]
    constructor
    · rintro ⟨e, he, heq⟩
      obtain ⟨rfl, rfl⟩ := Prod.mk.inj heq
      obtain ⟨data, blob, hlive, hc, hv⟩ := hkeyOf e he
      exact ⟨data, blob, hlive.data, hc, hv⟩
    · rintro ⟨data, blob, hdata, hc, hv⟩
      obtain ⟨etag, -, -, -, hlive, -⟩ := h.total key data hdata
      have hcell := (h.bucket hash etag.encode blob).2 ⟨key, etag, data, hlive, hc, rfl⟩
      have he : (etag, v) ∈ entries := (Bucket.mem_entries_iff hread).2 ⟨blob, hcell, hv⟩
      obtain ⟨data', blob', hlive', -⟩ := hkeyOf (etag, v) he
      exact ⟨(etag, v), he, Prod.ext (h.unique _ _ _ _ _ hlive' hlive) rfl⟩

/-- **The same documents** put the same blobs into a bucket, in an order of their own. -/
theorem perm_of_bucketIn (hlike : Likened ix ix') (hsame : ledger.SameDocuments ledger')
    (h : ledger.Stored ix s) (h' : ledger'.Stored ix' s') {entries entries' : List (Etag × Value)}
    (hread : ix.bucketIn s hash = .ok entries) (hread' : ix'.bucketIn s' hash = .ok entries') :
    (entries.map (·.2)).Perm (entries'.map (·.2)) := by
  obtain ⟨found, hnodup, hblobs, hmem⟩ := exists_found_of_bucketIn h hread
  obtain ⟨found', hnodup', hblobs', hmem'⟩ := exists_found_of_bucketIn h' hread'
  rw [← hblobs, ← hblobs']
  refine ((List.perm_ext_iff_of_nodup hnodup hnodup').2 fun ⟨key, v⟩ => ?_).map _
  rw [hmem, hmem', contributes_iff hlike hsame]

theorem groupKeyIn_ne_overflow (ix : Index) (s : Snapshot) (hash : GroupHash) (name : String) :
    ix.groupKeyIn s hash ≠ .error (.overflow name) := by
  rw [groupKeyIn]
  cases s.lookup (groupKeyTree ix.name) hash.encode with
  | error e => exact fun h => by cases h
  | ok stored =>
      cases stored with
      | none => exact fun h => by cases h
      | some stored => exact decode_ne_overflow stored _ name

/-- A group that overflows has been read. -/
theorem exists_of_reduceIn_eq_overflow {name : String}
    (h : ix.reduceIn s hash = .error (.overflow name)) :
    ∃ entries key, ix.bucketIn s hash = .ok entries ∧
      Reduction.reduce ix.definition key (entries.map (·.2)) = .error (.overflow name) := by
  rw [reduceIn] at h
  cases hread : (Bucket.mk ix.name hash).entries s with
  | error e =>
      rw [hread] at h
      cases h
      rw [Bucket.entries_eq] at hread
      obtain ⟨stored, -, hstored⟩ := exists_of_mapM_eq_error hread
      exact absurd hstored (Bucket.ofStored_ne_overflow stored name)
  | ok entries =>
      rw [hread] at h
      cases hkey : ix.groupKeyIn s hash with
      | error e =>
          rw [hkey] at h
          cases h
          exact absurd hkey (groupKeyIn_ne_overflow ix s hash name)
      | ok key =>
          rw [hkey] at h
          exact ⟨entries, key, hread, h⟩

/-- Two indexes come to the same sums of a group, if both come to an output.  Neither overflows
where the blobs can be added up in every order. -/
structure SumAlike (ix ix' : Index) (s s' : Snapshot) (hash : GroupHash) : Prop where
  sums : ∀ output output', ix.reduceIn s hash = .ok output → ix'.reduceIn s' hash = .ok output' →
    output'.isSome = output.isSome ∧ ∀ field ∈ ix.definition.fields, field.aggregate ≠ .first →
      output'.bind (·.field? field.name) = output.bind (·.field? field.name)
  overflow : ∀ entries, ix.bucketIn s hash = .ok entries →
    (∀ field ∈ ix.definition.fields, field.aggregate ≠ .first →
      Reduction.RunsAnyhow field.name (entries.map (·.2))) →
    ∀ name, ix.reduceIn s hash ≠ .error (.overflow name) ∧
      ix'.reduceIn s' hash ≠ .error (.overflow name)

theorem sumAlike (hvalid : ix.definition.validate = .ok ())
    (hvalid' : ix'.definition.validate = .ok ()) (hlike : Likened ix ix')
    (hsame : ledger.SameDocuments ledger') (h : ledger.Stored ix s) (h' : ledger'.Stored ix' s')
    (hash : GroupHash) : SumAlike ix ix' s s' hash where
  sums output output' houtput houtput' := by
    obtain ⟨entries, key, hread, -, hreduce⟩ := reduceIn_eq_ok_iff.1 houtput
    obtain ⟨entries', key', hread', -, hreduce'⟩ := reduceIn_eq_ok_iff.1 houtput'
    have hperm := perm_of_bucketIn hlike hsame h h' hread hread'
    have hnone := (Reduction.eq_none_iff hreduce).trans ⟨fun e => (e ▸ hperm).nil_eq.symm,
      fun e => (e ▸ hperm.symm).nil_eq.symm⟩
    rw [← Reduction.eq_none_iff hreduce'] at hnone
    cases output with
    | none =>
        rw [hnone.1 rfl]
        exact ⟨rfl, fun _ _ _ => rfl⟩
    | some v =>
        obtain ⟨v', rfl⟩ := Option.ne_none_iff_exists'.1 fun e => by cases hnone.2 e
        refine ⟨rfl, fun field hfield hop => ?_⟩
        exact Reduction.field?_eq_of_perm hvalid hvalid' hlike.fields hreduce hreduce' hfield hop
          (hperm.symm.flatMap_right _)
  overflow entries hread hruns name := by
    constructor
    · intro hover
      obtain ⟨entries₁, key, hread₁, hreduce⟩ := exists_of_reduceIn_eq_overflow hover
      rw [hread] at hread₁
      cases hread₁
      obtain ⟨field, hfield, hop, -, hno⟩ := (Reduction.totalled hvalid key _).overflow _ hreduce
      exact hno (hruns field hfield hop).runs
    · intro hover
      obtain ⟨entries', key, hread', hreduce⟩ := exists_of_reduceIn_eq_overflow hover
      have hperm := perm_of_bucketIn hlike hsame h h' hread hread'
      obtain ⟨field, hfield, hop, -, hno⟩ := (Reduction.totalled hvalid' key _).overflow _ hreduce
      exact hno ((hruns field (hlike.fields ▸ hfield) hop).perm hperm.symm).runs

end Index

/-! ### Two documents in either order -/

/-- Two documents of one group. -/
def Index.summingPair : List Change := [.put (numbered [1] 2), .put (numbered [2] 3)]

/-- What a new index carries out: the two in either order. -/
theorem Index.carriesOut_summingPair : ([summingPair, summingPair.reverse].all fun changes =>
    carriesOut ⟨summing, {}, .zero, {}⟩ (laidOut (.on .empty) "i" summingForm).working .zero
      [changes]) = true := by
  decide +kernel

/-- A new index that adds something up, before its first batch. -/
def Live.summingNew (host : Host Memory) : Live Memory Unit × Ledger :=
  (ofHost host ⟨Index.summing, {}, .zero, {}⟩ (), .empty)

theorem Live.data_of_summingPair {host : Host Memory}
    (hcreate : (Index.create Index.summing {}).exec ⟨.fresh (Memory.mk []), #[]⟩ =
      (.ok ⟨Index.summing, {}, .zero, {}⟩, host)) {changes : List Change}
    (hmem : changes ∈ [Index.summingPair, Index.summingPair.reverse]) :
    (batches Sink.discard (summingNew host) [changes]).2.data =
      Ledger.documentsAfter (fun _ => none) changes := by
  have hdata := data_of_create Sink.willing_discard trivial hcreate
    (Index.committed_of_create_summing hcreate)
    (List.all_eq_true.1 Index.carriesOut_summingPair changes hmem) ()
  rwa [List.flatten_singleton] at hdata

/-- The order of two puts leaves the live documents as they are. -/
theorem Ledger.documentsAfter_reverse_summingPair (data : DocumentKey → Option Value) :
    documentsAfter data Index.summingPair.reverse = documentsAfter data Index.summingPair := by
  have hne : (Index.numbered [2] 3).key ≠ (Index.numbered [1] 2).key := by decide
  exact Function.update_comm hne _ _ data

/-! ### The contributions decide -/

namespace Reduction

/-- **Sums depend on the contributions.**  For a valid definition and any blobs, a group is reduced
just when every sum on the way fits, each total is exact then, and the only failure is a sum on the
way of some field that does not fit.  All orders of the blobs can be added up just when what they
add together fits and what they take together does; and any two orders, of the blobs and inside
their arrays, that can be added up come to the same totals.  So two indexes that hold the same
live documents agree on the sums that both come to, and neither overflows where every order can be
added up. -/
theorem sums_of_contributions {d : Definition} (hvalid : d.validate = .ok ()) :
    (∀ key blobs, Totalled d key blobs) ∧
      (∀ name blobs, (∀ other, other.Perm blobs → Runs name other) ↔ RunsAnyhow name blobs) ∧
      (∀ key key' blobs blobs' output output', reduce d key blobs = .ok (some output) →
        reduce d key' blobs' = .ok (some output') →
        ∀ field ∈ d.fields, field.aggregate ≠ .first →
          (blobs'.flatMap (integersUnder field.name)).Perm
            (blobs.flatMap (integersUnder field.name)) →
          output'.field? field.name = output.field? field.name) ∧
      ∀ (ix ix' : Index) (s s' : Snapshot) (ledger ledger' : Ledger), ix.definition = d →
        ix'.definition.validate = .ok () → Index.Likened ix ix' →
        ledger.SameDocuments ledger' → ledger.Stored ix s → ledger'.Stored ix' s' →
        ∀ hash, Index.SumAlike ix ix' s s' hash := by
  refine ⟨totalled hvalid, fun _ _ => forall_perm_runs_iff, ?_, ?_⟩
  · intro key key' blobs blobs' output output' h h' field hfield hop hperm
    exact field?_eq_of_perm hvalid hvalid rfl h h' hfield hop hperm
  · rintro ix ix' s s' ledger ledger' rfl hvalid' hlike hsame h h' hash
    exact Index.sumAlike hvalid hvalid' hlike hsame h h' hash

/-- Two documents put in either order are live, and their sums agree. -/
theorem sums_of_contributions_pair :
    Index.summing.validate = .ok () ∧ ∃ ix host,
      (Index.create Index.summing {}).exec ⟨.fresh (Memory.mk []), #[]⟩ = (.ok ix, host) ∧
      let run := Live.batches Sink.discard (Live.summingNew host) [Index.summingPair]
      let run' := Live.batches Sink.discard (Live.summingNew host) [Index.summingPair.reverse]
      run.2.data = Ledger.documentsAfter (fun _ => none) Index.summingPair ∧
        run.2.SameDocuments run'.2 ∧ run.2.Stored ix run.1.committed ∧
        run'.2.Stored ix run'.1.committed ∧
        ∀ hash, Index.SumAlike ix ix run.1.committed run'.1.committed hash := by
  obtain ⟨host, hcreate⟩ := Index.exec_create_summing
  obtain ⟨c₀, hstart⟩ := Live.reached_of_create (Snapshot.vacant_empty _) hcreate ()
  obtain ⟨c, hreached⟩ := Live.batches_reached hstart Sink.discard [Index.summingPair]
  obtain ⟨c', hreached'⟩ := Live.batches_reached hstart Sink.discard [Index.summingPair.reverse]
  have hdata := Live.data_of_summingPair hcreate List.mem_cons_self
  have hdata' := Live.data_of_summingPair hcreate (List.mem_cons_of_mem _ List.mem_cons_self)
  rw [Ledger.documentsAfter_reverse_summingPair] at hdata'
  have hsame := hdata'.trans hdata.symm
  refine ⟨rfl, _, host, hcreate, hdata, hsame, hreached.stored, hreached'.stored, ?_⟩
  exact (sums_of_contributions rfl).2.2.2 _ _ _ _ _ _ rfl rfl ⟨rfl, rfl, rfl⟩ hsame
    hreached.stored hreached'.stored

/-- Blobs with one number each. -/
def blobsOf (ns : List Int64) : List Value := ns.map fun n => .map [(.text "n", .integer n)]

/-- A total that fits, and a sum on the way to it that does not: the group overflows, although in
another order it is reduced. -/
theorem overflow_of_exact_total :
    Index.summing.validate = .ok () ∧
      (∀ field ∈ Index.summing.fields, InRange (exactTotal field.name
        (blobsOf [Int64.maxValue, 1, -1]))) ∧
      reduce Index.summing none (blobsOf [Int64.maxValue, 1, -1]) = .error (.overflow "n") ∧
      (blobsOf [1, -1, Int64.maxValue]).Perm (blobsOf [Int64.maxValue, 1, -1]) ∧
      ∃ output, reduce Index.summing none (blobsOf [1, -1, Int64.maxValue]) = .ok output := by
  refine ⟨rfl, ?_, rfl, List.Perm.map _ (by decide), _, rfl⟩
  intro field hfield
  obtain rfl := List.mem_singleton.1 hfield
  exact ⟨by decide, by decide⟩

end Reduction

end Rollup
