import Rollup.Proofs.Checksum
import Rollup.Proofs.Storage.Environment

/-!
# Damage — opening a log in which one byte was changed

A byte that is changed in a record of a log is noticed when the log is opened, with one exception
(`damage_reported`).  Under the checksum a changed byte changes what it has to be, and in the
checksum it is no longer that (`Record.not_sealed_set`).  A record made shorter breaks off inside
its payload, and that cannot be read even if the bytes behind it are its checksum.

The exception is a length made greater.  The record is then taken at its word before anything is
checked: one that reaches past the end of the log looks like the last thing written before a crash.
Opening cuts it off, with all the records behind it.
-/

namespace Rollup

open Rollup.Action BackendView

/-- The errors that report damage. -/
def StorageError.IsDamage : StorageError → Prop
  | .corrupted _ | .checksum _ _ _ => True
  | _ => False

namespace Record

/-! ### A changed byte -/

variable {log : Bytes}

/-- Behind the header's magic and version nothing matters to it. -/
theorem Headed.set (h : Headed log) {j : Nat} (hj : 6 ≤ j) (byte : UInt8) :
    Headed (log.set j byte) where
  length := by rw [List.length_set]; exact h.length
  magic := by rw [List.take_set_of_le (by omega)]; exact h.magic
  version := by
    rw [List.drop_set, if_neg (by omega), List.take_set_of_le (by omega)]
    exact h.version

section

variable {j : Nat} {byte : UInt8}

/-- What stands behind the header is as it was. -/
theorem drop_header_set (hj : j < 10) : (log.set j byte).drop headerSize = log.drop headerSize :=
  List.drop_set_of_lt hj

theorem claimed_set (hj : j < 6 ∨ 10 ≤ j) : claimed (log.set j byte) = claimed log := by
  rw [claimed, claimed, List.drop_set]
  split
  · rfl
  · rw [List.take_set_of_le (by omega)]

/-- The number that the length field of a changed log holds. -/
theorem claimed_set_field (hj : 6 ≤ j) : claimed (log.set j byte) =
    Bytes.ofLittleEndian (((log.drop 6).take 4).set (j - 6) byte) := by
  rw [claimed, List.drop_set, if_neg (Nat.not_lt.2 hj), List.take_set]

/-- A byte of a log, in a piece of it. -/
theorem getElem_piece {start size : Nat} (hj : start ≤ j ∧ j < start + size)
    (hlen : j < log.length) : ∃ h : j - start < ((log.drop start).take size).length,
      ((log.drop start).take size)[j - start] = log[j] := by
  refine ⟨by rw [List.length_take, List.length_drop]; omega, ?_⟩
  rw [List.getElem_take, List.getElem_drop]
  exact getElem_congr_idx (by omega)

/-- A greater byte in the length field makes the record longer, and only a greater one does. -/
theorem claimed_lt_set_iff (hj : 6 ≤ j ∧ j < 10) (hlen : j < log.length) :
    claimed log < claimed (log.set j byte) ↔ log[j] < byte := by
  have hpiece : 6 ≤ j ∧ j < 6 + 4 := hj
  obtain ⟨hfield, hget⟩ := getElem_piece hpiece hlen
  rw [claimed_set_field hj.1, claimed, Bytes.ofLittleEndian_lt_set_iff hfield, hget]

theorem claimed_set_ne (hj : 6 ≤ j ∧ j < 10) (hlen : j < log.length) (hne : byte ≠ log[j]) :
    claimed (log.set j byte) ≠ claimed log := by
  have hpiece : 6 ≤ j ∧ j < 6 + 4 := hj
  obtain ⟨hfield, hget⟩ := getElem_piece hpiece hlen
  rw [claimed_set_field hj.1]
  exact Bytes.ofLittleEndian_set_ne hfield (hget ▸ hne)

/-- Four bytes at most are told by the checksum that they write. -/
theorem ofLittleEndian_eq_of_toUInt32 {a b : Bytes} (ha : a.length ≤ 4) (hb : b.length ≤ 4)
    (h : (Bytes.ofLittleEndian a).toUInt32 = (Bytes.ofLittleEndian b).toUInt32) :
    Bytes.ofLittleEndian a = Bytes.ofLittleEndian b := by
  have hlt : ∀ c : Bytes, c.length ≤ 4 → Bytes.ofLittleEndian c < 2 ^ 32 := fun c hc =>
    Nat.lt_of_lt_of_le (Bytes.ofLittleEndian_lt c) (Nat.pow_le_pow_right (by decide) hc)
  have hmod : Bytes.ofLittleEndian a % 2 ^ 32 = Bytes.ofLittleEndian b % 2 ^ 32 :=
    congrArg UInt32.toNat h
  rwa [Nat.mod_eq_of_lt (hlt a ha), Nat.mod_eq_of_lt (hlt b hb)] at hmod

/-- **A changed byte breaks the seal**, under the checksum or in it. -/
theorem not_sealed_set (hs : Sealed log) (hj : j < 6 ∨ 10 ≤ j) (hextent : j < extent log)
    (hlen : j < log.length) (hne : byte ≠ log[j]) : ¬ Sealed (log.set j byte) := by
  rw [Sealed, claimed_set hj]
  intro hs'
  by_cases hcovered : j < headerSize + claimed log
  · -- the checksum is as it was, and no longer that of what it covers
    rw [List.drop_set_of_lt hcovered, hs, List.take_set] at hs'
    refine Crc32.checksum_set_ne ?_ ?_ hs'.symm
    · rw [List.length_take]
      omega
    · rwa [List.getElem_take]
  · -- what it covers is as it was, and it is another one
    rw [extent] at hextent
    rw [List.drop_set, if_neg hcovered, List.take_set, List.take_set_of_le (by omega), ← hs] at hs'
    obtain ⟨hsum, hget⟩ := getElem_piece ⟨Nat.le_of_not_lt hcovered, hextent⟩ hlen
    refine Bytes.ofLittleEndian_set_ne hsum (hget ▸ hne)
      (ofLittleEndian_eq_of_toUInt32 ?_ (List.length_take_le _ _) hs')
    rw [List.length_set]
    exact List.length_take_le _ _

end

/-! ### Payloads cut short -/

theorem steady_readBytes (n : Nat) : Steady (readBytes n) := by
  intro input front rest hread
  simp only [readBytes, exec_bind, exec_get] at hread
  split at hread
  · cases hread
  · next front' rest' hcut =>
    cases hread
    obtain ⟨rfl, hinput⟩ := Bytes.cut?_eq_some_iff.1 hcut
    exact ⟨front, hinput, reads_readBytes front⟩

theorem steady_readNumber (width : Nat) : Steady (readNumber width) :=
  (steady_readBytes width).bind fun _ => .pure _

theorem steady_readField : Steady readField :=
  (steady_readNumber 4).bind fun n => steady_readBytes n

theorem steady_readTreeName : Steady readTreeName := by
  refine steady_readField.bind fun field => ?_
  cases Utf8.decode? field with
  | none => exact .throw _
  | some name => exact .pure name

theorem steady_readOperation : Steady readOperation := by
  refine (steady_readNumber 1).bind fun tag => steady_readTreeName.bind fun tree => ?_
  split
  · exact .pure _
  · exact steady_readField.bind fun key => steady_readField.bind fun value => .pure _
  · exact steady_readField.bind fun key => .pure _
  · exact .throw _

theorem steady_readPayload : Steady readPayload :=
  (steady_readNumber 4).bind fun count => steady_readOperation.times count

/-! ### A record with a changed byte -/

namespace Begins

variable {ops : List Operation} {j : Nat} {byte : UInt8}

/-- A record that was made shorter is damaged even if a checksum stands there: what is left of the
payload breaks off. -/
theorem front_set_of_shorter (h : Begins ops log) (hj : 6 ≤ j ∧ j < 10)
    (hshorter : claimed (log.set j byte) < claimed log) (offset : Nat) :
    ∃ e, front offset (log.set j byte) = .damaged e := by
  have hheaded := h.toHeaded.set hj.1 byte
  have hfits := h.fits
  have hextent : extent (log.set j byte) ≤ (log.set j byte).length := by
    rw [extent] at hfits
    rw [extent, List.length_set]
    omega
  by_cases hs : Sealed (log.set j byte)
  · have hpayload : ((log.set j byte).drop headerSize).take (claimed (log.set j byte)) =
        ((log.drop headerSize).take (claimed log)).take (claimed (log.set j byte)) := by
      rw [drop_header_set hj.2, List.take_take, Nat.min_eq_left (Nat.le_of_lt hshorter)]
    have hlength : ((log.drop headerSize).take (claimed log)).length = claimed log := by
      rw [extent] at hfits
      exact List.length_take_of_le (by rw [List.length_drop]; omega)
    obtain ⟨damage, left, hread⟩ :=
      steady_readPayload.exec_take h.reads (by rw [hlength]; exact hshorter)
    rw [hheaded.front_of_sealed hextent hs, hpayload, hread]
    exact ⟨_, rfl⟩
  · exact hheaded.front_of_not_sealed hextent hs offset

/-- **One changed byte** is damage, unless it makes the record longer. -/
theorem front_set (h : Begins ops log) (hextent : j < extent log) (hlen : j < log.length)
    (hne : byte ≠ log[j]) (hlonger : ¬ (6 ≤ j ∧ j < 10 ∧ log[j] < byte)) (offset : Nat) :
    ∃ e, front offset (log.set j byte) = .damaged e := by
  by_cases hj : 6 ≤ j ∧ j < 10
  · have hge := mt (claimed_lt_set_iff hj hlen).1 fun hlt => hlonger ⟨hj.1, hj.2, hlt⟩
    have hclaimed := claimed_set_ne hj hlen hne
    exact h.front_set_of_shorter hj (by omega) offset
  · have hout : j < 6 ∨ 10 ≤ j := by omega
    have hheader : headerSize ≤ (log.set j byte).length := by
      rw [List.length_set]
      exact h.length
    have hfits : extent (log.set j byte) ≤ (log.set j byte).length := by
      rw [extent, claimed_set hout, List.length_set]
      exact h.fits
    rcases headed_or_damaged hheader offset with hheaded | hdamage
    · exact hheaded.front_of_not_sealed hfits
        (not_sealed_set h.isSealed hout hextent hlen hne) offset
    · exact hdamage

/-- A record that was made longer, and has a checksum there, brings back the same operations:
nothing looks at the bytes behind the last one. -/
theorem front_set_of_sealed (h : Begins ops log) (hj : 6 ≤ j ∧ j < 10)
    (hlonger : claimed log < claimed (log.set j byte))
    (hextent : extent (log.set j byte) ≤ (log.set j byte).length) (hs : Sealed (log.set j byte))
    (offset : Nat) :
    front offset (log.set j byte) = .record ops (extent (log.set j byte))
      ((log.set j byte).drop (extent (log.set j byte))) := by
  have hpayload : ((log.set j byte).drop headerSize).take (claimed (log.set j byte)) =
      (log.drop headerSize).take (claimed log) ++ ((log.drop headerSize).drop (claimed log)).take
        (claimed (log.set j byte) - claimed log) := by
    rw [← List.take_add, Nat.add_sub_cancel' (Nat.le_of_lt hlonger), drop_header_set hj.2]
  rw [(h.toHeaded.set hj.1 byte).front_of_sealed hextent hs, hpayload, h.reads]

end Begins

/-- A record whose header claims too much passes: it reaches past the end of the log, or a checksum
stands there and the log behind it is in order. -/
def Passes (offset : Nat) (log : Bytes) : Prop :=
  log.length < extent log ∨
    Sealed log ∧ ∃ scan, Scan.ofLog (offset + extent log) (log.drop (extent log)) = .ok scan

theorem isDamage_of_front {offset : Nat} {e : StorageError} (h : front offset log = .damaged e) :
    e.IsDamage := by
  simp only [front, check] at h
  split at h
  · cases h
  · split at h
    · cases h; trivial
    · split at h
      · cases h; trivial
      · split at h
        · cases h
        · split at h
          · cases h
          · split at h
            · cases h; trivial
            · split at h <;> cases h
              trivial

end Record

/-! ### The scan of a log with a changed byte -/

namespace Scan

open Record

theorem ofLog_of_damaged {offset : Nat} {log : Bytes} {e : StorageError}
    (h : front offset log = .damaged e) : ofLog offset log = .error e := by
  rw [ofLog]
  split
  · next h' => rw [h] at h'; cases h'
  · next h' => rw [h] at h'; cases h'; rfl
  · next h' => rw [h] at h'; cases h'

/-- A scan fails for damage only. -/
theorem isDamage_of_ofLog {offset : Nat} {log : Bytes} {e : StorageError}
    (h : ofLog offset log = .error e) : e.IsDamage := by
  fun_induction ofLog offset log with
  | case1 => cases h
  | case2 offset log damage hfront => cases h; exact isDamage_of_front hfront
  | case3 offset log ops size rest _ _ ih =>
      cases hrest : ofLog (offset + size) rest with
      | error damage => rw [hrest] at h; cases h; exact ih hrest
      | ok later => rw [hrest] at h; cases h

/-- Whole records in front of a log are found first. -/
theorem ofLog_append {records : List (List Operation)} {forms : List Bytes}
    (h : Encoded records forms) (offset : Nat) (log : Bytes) :
    ofLog offset (forms.flatten ++ log) =
      (ofLog (offset + forms.flatten.length) log).map fun later =>
        ⟨records ++ later.records, later.validLength⟩ := by
  induction h generalizing offset with
  | nil =>
      rw [List.flatten_nil, List.nil_append, List.length_nil, Nat.add_zero]
      cases ofLog offset log <;> rfl
  | @cons ops form records forms hform _ ih =>
      rw [List.flatten_cons, List.append_assoc, ofLog_of_record (front_of_encode hform offset _),
        ih, List.length_append, Nat.add_assoc]
      cases ofLog (offset + (form.length + forms.flatten.length)) log <;> rfl

/-- The form that a byte lies in. -/
theorem drop_wholeWithin {forms : List Bytes} {i : Nat} (hi : i < forms.flatten.length) :
    ∃ form later, forms.drop (wholeWithin i forms) = form :: later ∧
      i < (forms.take (wholeWithin i forms)).flatten.length + form.length := by
  have hle := length_whole_le i forms
  have hm : wholeWithin i forms < forms.length := by
    refine Nat.lt_of_le_of_ne (wholeWithin_le i forms) fun heq => ?_
    rw [heq, List.take_length] at hle
    exact absurd hi (Nat.not_lt.2 hle)
  have hnext := mt (le_wholeWithin_iff (k := i) (Nat.succ_le_of_lt hm)).2 (Nat.not_succ_le_self _)
  rw [List.take_succ_eq_append_getElem hm, List.flatten_append, List.length_append] at hnext
  refine ⟨forms[wholeWithin i forms], forms.drop (wholeWithin i forms + 1),
    List.drop_eq_getElem_cons hm, ?_⟩
  simpa using hnext

/-- **The scan of a record with one changed byte** fails, unless the record has become longer and
passes. -/
theorem ofLog_set_isError_iff {ops : List Operation} {log : Bytes} (h : Begins ops log) {j : Nat}
    (hextent : j < extent log) (hlen : j < log.length) {byte : UInt8} (hne : byte ≠ log[j])
    (offset : Nat) : (∃ e, ofLog offset (log.set j byte) = .error e) ↔
      ¬ ((6 ≤ j ∧ j < 10 ∧ log[j] < byte) ∧ Passes offset (log.set j byte)) := by
  by_cases hlonger : 6 ≤ j ∧ j < 10 ∧ log[j] < byte
  · have hj : 6 ≤ j ∧ j < 10 := ⟨hlonger.1, hlonger.2.1⟩
    have hheaded := h.toHeaded.set hj.1 byte
    have hclaimed := (claimed_lt_set_iff hj hlen).2 hlonger.2.2
    rw [and_iff_right hlonger]
    by_cases hshort : (log.set j byte).length < extent (log.set j byte)
    · rw [ofLog_of_torn (hheaded.front_of_lt_extent hshort offset)]
      exact iff_of_false (fun ⟨_, he⟩ => nomatch he) (not_not_intro (.inl hshort))
    have hfits := Nat.le_of_not_lt hshort
    by_cases hs : Sealed (log.set j byte)
    · rw [Passes, or_iff_right hshort, and_iff_right hs, ← isError_iff,
        ofLog_of_record (h.front_set_of_sealed hj hclaimed hfits hs offset)]
      exact exists_congr fun _ => map_eq_error_iff
    · obtain ⟨e, hdamage⟩ := hheaded.front_of_not_sealed hfits hs offset
      refine iff_of_true ⟨e, ofLog_of_damaged hdamage⟩ fun hpasses => ?_
      exact hpasses.elim hshort fun hpasses => hs hpasses.1
  · obtain ⟨e, hdamage⟩ := h.front_set hextent hlen hne hlonger offset
    exact iff_of_true ⟨e, ofLog_of_damaged hdamage⟩ fun hpasses => hlonger hpasses.1

/-- The record that a byte of a log lies in, and where in it. -/
theorem exists_begins {records : List (List Operation)} {forms : List Bytes}
    (h : Encoded records forms) {i : Nat} (hi : i < forms.flatten.length) :
    ∃ ops log j, Begins ops log ∧ j < extent log ∧
      forms.flatten = (forms.take (wholeWithin i forms)).flatten ++ log ∧
      i = (forms.take (wholeWithin i forms)).flatten.length + j := by
  obtain ⟨form, later, hdrop, hlt⟩ := drop_wholeWithin hi
  have hle := length_whole_le i forms
  have hforms := List.forall₂_drop (wholeWithin i forms) h
  rw [hdrop] at hforms
  obtain ⟨ops, others, hform, -, -⟩ := List.forall₂_cons_right_iff.1 hforms
  obtain ⟨hbegins, hextent⟩ := begins_of_encode hform later.flatten
  refine ⟨ops, form ++ later.flatten, i - _, hbegins, ?_, ?_, (Nat.add_sub_cancel' hle).symm⟩
  · rw [hextent]
    omega
  · rw [← List.flatten_cons, ← hdrop, ← List.flatten_append, List.take_append_drop]

end Scan

/-! ### Opening a log with a changed byte -/

/-- Replaying fails only for want of a tree. -/
theorem Operation.exists_noTree_of_applyAll {ops : List Operation} {s : Snapshot}
    {e : StorageError} (h : applyAll s ops = .error e) : ∃ tree, e = .noTree tree := by
  induction ops generalizing s with
  | nil => cases h
  | cons op ops ih =>
      rw [applyAll_cons] at h
      cases happly : apply s op with
      | ok t => rw [happly] at h; exact ih h
      | error e' =>
          rw [happly] at h
          cases h
          cases op with
          | createTree tree => cases happly
          | put tree key value =>
              rw [apply_put] at happly
              split at happly <;> cases happly
              exact ⟨tree, rfl⟩
          | delete tree key =>
              rw [apply_delete] at happly
              split at happly <;> cases happly
              exact ⟨tree, rfl⟩

namespace Environment

variable {β : Type} [Backend β] [LawfulBackend β]

/-- Opening fails with a report of damage, and leaves the bytes as they were. -/
def Reports (b : β) : Prop :=
  ∃ e, (openLog b).outcome = .error e ∧ e.IsDamage ∧ held (openLog b).backend = held b

/-- Opening a log that cannot be scanned. -/
theorem openLog_of_scan_error {b : β} (hs : Sound b) {e : StorageError}
    (h : Scan.ofLog 0 (held b) = .error e) :
    (openLog b).outcome = .error e ∧ held (openLog b).backend = held b := by
  have hi := LawfulBackend.intact_of_sound hs
  rcases (CommitLog.carries_content hi).cases with ⟨b', hexec, -, hheld, -⟩ | ⟨-, -, -, -, -, hnot⟩
  · have hload : load.exec b = (.error e, b') := by
      rw [load, exec_bind_ok hexec, h]
      rfl
    rw [load] at hload
    rw [openLog]
    simp only [hload]
    exact ⟨trivial, hheld⟩
  · exact absurd hs hnot

/-- Opening a log that can be scanned replays what was found, and cuts off the rest. -/
theorem openLog_of_scan {b : β} (hs : Sound b) {scan : Scan}
    (h : Scan.ofLog 0 (held b) = .ok scan) :
    (openLog b).outcome = replay (openLog b).backend scan.records ∧
      held (openLog b).backend = (held b).take scan.validLength := by
  have hi := LawfulBackend.intact_of_sound hs
  rcases (carries_load hi h).cases with ⟨b₁, h₁, hi₁, hc₁, hs₁⟩ | ⟨-, -, -, -, -, hnot⟩
  · simp only [load] at h₁
    rw [openLog]
    simp only [h₁]
    split
    · next hlt =>
      rw [← hc₁] at hlt
      rcases (LawfulBackend.truncate hi₁ _ (Nat.le_of_lt hlt)).cases with
        ⟨b₂, h₂, -, hc₂, -⟩ | ⟨-, -, -, -, -, hnot⟩
      · simp only [h₂]
        exact ⟨trivial, hc₁ ▸ hc₂⟩
      · exact absurd (hs₁ hs) hnot
    · next hge =>
      refine ⟨rfl, ?_⟩
      rw [hc₁, List.take_of_length_le (Nat.not_lt.1 hge)]
  · exact absurd hs hnot

/-- **What is reported** when no call fails is what the scan fails for. -/
theorem reports_iff {b : β} (hs : Sound b) :
    Reports b ↔ ∃ e, Scan.ofLog 0 (held b) = .error e := by
  constructor
  · rintro ⟨e, houtcome, hdamage, -⟩
    cases hscan : Scan.ofLog 0 (held b) with
    | error e => exact ⟨e, rfl⟩
    | ok scan =>
        rw [(openLog_of_scan hs hscan).1, replay] at houtcome
        cases happly : Operation.applyAll .empty scan.records.flatten with
        | ok s => rw [happly] at houtcome; cases houtcome
        | error e =>
            rw [happly] at houtcome
            obtain ⟨tree, rfl⟩ := Operation.exists_noTree_of_applyAll happly
            cases houtcome
            cases hdamage
  · rintro ⟨e, hscan⟩
    obtain ⟨houtcome, hheld⟩ := openLog_of_scan_error hs hscan
    exact ⟨e, houtcome, Scan.isDamage_of_ofLog hscan, hheld⟩

section

variable {b : β} {before : List (List Operation)} {forms : List Bytes} {rest : Bytes}

theorem reports_behind_iff (hs : Sound b) (hforms : Record.Encoded before forms)
    (hheld : held b = forms.flatten ++ rest) :
    Reports b ↔ ∃ e, Scan.ofLog forms.flatten.length rest = .error e := by
  rw [reports_iff hs, hheld, Scan.ofLog_append hforms, Nat.zero_add]
  exact exists_congr fun _ => map_eq_error_iff

/-- What looks torn is cut off, and the records before it are replayed. -/
theorem openLog_of_torn (hs : Sound b) (hforms : Record.Encoded before forms)
    (hheld : held b = forms.flatten ++ rest)
    (htorn : Record.front forms.flatten.length rest = .torn) {later : List (List Operation)}
    {s : Snapshot} (happly : Operation.applyAll .empty (before ++ later).flatten = .ok s) :
    ∃ env, (openLog b).outcome = .ok env ∧ env.commits = before.length ∧
      held env.log.backend = forms.flatten := by
  have hscan : Scan.ofLog 0 (held b) = .ok ⟨before, forms.flatten.length⟩ := by
    rw [hheld, Scan.ofLog_append hforms, Nat.zero_add, Scan.ofLog_of_torn htorn]
    exact congrArg (fun records => Except.ok (Scan.mk records _)) (List.append_nil before)
  obtain ⟨houtcome, hkept⟩ := openLog_of_scan hs hscan
  rw [List.flatten_append, Operation.applyAll_append, bind_eq_ok_iff] at happly
  obtain ⟨t, ht, -⟩ := happly
  refine ⟨⟨⟨(openLog b).backend, before.length⟩, t, none⟩, ?_, rfl, ?_⟩
  · rw [houtcome, replay, ht]
    rfl
  · show held (openLog b).backend = _
    rw [hkept, hheld, List.take_left]

end

/-- **Opening a log with one changed byte** fails with a report of damage, and leaves the bytes as
they were, unless the byte makes the length of its record greater and the longer record passes.
One that reaches past the end of the log looks torn, and takes the records behind it with it:
opening succeeds, and cuts the log off where it begins. -/
theorem damage_reported {b : β} (hs : Sound b) {records : List (List Operation)}
    {forms : List Bytes} (hforms : Record.Encoded records forms) {i : Nat}
    (hi : i < forms.flatten.length) {byte : UInt8} (hne : byte ≠ forms.flatten[i])
    (hheld : held b = forms.flatten.set i byte) :
    let m := Scan.wholeWithin i forms
    let start := (forms.take m).flatten.length
    let rest := (held b).drop start
    let longer := start + 6 ≤ i ∧ i < start + 10 ∧ forms.flatten[i] < byte
    (Reports b ↔ ¬ (longer ∧ Record.Passes start rest)) ∧
      (longer → rest.length < Record.extent rest →
        ∀ s, Operation.applyAll .empty records.flatten = .ok s →
          ∃ env, (openLog b).outcome = .ok env ∧ env.commits = m ∧
            held env.log.backend = (forms.take m).flatten) := by
  intro m start rest longer
  obtain ⟨ops, log, j, hbegins, hextent, hsplit, hplace⟩ : ∃ ops log j,
      Record.Begins ops log ∧ j < Record.extent log ∧
        forms.flatten = (forms.take m).flatten ++ log ∧ i = start + j :=
    Scan.exists_begins hforms hi
  have hlen : j < log.length := Nat.lt_of_lt_of_le hextent hbegins.fits
  have hget : forms.flatten[i] = log[j] := by
    rw [List.getElem_of_eq hsplit, List.getElem_append_right (hplace ▸ Nat.le_add_right start j)]
    exact getElem_congr_idx (Nat.sub_eq_of_eq_add' hplace)
  have hbytes : held b = (forms.take m).flatten ++ log.set j byte := by
    rw [hheld, hsplit, List.set_append_right i byte (hplace ▸ Nat.le_add_right start j)]
    exact congrArg (_ ++ log.set · byte) (Nat.sub_eq_of_eq_add' hplace)
  have hrest : rest = log.set j byte := by
    show (held b).drop start = _
    rw [hbytes, List.drop_left' rfl]
  have hlonger : longer ↔ 6 ≤ j ∧ j < 10 ∧ log[j] < byte := by
    rw [← hget]
    exact and_congr (by omega) (and_congr (by omega) Iff.rfl)
  have hbefore := List.forall₂_take m hforms
  rw [hlonger, hrest]
  constructor
  · rw [reports_behind_iff hs hbefore hbytes]
    exact Scan.ofLog_set_isError_iff hbegins hextent hlen (hget ▸ hne) start
  · intro hbyte hshort s happly
    have htorn := (hbegins.toHeaded.set hbyte.1 byte).front_of_lt_extent hshort start
    rw [← List.take_append_drop m records] at happly
    obtain ⟨env, hopen, hcommits, hkept⟩ := openLog_of_torn hs hbefore hbytes htorn happly
    refine ⟨env, hopen, ?_, hkept⟩
    rw [hcommits, List.length_take, hforms.length_eq,
      Nat.min_eq_left (Scan.wholeWithin_le i forms)]

/-- A log of two commits.  Its second byte of a length changed, both are lost without a report; a
byte of its first operation changed is reported. -/
theorem damage_reported_of_longer :
    let forms : List Bytes :=
      [[65, 82, 76, 71, 1, 0, 10, 0, 0, 0, 1, 0, 0, 0, 1, 1, 0, 0, 0, 116, 223, 174, 221, 156],
        [65, 82, 76, 71, 1, 0, 20, 0, 0, 0, 1, 0, 0, 0, 2, 1, 0, 0, 0, 116, 1, 0, 0, 0, 1, 1, 0,
          0, 0, 2, 111, 207, 229, 23]]
    Record.Encoded [[.createTree "t"], [.put "t" [1] [2]]] forms ∧
      ¬ Reports (Memory.mk (forms.flatten.set 7 1)) ∧
      (∃ env, (openLog (Memory.mk (forms.flatten.set 7 1))).outcome = .ok env ∧
        env.commits = 0 ∧ env.log.backend.bytes = []) ∧
      Reports (Memory.mk (forms.flatten.set 14 3)) := by
  intro forms
  have hforms : Record.Encoded [[.createTree "t"], [.put "t" [1] [2]]] forms :=
    .cons (by decide +kernel) (.cons (by decide +kernel) .nil)
  obtain ⟨hlonger, hlost⟩ := damage_reported (b := Memory.mk (forms.flatten.set 7 1)) (i := 7)
    trivial hforms (by decide) (by decide) rfl
  obtain ⟨hother, -⟩ := damage_reported (b := Memory.mk (forms.flatten.set 14 3)) (i := 14)
    trivial hforms (by decide) (by decide) rfl
  refine ⟨hforms, fun h => hlonger.1 h ⟨by decide, .inl (by decide)⟩, ?_, hother.2 ?_⟩
  · obtain ⟨env, hopen, hcommits, hkept⟩ := hlost (by decide) (by decide) _ rfl
    exact ⟨env, hopen, hcommits, hkept⟩
  · exact fun h => absurd h.1 (by decide)

end Environment

end Rollup
