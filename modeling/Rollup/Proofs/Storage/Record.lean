import Rollup.Proofs.Except
import Rollup.Proofs.Reader
import Rollup.Storage.Scan

/-!
# Log records — what a scan finds in a log that was cut

* A record is read back from the front of any log (`front_of_encode`).
* The beginning of a record that is not the whole of it is torn, wherever it was cut
  (`front_take_of_encode`).
* So the first `k` bytes of a log of complete records scan to the records that lie entirely within
  them: `ofLog_take`, with `wholeWithin` for their number.
-/

namespace Rollup

open Rollup.Action

namespace Record

/-! ### The payload -/

theorem reads_readBytes (front : Bytes) : Reads (readBytes front.length) front front := by
  intro rest
  simp only [readBytes, exec_bind, exec_get, Bytes.cut?_append rfl, exec_set, exec_pure]

theorem reads_readNumber {width n : Nat} (h : n < Bytes.capacity width) :
    Reads (readNumber width) (Bytes.littleEndian width n) n := by
  have hread := reads_readBytes (Bytes.littleEndian width n)
  rw [Bytes.length_littleEndian] at hread
  have := hread.map Bytes.ofLittleEndian
  rwa [Bytes.ofLittleEndian_littleEndian h] at this

theorem reads_readField {field form : Bytes} (h : encodeField field = .ok form) :
    Reads readField form field := by
  simp only [encodeField] at h
  split at h
  · next hlt =>
    cases h
    exact (reads_readNumber hlt).bind (reads_readBytes field)
  · cases h

theorem reads_readTreeName {tree : String} {form : Bytes}
    (h : encodeField (Utf8.encode tree) = .ok form) : Reads readTreeName form tree := by
  intro rest
  rw [readTreeName, exec_bind_ok (reads_readField h rest), Utf8.decode?_encode]
  rfl

theorem encodeTagged_eq_ok_iff {tag : UInt8} {fields : List Bytes} {form : Bytes} :
    encodeTagged tag fields = .ok form ↔
      ∃ forms, List.Forall₂ (fun f b => encodeField f = .ok b) fields forms ∧
        form = tag :: forms.flatten := by
  rw [encodeTagged, bind_eq_ok_iff]
  simp only [mapM_eq_ok_iff]
  exact exists_congr fun _ => and_congr_right fun _ => ⟨fun h => by cases h; rfl, fun h => h ▸ rfl⟩

theorem reads_readOperation {op : Operation} {form : Bytes} (h : encodeOperation op = .ok form) :
    Reads readOperation form op := by
  have htag : ∀ n : Nat, n < 256 → Reads (readNumber 1) [n.toUInt8] n := fun n hn =>
    @reads_readNumber 1 n hn
  cases op with
  | createTree tree =>
      obtain ⟨_, _ | ⟨ha, _ | _⟩, rfl⟩ := encodeTagged_eq_ok_iff.1 h
      exact (htag 1 (by omega)).bind ((reads_readTreeName ha).bind (.pure _))
  | put tree key value =>
      obtain ⟨_, _ | ⟨ha, _ | ⟨hb, _ | ⟨hc, _ | _⟩⟩⟩, rfl⟩ := encodeTagged_eq_ok_iff.1 h
      exact (htag 2 (by omega)).bind ((reads_readTreeName ha).bind
        ((reads_readField hb).bind ((reads_readField hc).bind (.pure _))))
  | delete tree key =>
      obtain ⟨_, _ | ⟨ha, _ | ⟨hb, _ | _⟩⟩, rfl⟩ := encodeTagged_eq_ok_iff.1 h
      exact (htag 3 (by omega)).bind ((reads_readTreeName ha).bind
        ((reads_readField hb).bind (.pure _)))

theorem reads_readPayload {ops : List Operation} {payload : Bytes}
    (h : encodePayload ops = .ok payload) : Reads readPayload payload ops := by
  simp only [encodePayload] at h
  split at h
  · next hlt =>
    obtain ⟨forms, hforms, hp⟩ := bind_eq_ok_iff.1 h
    cases hp
    refine (reads_readNumber hlt).bind (Reads.times ?_)
    exact (mapM_eq_ok_iff.1 hforms).imp fun _ _ => reads_readOperation
  · cases h

/-! ### The frame -/

/-- The header of a record. -/
def header (payload : Bytes) : Bytes :=
  magic ++ Bytes.littleEndian 2 currentVersion ++ Bytes.littleEndian 4 payload.length

/-- The checksum that closes a record. -/
def closing (payload : Bytes) : Bytes :=
  Bytes.littleEndian 4 (Crc32.checksum (header payload ++ payload)).toNat

theorem frame_eq (payload : Bytes) :
    frame payload = header payload ++ (payload ++ closing payload) := by
  simp only [frame, header, closing, List.append_assoc]

@[simp] theorem length_header (payload : Bytes) : (header payload).length = headerSize := by
  simp [header, magic, headerSize]

@[simp] theorem length_closing (payload : Bytes) : (closing payload).length = checksumSize := by
  simp [closing, checksumSize]

theorem length_frame (payload : Bytes) :
    (frame payload).length = headerSize + payload.length + checksumSize := by
  simp only [frame_eq, List.length_append, length_header, length_closing]
  omega

theorem encode_eq_ok_iff {ops : List Operation} {form : Bytes} :
    encode ops = .ok form ↔ ∃ payload, encodePayload ops = .ok payload ∧
      payload.length < Bytes.capacity 4 ∧ form = frame payload := by
  rw [encode, bind_eq_ok_iff]
  refine exists_congr fun payload => and_congr_right fun _ => ?_
  split
  · next h => exact ⟨fun e => ⟨h, by cases e; rfl⟩, fun e => e.2 ▸ rfl⟩
  · next h => exact ⟨fun e => (by cases e), fun e => absurd e.1 h⟩

/-- The records of a log, and their forms in it. -/
abbrev Encoded (records : List (List Operation)) (forms : List Bytes) : Prop :=
  List.Forall₂ (fun ops form => encode ops = .ok form) records forms

/-- What a recorded operation puts is not too long for a length field. -/
theorem length_lt_of_encode {ops : List Operation} {form : Bytes} (h : encode ops = .ok form)
    {tree : String} {key value : Bytes} (hmem : .put tree key value ∈ ops) :
    value.length < Bytes.capacity 4 := by
  obtain ⟨payload, hpayload, -⟩ := encode_eq_ok_iff.1 h
  simp only [encodePayload] at hpayload
  split at hpayload
  · obtain ⟨forms, hforms, -⟩ := bind_eq_ok_iff.1 hpayload
    obtain ⟨opForm, hop⟩ := mapM_isOk_iff.1 ⟨forms, hforms⟩ _ hmem
    obtain ⟨fields, hfields, -⟩ := encodeTagged_eq_ok_iff.1 hop
    obtain ⟨field, hfield⟩ := mapM_isOk_iff.1 ⟨fields, mapM_eq_ok_iff.2 hfields⟩ value (by simp)
    simp only [encodeField] at hfield
    split at hfield
    · next hlt => exact hlt
    · cases hfield
  · cases hpayload

theorem ne_nil_of_encode {ops : List Operation} {form : Bytes} (h : encode ops = .ok form) :
    form ≠ [] := by
  obtain ⟨payload, -, -, rfl⟩ := encode_eq_ok_iff.1 h
  exact List.cons_ne_nil _ _

/-! ### The front of a log -/

theorem front_of_short {log : Bytes} (h : log.length < headerSize) (offset : Nat) :
    front offset log = .torn := by
  rw [front, Bytes.cut?_eq_none_iff.2 h]

/-- The payload length that is written in the header. -/
def claimed (log : Bytes) : Nat := Bytes.ofLittleEndian ((log.drop 6).take 4)

/-- How many bytes the record takes by its header. -/
def extent (log : Bytes) : Nat := headerSize + claimed log + checksumSize

/-- The log begins with a header that is in order, whatever length is written in it. -/
structure Headed (log : Bytes) : Prop where
  length : headerSize ≤ log.length
  magic : log.take 4 = magic
  version : Bytes.ofLittleEndian ((log.drop 4).take 2) ≤ currentVersion

/-- Where the record ends by its header, its checksum stands. -/
def Sealed (log : Bytes) : Prop :=
  (Bytes.ofLittleEndian ((log.drop (headerSize + claimed log)).take checksumSize)).toUInt32 =
    Crc32.checksum (log.take (headerSize + claimed log))

variable {log : Bytes}

theorem cut?_header (h : headerSize ≤ log.length) :
    log.cut? headerSize = some (log.take headerSize, log.drop headerSize) :=
  Bytes.cut?_eq_some_iff.2 ⟨List.length_take_of_le h, List.take_append_drop _ _⟩

/-- The fields of the header. -/
theorem take_header (log : Bytes) : (log.take headerSize).take 4 = log.take 4 ∧
    ((log.take headerSize).drop 4).take 2 = (log.drop 4).take 2 ∧
    (log.take headerSize).drop 6 = (log.drop 6).take 4 := by
  refine ⟨List.take_take, ?_, List.drop_take⟩
  rw [List.drop_take, List.take_take]
  rfl

/-- The length stands in the header. -/
theorem claimed_take {k : Nat} (hk : headerSize ≤ k) : claimed (log.take k) = claimed log := by
  have hfield : 4 ≤ k - 6 := Nat.le_sub_of_add_le hk
  rw [claimed, claimed, List.drop_take, List.take_take, Nat.min_eq_left hfield]

namespace Headed

theorem take (h : Headed log) {k : Nat} (hk : headerSize ≤ k) : Headed (log.take k) where
  length := by
    rw [List.length_take]
    exact Nat.le_min.2 ⟨hk, h.length⟩
  magic := by
    have hfield : 4 ≤ k := Nat.le_trans (by decide) hk
    rw [List.take_take, Nat.min_eq_left hfield]
    exact h.magic
  version := by
    have hfield : 2 ≤ k - 4 := Nat.le_sub_of_add_le (Nat.le_trans (by decide) hk)
    rw [List.drop_take, List.take_take, Nat.min_eq_left hfield]
    exact h.version

/-- Behind a header that is in order, what counts is how much of the rest is there. -/
theorem front_eq (h : Headed log) (offset : Nat) : front offset log =
    ((Bytes.cut? (claimed log) (log.drop headerSize)).bind fun body =>
      (Bytes.cut? checksumSize body.2).map fun tail =>
        check offset (log.take headerSize) body.1 tail.1 tail.2).getD .torn := by
  obtain ⟨hmagic, hversion, hclaimed⟩ := take_header log
  rw [front, cut?_header h.length]
  dsimp only
  rw [hmagic, hversion, hclaimed, ← claimed, if_neg (not_not_intro h.magic),
    if_neg (Nat.not_lt.2 h.version)]
  cases Bytes.cut? (claimed log) (log.drop headerSize) with
  | none => rfl
  | some body =>
      dsimp only [Option.bind_some]
      cases Bytes.cut? checksumSize body.2 with
      | none => rfl
      | some tail => rfl

/-- A record that reaches past the end of the log. -/
theorem front_of_lt_extent (h : Headed log) (hlen : log.length < extent log) (offset : Nat) :
    front offset log = .torn := by
  rw [h.front_eq]
  cases hcut : Bytes.cut? (claimed log) (log.drop headerSize) with
  | none => rfl
  | some body =>
      obtain ⟨hpayload, hbody⟩ := Bytes.cut?_eq_some_iff.1 hcut
      have hlength := congrArg List.length hbody
      rw [List.length_append, List.length_drop] at hlength
      have hheader := h.length
      rw [extent] at hlen
      have hnone : Bytes.cut? checksumSize body.2 = none := Bytes.cut?_eq_none_iff.2 (by omega)
      rw [Option.bind_some, hnone]
      rfl

theorem front_of_extent_le (h : Headed log) (hlen : extent log ≤ log.length) (offset : Nat) :
    front offset log = check offset (log.take headerSize)
      ((log.drop headerSize).take (claimed log))
      ((log.drop (headerSize + claimed log)).take checksumSize) (log.drop (extent log)) := by
  have hheader := h.length
  rw [extent] at hlen
  have hpayload : Bytes.cut? (claimed log) (log.drop headerSize) =
      some ((log.drop headerSize).take (claimed log), log.drop (headerSize + claimed log)) := by
    rw [Bytes.cut?_eq_some_iff, ← List.drop_drop]
    exact ⟨List.length_take_of_le (by rw [List.length_drop]; omega), List.take_append_drop _ _⟩
  have hsum : Bytes.cut? checksumSize (log.drop (headerSize + claimed log)) =
      some ((log.drop (headerSize + claimed log)).take checksumSize, log.drop (extent log)) := by
    have hrest : log.drop (extent log) =
        (log.drop (headerSize + claimed log)).drop checksumSize := List.drop_drop.symm
    rw [Bytes.cut?_eq_some_iff, hrest]
    exact ⟨List.length_take_of_le (by rw [List.length_drop]; omega), List.take_append_drop _ _⟩
  rw [h.front_eq, hpayload, Option.bind_some, hsum]
  rfl

/-- What the checksum covers. -/
theorem take_append_take (log : Bytes) :
    log.take headerSize ++ (log.drop headerSize).take (claimed log) =
      log.take (headerSize + claimed log) := List.take_add.symm

theorem front_of_not_sealed (h : Headed log) (hlen : extent log ≤ log.length) (hs : ¬ Sealed log)
    (offset : Nat) : ∃ e, front offset log = .damaged e := by
  rw [h.front_of_extent_le hlen, check, take_append_take]
  exact ⟨_, if_pos hs⟩

theorem front_of_sealed (h : Headed log) (hlen : extent log ≤ log.length) (hs : Sealed log)
    (offset : Nat) :
    front offset log = match readPayload.exec ((log.drop headerSize).take (claimed log)) with
      | (.error damage, _) => .damaged (.corrupted damage)
      | (.ok ops, _) => .record ops (extent log) (log.drop (extent log)) := by
  have hclaimed : ((log.drop headerSize).take (claimed log)).length = claimed log := by
    rw [extent] at hlen
    exact List.length_take_of_le (by rw [List.length_drop]; omega)
  rw [h.front_of_extent_le hlen, check, take_append_take, hclaimed]
  exact if_neg (not_not_intro hs)

end Headed

/-- A header that is all there is in order, or it is damage. -/
theorem headed_or_damaged (h : headerSize ≤ log.length) (offset : Nat) :
    Headed log ∨ ∃ e, front offset log = .damaged e := by
  obtain ⟨htake, hdrop, -⟩ := take_header log
  rw [front, cut?_header h]
  dsimp only
  rw [htake, hdrop]
  by_cases hmagic : log.take 4 = magic
  · by_cases hversion : currentVersion < Bytes.ofLittleEndian ((log.drop 4).take 2)
    · exact .inr ⟨_, (if_neg (not_not_intro hmagic)).trans (if_pos hversion)⟩
    · exact .inl ⟨h, hmagic, Nat.le_of_not_lt hversion⟩
  · exact .inr ⟨_, if_pos hmagic⟩

/-- The log begins with the record of these operations. -/
structure Begins (ops : List Operation) (log : Bytes) : Prop extends Headed log where
  fits : extent log ≤ log.length
  isSealed : Sealed log
  reads : Reads readPayload ((log.drop headerSize).take (claimed log)) ops

theorem begins_of_encode {ops : List Operation} {form : Bytes} (h : encode ops = .ok form)
    (rest : Bytes) : Begins ops (form ++ rest) ∧ extent (form ++ rest) = form.length := by
  obtain ⟨payload, hpayload, hlt, rfl⟩ := encode_eq_ok_iff.1 h
  have hlog : frame payload ++ rest = header payload ++ (payload ++ (closing payload ++ rest)) := by
    rw [frame_eq, List.append_assoc, List.append_assoc]
  have hclaimed : claimed (frame payload ++ rest) = payload.length :=
    Bytes.ofLittleEndian_littleEndian hlt
  have hextent : extent (frame payload ++ rest) = (frame payload).length := by
    rw [extent, hclaimed, length_frame]
  have hpayload' : ((frame payload ++ rest).drop headerSize).take payload.length = payload := by
    rw [hlog, List.drop_left' (length_header payload), List.take_left]
  have hcovered : (frame payload ++ rest).take (headerSize + payload.length) =
      header payload ++ payload := by
    rw [List.take_add, hpayload', hlog, List.take_left' (length_header payload)]
  have hsum : ((frame payload ++ rest).drop (headerSize + payload.length)).take checksumSize =
      closing payload := by
    rw [← List.drop_drop, hlog, List.drop_left' (length_header payload), List.drop_left,
      List.take_left' (length_closing payload)]
  refine ⟨⟨⟨?_, rfl, ?_⟩, ?_, ?_, ?_⟩, hextent⟩
  · rw [List.length_append, length_frame]
    omega
  · show Bytes.ofLittleEndian (Bytes.littleEndian 2 currentVersion) ≤ currentVersion
    exact Nat.le_of_eq (Bytes.ofLittleEndian_littleEndian (by decide))
  · rw [hextent, List.length_append]
    omega
  · rw [Sealed, hclaimed, hsum, hcovered, closing,
      Bytes.ofLittleEndian_littleEndian (UInt32.toNat_lt _)]
    exact UInt32.ofNat_toNat
  · rw [hclaimed, hpayload']
    exact reads_readPayload hpayload

/-- **A record is found at the front of every log that begins with it.** -/
theorem front_of_encode {ops : List Operation} {form : Bytes} (h : encode ops = .ok form)
    (offset : Nat) (rest : Bytes) :
    front offset (form ++ rest) = .record ops form.length rest := by
  obtain ⟨hbegins, hextent⟩ := begins_of_encode h rest
  rw [hbegins.front_of_sealed hbegins.fits hbegins.isSealed, hbegins.reads.exec_form, hextent,
    List.drop_left]

/-- **A record cut short is torn, wherever it was cut.** -/
theorem front_take_of_encode {ops : List Operation} {form : Bytes} (h : encode ops = .ok form)
    {k : Nat} (hk : k < form.length) (offset : Nat) : front offset (form.take k) = .torn := by
  by_cases hheader : k < headerSize
  · -- in the header
    exact front_of_short (by rw [List.length_take]; omega) offset
  · -- behind it, where the length is known
    obtain ⟨hbegins, hextent⟩ := begins_of_encode h []
    rw [List.append_nil] at hbegins hextent
    have hlength : headerSize ≤ k := Nat.le_of_not_lt hheader
    refine (hbegins.toHeaded.take hlength).front_of_lt_extent ?_ offset
    rw [extent, claimed_take hlength, ← extent, hextent, List.length_take]
    omega

end Record

/-! ### The scan of a log that was cut -/

namespace Scan

open Record

theorem ofLog_of_torn {offset : Nat} {log : Bytes} (h : front offset log = .torn) :
    ofLog offset log = .ok ⟨[], offset⟩ := by
  rw [ofLog]
  split
  · rfl
  · next h' => rw [h] at h'; cases h'
  · next h' => rw [h] at h'; cases h'

theorem ofLog_of_record {offset size : Nat} {log rest : Bytes} {ops : List Operation}
    (h : front offset log = .record ops size rest) :
    ofLog offset log = (ofLog (offset + size) rest).map fun later =>
      ⟨ops :: later.records, later.validLength⟩ := by
  rw [ofLog]
  split
  · next h' => rw [h] at h'; cases h'
  · next h' => rw [h] at h'; cases h'
  · next h' =>
    rw [h] at h'
    cases h'
    cases ofLog (offset + size) rest <;> rfl

/-- How many of the forms lie entirely within the first `k` bytes of them all. -/
def wholeWithin : Nat → List Bytes → Nat
  | _, [] => 0
  | k, form :: forms => if form.length ≤ k then wholeWithin (k - form.length) forms + 1 else 0

theorem wholeWithin_of_length_le {forms : List Bytes} {k : Nat} (h : forms.flatten.length ≤ k) :
    wholeWithin k forms = forms.length := by
  induction forms generalizing k with
  | nil => rfl
  | cons form forms ih =>
      rw [List.flatten_cons, List.length_append] at h
      rw [wholeWithin, if_pos (by omega), ih (by omega), List.length_cons]

/-- They are as many as there is room for. -/
theorem le_wholeWithin_iff {forms : List Bytes} {j k : Nat} (hj : j ≤ forms.length) :
    j ≤ wholeWithin k forms ↔ (forms.take j).flatten.length ≤ k := by
  induction forms generalizing j k with
  | nil =>
      cases Nat.le_zero.1 hj
      exact ⟨fun _ => Nat.zero_le k, fun _ => Nat.zero_le _⟩
  | cons form forms ih =>
      cases j with
      | zero => exact ⟨fun _ => Nat.zero_le k, fun _ => Nat.zero_le _⟩
      | succ j =>
          rw [wholeWithin, List.take_succ_cons, List.flatten_cons, List.length_append]
          split
          · have := @ih j (k - form.length) (Nat.le_of_succ_le_succ hj)
            omega
          · omega

theorem wholeWithin_le (k : Nat) (forms : List Bytes) : wholeWithin k forms ≤ forms.length := by
  induction forms generalizing k with
  | nil => exact Nat.le_refl 0
  | cons form forms ih =>
      rw [wholeWithin]
      split
      · exact Nat.succ_le_succ (ih _)
      · exact Nat.zero_le _

theorem length_whole_le (k : Nat) (forms : List Bytes) :
    (forms.take (wholeWithin k forms)).flatten.length ≤ k :=
  (le_wholeWithin_iff (wholeWithin_le k forms)).1 (Nat.le_refl _)

/-- The records within the first `k` bytes are where these begin. -/
theorem take_take_whole (k : Nat) (forms : List Bytes) :
    (forms.flatten.take k).take (forms.take (wholeWithin k forms)).flatten.length =
      (forms.take (wholeWithin k forms)).flatten := by
  have hle := length_whole_le k forms
  generalize wholeWithin k forms = m at *
  rw [List.take_take, Nat.min_eq_left hle]
  nth_rewrite 2 [← List.take_append_drop m forms]
  rw [List.flatten_append, List.take_left]

/-- **The scan of the first `k` bytes of a log** finds the records that lie entirely within them,
and where the last of these ends. -/
theorem ofLog_take {records : List (List Operation)} {forms : List Bytes}
    (h : Encoded records forms) (offset k : Nat) :
    ofLog offset (forms.flatten.take k) =
      .ok ⟨records.take (wholeWithin k forms),
        offset + (forms.take (wholeWithin k forms)).flatten.length⟩ := by
  induction h generalizing offset k with
  | nil => simpa [wholeWithin] using ofLog_of_torn (@front_of_short [] (by decide) offset)
  | @cons ops form records forms hform _ ih =>
      rw [List.flatten_cons, List.take_append, wholeWithin]
      by_cases hk : form.length ≤ k
      · rw [List.take_of_length_le hk, ofLog_of_record (front_of_encode hform offset _), ih,
          if_pos hk]
        simp [Except.map, Nat.add_assoc]
      · have hrest : k - form.length = 0 := by omega
        rw [if_neg hk, hrest, List.take_zero, List.append_nil,
          ofLog_of_torn (front_take_of_encode hform (by omega) offset)]
        simp

end Scan

end Rollup
