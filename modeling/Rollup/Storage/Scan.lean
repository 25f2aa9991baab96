import Rollup.Storage.Record

/-!
# Scanning a log

Reads the records at the front of a log.  The log ends where a record is not complete: a crash can
leave the beginning of one there.  A complete record that is not in order is damage.
-/

namespace Rollup

theorem Bytes.length_of_cut? {n : Nat} {whole front rest : Bytes}
    (h : whole.cut? n = some (front, rest)) : front.length = n ∧ front ++ rest = whole := by
  unfold Bytes.cut? at h
  simp only [Option.ite_none_right_eq_some, Option.some.injEq, Prod.mk.injEq] at h
  obtain ⟨hn, rfl, rfl⟩ := h
  exact ⟨hn, List.take_append_drop n whole⟩

namespace Record

/-- What lies at the front of a log. -/
inductive Front where
  /-- The beginning of a record, or nothing. -/
  | torn
  | damaged (e : StorageError)
  /-- A record, its size and the log behind it. -/
  | record (ops : List Operation) (size : Nat) (rest : Bytes)

/-- A complete record at an offset, checked. -/
def check (offset : Nat) (header payload sum rest : Bytes) : Front :=
  let expected := (Bytes.ofLittleEndian sum).toUInt32
  let actual := Crc32.checksum (header ++ payload)
  if expected ≠ actual then .damaged (.checksum offset expected actual)
  else
    match readPayload.exec payload with
    | (.error damage, _) => .damaged (.corrupted damage)
    | (.ok ops, _) => .record ops (headerSize + payload.length + checksumSize) rest

/-- Looks at the front of a log whose first byte has this offset. -/
def front (offset : Nat) (log : Bytes) : Front :=
  match log.cut? headerSize with
  | none => .torn
  | some (header, body) =>
    let version := Bytes.ofLittleEndian ((header.drop 4).take 2)
    if header.take 4 ≠ magic then .damaged (.corrupted (.badMagic offset))
    else if currentVersion < version then .damaged (.corrupted (.newerVersion version offset))
    else
      match body.cut? (Bytes.ofLittleEndian (header.drop 6)) with
      | none => .torn
      | some (payload, tail) =>
        match tail.cut? checksumSize with
        | none => .torn
        | some (sum, rest) => check offset header payload sum rest

theorem rest_of_check {offset size : Nat} {header payload sum rest rest' : Bytes}
    {ops : List Operation} (h : check offset header payload sum rest = .record ops size rest') :
    rest' = rest := by
  simp only [check] at h
  split at h
  · cases h
  · split at h
    · cases h
    · cases h; rfl

theorem rest_lt_of_front {offset size : Nat} {log rest : Bytes} {ops : List Operation}
    (h : front offset log = .record ops size rest) : rest.length < log.length := by
  rw [front] at h
  split at h
  · cases h
  · next header body hheader =>
    simp only at h
    split at h
    · cases h
    · split at h
      · cases h
      · split at h
        · cases h
        · next payload tail hpayload =>
          split at h
          · cases h
          · next sum rest' hsum =>
            cases rest_of_check h
            obtain ⟨hn, rfl⟩ := Bytes.length_of_cut? hheader
            obtain ⟨-, rfl⟩ := Bytes.length_of_cut? hpayload
            obtain ⟨-, rfl⟩ := Bytes.length_of_cut? hsum
            simp only [List.length_append, hn, headerSize]
            omega

end Record

/-- The complete records of a log, and how many bytes they take. -/
structure Scan where
  records : List (List Operation)
  validLength : Nat
deriving DecidableEq, Repr

namespace Scan

/-- Scans a log whose first byte has this offset. -/
def ofLog (offset : Nat) (log : Bytes) : Except StorageError Scan :=
  match h : Record.front offset log with
  | .torn => .ok ⟨[], offset⟩
  | .damaged e => .error e
  | .record ops size rest => do
    have := Record.rest_lt_of_front h
    let later ← ofLog (offset + size) rest
    return ⟨ops :: later.records, later.validLength⟩
termination_by log.length

end Scan

end Rollup
