import Rollup.Proofs.Except
import Rollup.Proofs.Reader
import Rollup.Storage.Row

/-!
# Rows — the stored form

A row has a stored form when its lengths fit into four bytes (`encode_eq_ok_iff`), and is read back
from it (`decode_of_encode`).
-/

namespace Rollup.Row

open Rollup.Action

theorem reads_readLength {n : Nat} {form : Bytes} (h : encodeLength n = .ok form) :
    Reads readLength form n := by
  rw [encodeLength] at h
  split at h
  · next hn =>
    cases h
    intro rest
    have hcut : (Bytes.littleEndian 4 n ++ rest).cut? 4 = some (Bytes.littleEndian 4 n, rest) :=
      Bytes.cut?_append (Bytes.length_littleEndian 4 n) rest
    simp only [readLength, exec_bind, exec_get, hcut, exec_set, exec_pure,
      Bytes.ofLittleEndian_littleEndian hn]
  · cases h

theorem reads_readColumn {column form : Bytes} (h : encodeColumn column = .ok form) :
    Reads readColumn form column := by
  obtain ⟨front, hfront, h⟩ := bind_eq_ok_iff.1 h
  cases h
  refine (reads_readLength hfront).bind fun rest => ?_
  simp only [exec_bind, exec_get, Bytes.cut?_append rfl, exec_set, exec_pure]

/-- **A row is read back from its stored form.** -/
theorem decode_of_encode {row : Row} {stored : Bytes} (h : row.encode = .ok stored) :
    decode stored = .ok row := by
  obtain ⟨count, hcount, h⟩ := bind_eq_ok_iff.1 h
  obtain ⟨forms, hforms, h⟩ := bind_eq_ok_iff.1 h
  cases h
  have hcolumns : Reads (do readColumn.times (← readLength)) (count ++ forms.flatten)
      row.columns :=
    (reads_readLength hcount).bind
      (Reads.times ((mapM_eq_ok_iff.1 hforms).imp fun _ _ => reads_readColumn))
  simp only [decode, hcolumns.exec_form]
  rfl

theorem encodeLength_isOk_iff {n : Nat} :
    (∃ form, encodeLength n = .ok form) ↔ n < Bytes.capacity 4 := by
  rw [encodeLength]
  split
  · next h => exact ⟨fun _ => h, fun _ => ⟨_, rfl⟩⟩
  · next h => exact ⟨fun ⟨_, e⟩ => (by cases e), fun h' => absurd h' h⟩

theorem encodeColumn_isOk_iff {column : Bytes} :
    (∃ form, encodeColumn column = .ok form) ↔ column.length < Bytes.capacity 4 := by
  rw [← encodeLength_isOk_iff]
  constructor
  · rintro ⟨form, h⟩
    obtain ⟨front, hfront, -⟩ := bind_eq_ok_iff.1 h
    exact ⟨front, hfront⟩
  · rintro ⟨front, hfront⟩
    exact ⟨front ++ column, bind_eq_ok_iff.2 ⟨front, hfront, rfl⟩⟩

/-- **The rows that can be stored.** -/
theorem encode_isOk_iff {row : Row} : (∃ stored, row.encode = .ok stored) ↔
    row.columns.length < Bytes.capacity 4 ∧
      ∀ column ∈ row.columns, column.length < Bytes.capacity 4 := by
  have hcolumns : (∀ column ∈ row.columns, column.length < Bytes.capacity 4) ↔
      ∃ forms, row.columns.mapM encodeColumn = .ok forms := by
    rw [mapM_isOk_iff]
    exact forall₂_congr fun _ _ => encodeColumn_isOk_iff.symm
  rw [hcolumns, ← encodeLength_isOk_iff]
  constructor
  · rintro ⟨stored, h⟩
    obtain ⟨count, hcount, h⟩ := bind_eq_ok_iff.1 h
    obtain ⟨forms, hforms, -⟩ := bind_eq_ok_iff.1 h
    exact ⟨⟨count, hcount⟩, forms, hforms⟩
  · rintro ⟨⟨count, hcount⟩, forms, hforms⟩
    exact ⟨count ++ forms.flatten,
      bind_eq_ok_iff.2 ⟨count, hcount, bind_eq_ok_iff.2 ⟨forms, hforms, rfl⟩⟩⟩

end Rollup.Row
