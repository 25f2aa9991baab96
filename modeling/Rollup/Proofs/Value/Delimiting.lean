import Rollup.Proofs.Value.Acceptance

/-!
# Delimiting — a form says itself where it ends

None of the readers looks behind the bytes that it needs: what one of them answers, a refusal
included, it answers however the input goes on, unless it came to the end of the input
(`settled_readValue`).  So the check that refuses a byte string never depends on bytes that are not
there yet.  A form that is cut short is refused because it is cut short, wherever the cut falls, and
behind a whole form every further byte is counted as trailing (`decode_of_cut_or_extended`).
-/

namespace Rollup.Value

open Rollup.Action

/-! ### Heads -/

theorem settled_readByte : Settled .endOfInput readByte := by
  intro input answer left hread hanswer behind
  cases input with
  | nil =>
      cases hread
      exact absurd rfl hanswer
  | cons byte rest =>
      cases hread
      rfl

theorem settled_readBytes (n : Nat) : Settled .endOfInput (readBytes n) := by
  intro input answer left hread hanswer behind
  rw [readBytes, exec_bind_ok (exec_get _)] at hread
  split at hread
  · cases hread
    exact absurd rfl hanswer
  · next hcut =>
    cases hread
    obtain ⟨hlen, rfl⟩ := Bytes.cut?_eq_some_iff.1 hcut
    rw [List.append_assoc, ← hlen]
    exact reads_readBytes _ _

theorem settled_readLongArgument (width least : Nat) :
    Settled .endOfInput (readLongArgument width least) := by
  refine (settled_readBytes width).bind fun bytes => ?_
  dsimp only
  split
  · exact Settled.throw _
  · exact Settled.pure _

theorem settled_readArgument (info : Nat) : Settled .endOfInput (readArgument info) := by
  rw [readArgument]
  split_ifs
  · exact Settled.pure _
  · exact settled_readLongArgument 1 _
  · exact settled_readLongArgument 2 _
  · exact settled_readLongArgument 4 _
  · exact settled_readLongArgument 8 _
  · exact Settled.throw _
  · exact Settled.throw _

theorem settled_readLength (info limit : Nat) : Settled .endOfInput (readLength info limit) := by
  refine (settled_readArgument info).bind fun claimed => ?_
  split
  · exact Settled.throw _
  · exact Settled.pure _

theorem settled_readString (info : Nat) : Settled .endOfInput (readString info) :=
  (settled_readLength info maxStringBytes).bind settled_readBytes

theorem settled_fitInteger (n : Int) : Settled .endOfInput (fitInteger n) := by
  rw [fitInteger]
  split
  · exact Settled.pure _
  · exact Settled.throw _

theorem settled_readSimple (info : Nat) : Settled .endOfInput (readSimple info) := by
  rw [readSimple]
  split_ifs
  · exact Settled.pure _
  · exact Settled.pure _
  · exact Settled.pure _
  · exact Settled.throw _
  · exact Settled.throw _
  · exact Settled.throw _

/-! ### Pairs -/

/-- What was consumed is the same, whatever follows. -/
theorem consumed_append_append (whole rest behind : Bytes) :
    Bytes.consumed (whole ++ behind) (rest ++ behind) = Bytes.consumed whole rest := by
  rw [Bytes.consumed, Bytes.consumed, List.length_append, List.length_append,
    Nat.add_sub_add_right, List.take_append_of_le_length (Nat.sub_le _ _)]

theorem settled_readPairs {item : Reader Value} (hitem : Settled .endOfInput item) (n : Nat)
    (previous : Option Bytes) : Settled .endOfInput (readPairs item n previous) := by
  induction n generalizing previous with
  | zero => exact Settled.pure _
  | succ n ih =>
      rw [readPairs]
      refine hitem.between (fun key start left => ?_) fun key start left behind => ?_
      · dsimp only
        split
        · exact hitem.bind fun value => (ih _).bind fun rest => Settled.pure _
        · exact Settled.throw _
      · simp only [consumed_append_append]

/-! ### Values -/

/-- **A value** is read, or refused, by the bytes up to its end, at whatever depth it lies. -/
theorem settled_readValue (levels : Nat) : Settled .endOfInput (readValue levels) := by
  induction levels with
  | zero => exact Settled.throw _
  | succ levels ih =>
      rw [readValue]
      refine settled_readByte.bind fun initial => ?_
      dsimp only
      -- one case for each major type, and one for what has none of the first seven
      split
      · exact (settled_readArgument _).bind fun n => settled_fitInteger _
      · exact (settled_readArgument _).bind fun n => settled_fitInteger _
      · exact (settled_readString _).bind fun content => Settled.pure _
      · refine (settled_readString _).bind fun content => ?_
        split
        · exact Settled.pure _
        · exact Settled.throw _
      · exact (settled_readLength _ _).bind fun n => (ih.times n).bind fun items => Settled.pure _
      · refine (settled_readLength _ _).bind fun n => ?_
        exact (settled_readPairs ih n none).bind fun pairs => Settled.pure _
      · exact Settled.throw _
      · exact settled_readSimple _

/-! ### Decoding -/

theorem exec_read_of_decode {form : Bytes} {v : Value} (h : decode form = .ok v) :
    read.exec form = (.ok v, []) := by
  rw [decode] at h
  split at h
  · next hread =>
    cases h
    exact hread
  · cases h
  · cases h

/-- **Forms delimit themselves.**  Let a byte string be accepted; it is what is written of its
value.  Every shorter front of it, the empty one included, is refused because the input ends too
early, and with any bytes behind it all of these, and no others, are refused as trailing. -/
theorem decode_of_cut_or_extended {form : Bytes} {v : Value} (h : decode form = .ok v) :
    v.encode = .ok form ∧
      (∀ front, front <+: form → front ≠ form → decode front = .error .endOfInput) ∧
      ∀ behind, behind ≠ [] → decode (form ++ behind) = .error (.trailingBytes behind.length) := by
  have hread := exec_read_of_decode h
  refine ⟨(decode_eq_ok_iff.1 h).1, fun front hfront hne => ?_, fun behind hne => ?_⟩
  · obtain ⟨left, hcut⟩ := (settled_readValue _).exec_of_front hread hfront hne
    rw [decode, read, hcut]
  · have hextended : read.exec (form ++ behind) = (.ok v, [] ++ behind) :=
      settled_readValue _ hread (by simp) behind
    obtain ⟨byte, rest, rfl⟩ := List.exists_cons_of_ne_nil hne
    rw [decode, hextended]
    rfl

theorem decode_of_cut_or_extended_map :
    let form : Bytes := [0xA2, 0x61, 0x61, 0x18, 0x2A, 0x62, 0x62, 0x62, 0x82, 0xF5, 0xF6]
    let v : Value := .map [(.text "a", .integer 42), (.text "bb", .array [.bool true, .null])]
    decode form = .ok v ∧ v.encode = .ok form ∧
      (∀ front, front <+: form → front ≠ form → decode front = .error .endOfInput) ∧
      ∀ behind, behind ≠ [] → decode (form ++ behind) = .error (.trailingBytes behind.length) := by
  intro form v
  have h : decode form = .ok v := by rfl
  exact ⟨h, decode_of_cut_or_extended h⟩

end Rollup.Value
