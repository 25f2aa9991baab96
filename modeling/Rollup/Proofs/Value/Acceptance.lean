import Rollup.Proofs.Value.Canonical
import Rollup.Proofs.Value.Reading

/-!
# Acceptance — nothing but a canonical form is read

Whatever bytes the reader is given, what it takes off them for a value is the canonical form of that
value, the value is canonical, and it keeps to the limits of the reader (`takes_readValue`).  So
decoding is the inverse of encoding on just these values (`decode_eq_ok_iff`), and no two byte
strings decode to one value (`canonical_of_decode`).
-/

namespace Rollup.Value

open Rollup.Action

/-! ### Heads -/

theorem takes_readByte : Takes (fun byte form => form = [byte]) readByte := by
  intro input byte rest h
  cases input with
  | nil => cases h
  | cons b input =>
      cases h
      exact ⟨[byte], rfl, rfl⟩

theorem takes_readBytes (n : Nat) :
    Takes (fun front form => form = front ∧ front.length = n) (readBytes n) := by
  intro input front rest h
  rw [readBytes, exec_bind_ok (exec_get _)] at h
  split at h
  · cases h
  · next hcut =>
    cases h
    obtain ⟨hlen, happend⟩ := Bytes.cut?_eq_some_iff.1 hcut
    exact ⟨front, happend, rfl, hlen⟩

theorem takes_readLongArgument (width least : Nat) :
    Takes (fun n tail => tail = Bytes.bigEndian width n ∧ least ≤ n ∧ n < Bytes.capacity width)
      (readLongArgument width least) := by
  refine (takes_readBytes width).bind fun front form h => ?_
  obtain ⟨rfl, rfl⟩ := h
  dsimp only
  split
  · exact Takes.throw _
  · next hle =>
    refine Takes.pure ⟨?_, Nat.not_lt.1 hle, Bytes.ofBigEndian_lt _⟩
    rw [List.append_nil, Bytes.bigEndian_ofBigEndian]

/-- **An argument** is read from the bytes in which it is written behind its initial byte. -/
theorem takes_readArgument (info : Nat) :
    Takes (fun n tail => n < Bytes.capacity 8 ∧
      ∀ major, head major n = (32 * major + info).toUInt8 :: tail) (readArgument info) := by
  have hcapacity : Bytes.capacity 1 = 256 ∧ Bytes.capacity 2 = 65536 ∧
      Bytes.capacity 4 = 4294967296 ∧ Bytes.capacity 8 = 18446744073709551616 := by decide
  obtain ⟨h1, h2, h4, h8⟩ := hcapacity
  rw [readArgument]
  split_ifs with hsmall hone htwo hfour height
  · exact Takes.pure ⟨by omega, fun major => by rw [head]; simp only [if_pos hsmall]⟩
  · subst hone
    refine (takes_readLongArgument 1 24).imp fun n tail h => ?_
    obtain ⟨htail, hle, hlt⟩ := h
    refine ⟨by omega, fun _ => ?_⟩
    simp only [head, if_neg (Nat.not_lt.2 hle), if_pos hlt, htail]
  · subst htwo
    refine (takes_readLongArgument 2 _).imp fun n tail h => ?_
    obtain ⟨htail, hle, hlt⟩ := h
    refine ⟨by omega, fun _ => ?_⟩
    have h24 : ¬ n < 24 := by omega
    simp only [head, if_neg h24, if_neg (Nat.not_lt.2 hle), if_pos hlt, htail]
  · subst hfour
    refine (takes_readLongArgument 4 _).imp fun n tail h => ?_
    obtain ⟨htail, hle, hlt⟩ := h
    refine ⟨by omega, fun _ => ?_⟩
    have h24 : ¬ n < 24 := by omega
    have h256 : ¬ n < Bytes.capacity 1 := by omega
    simp only [head, if_neg h24, if_neg h256, if_neg (Nat.not_lt.2 hle), if_pos hlt, htail]
  · subst height
    refine (takes_readLongArgument 8 _).imp fun n tail h => ?_
    obtain ⟨htail, hle, hlt⟩ := h
    refine ⟨hlt, fun _ => ?_⟩
    have h24 : ¬ n < 24 := by omega
    have h256 : ¬ n < Bytes.capacity 1 := by omega
    have h65536 : ¬ n < Bytes.capacity 2 := by omega
    simp only [head, if_neg h24, if_neg h256, if_neg h65536, if_neg (Nat.not_lt.2 hle), htail]
  · exact Takes.throw _
  · exact Takes.throw _

theorem takes_readLength (info limit : Nat) :
    Takes (fun n tail => n ≤ limit ∧
      ∀ major, head major n = (32 * major + info).toUInt8 :: tail) (readLength info limit) := by
  refine (takes_readArgument info).bind fun n tail h => ?_
  obtain ⟨-, hhead⟩ := h
  split
  · exact Takes.throw _
  · next hle =>
    refine Takes.pure ⟨Nat.not_lt.1 hle, fun major => ?_⟩
    rw [List.append_nil, hhead major]

theorem takes_readString (info : Nat) :
    Takes (fun content form => content.length ≤ maxStringBytes ∧ ∀ major,
      head major content.length ++ content = (32 * major + info).toUInt8 :: form)
      (readString info) := by
  refine (takes_readLength info maxStringBytes).bind fun n tail h => ?_
  obtain ⟨hle, hhead⟩ := h
  refine (takes_readBytes n).imp fun content form h => ?_
  obtain ⟨hform, hlen⟩ := h
  subst hform hlen
  exact ⟨hle, fun major => by rw [hhead major, List.cons_append]⟩

/-! ### Accepted forms -/

/-- A value and the bytes it was read from: its canonical form at this depth. -/
structure Accepted (depth : Nat) (v : Value) (form : Bytes) : Prop where
  canonical : v.Canonical
  within : v.Within
  complete : (write depth v).complete = true
  bytes : (write depth v).bytes = form

theorem takes_readSimple (info : Nat) :
    Takes (fun v form => form = [] ∧ (v = .null ∧ info = 22 ∨
      ∃ b, v = .bool b ∧ info = if b then 21 else 20)) (readSimple info) := by
  rw [readSimple]
  split_ifs with hfalse htrue hnull hfloat hbreak
  · exact Takes.pure ⟨rfl, .inr ⟨false, rfl, hfalse⟩⟩
  · exact Takes.pure ⟨rfl, .inr ⟨true, rfl, htrue⟩⟩
  · exact Takes.pure ⟨rfl, .inl ⟨rfl, hnull⟩⟩
  · exact Takes.throw _
  · exact Takes.throw _
  · exact Takes.throw _

theorem takes_fitInteger (n : Int) :
    Takes (fun v form => form = [] ∧ ∃ k, v = .integer k ∧ k.toInt = n) (fitInteger n) := by
  rw [fitInteger]
  split
  · next k hk =>
    exact Takes.pure ⟨rfl, k, rfl, int64?_eq_some_iff.1 hk⟩
  · exact Takes.throw _

/-! ### Leaves -/

section

variable {depth : Nat} (hdepth : depth ≤ maxDepth)

include hdepth

theorem accepted_null : Accepted depth .null [0xF6] where
  canonical := by simp only [Canonical]
  within := by simp only [Within, Limited]
  complete := by rw [write_null hdepth, Written.complete_piece]
  bytes := by rw [write_null hdepth, Written.bytes_piece]

theorem accepted_bool (b : Bool) : Accepted depth (.bool b) [if b then 0xF5 else 0xF4] where
  canonical := by simp only [Canonical]
  within := by simp only [Within, Limited]
  complete := by rw [write_bool hdepth, Written.complete_piece]
  bytes := by rw [write_bool hdepth, Written.bytes_piece]

theorem accepted_integer (n : Int64) : Accepted depth (.integer n) (integerBytes n) where
  canonical := by simp only [Canonical]
  within := by simp only [Within, Limited]
  complete := by rw [write_integer hdepth, Written.complete_piece]
  bytes := by rw [write_integer hdepth, Written.bytes_piece]

theorem accepted_bytes {content : Bytes} (h : content.length ≤ maxStringBytes) :
    Accepted depth (.bytes content) (head 2 content.length ++ content) where
  canonical := by simp only [Canonical]
  within := by simpa only [Within, Limited] using h
  complete := by rw [write_bytes hdepth, Written.complete_piece]
  bytes := by rw [write_bytes hdepth, Written.bytes_piece]

theorem accepted_text {s : String} (h : (Utf8.encode s).length ≤ maxStringBytes) :
    Accepted depth (.text s) (head 3 (Utf8.encode s).length ++ Utf8.encode s) where
  canonical := canonical_text s
  within := by simpa only [Within, Limited] using h
  complete := by rw [write_text hdepth, Written.complete_piece]
  bytes := by rw [write_text hdepth, Written.bytes_piece]

end

/-! ### Lists and maps -/

theorem limitedItems_iff {bytes items : Nat} {vs : List Value} :
    LimitedItems bytes items vs ↔ ∀ v ∈ vs, v.Limited bytes items := by
  induction vs with
  | nil => simp [LimitedItems]
  | cons v vs ih => simp [LimitedItems, ih]

theorem limitedPairs_iff {bytes items : Nat} {pairs : List (Value × Value)} :
    LimitedPairs bytes items pairs ↔
      ∀ q ∈ pairs, q.1.Limited bytes items ∧ q.2.Limited bytes items := by
  induction pairs with
  | nil => simp [LimitedPairs]
  | cons q pairs ih => simp [LimitedPairs, ih]

/-- A value is accepted as nothing but what is written of it. -/
theorem Accepted.self {depth : Nat} {v : Value} {form : Bytes} (h : Accepted depth v form) :
    Accepted depth v (write depth v).bytes := { h with bytes := rfl }

theorem Accepted.of_eq {depth : Nat} {v : Value} {form form' : Bytes} (h : Accepted depth v form)
    (heq : form = form') : Accepted depth v form' := heq ▸ h

theorem accepted_items {depth : Nat} {items : List Value} {forms : List Bytes}
    (h : List.Forall₂ (Accepted depth) items forms) :
    (∀ item ∈ items, Accepted depth item (write depth item).bytes) ∧
      items.map (fun item => (write depth item).bytes) = forms := by
  induction h with
  | nil => simp
  | cons hitem _ ih =>
      obtain ⟨hitems, rfl⟩ := ih
      rw [List.map_cons, hitem.bytes]
      exact ⟨List.forall_mem_cons.2 ⟨hitem.self, hitems⟩, rfl⟩

theorem accepted_array {depth : Nat} (hdepth : depth ≤ maxDepth) {items : List Value}
    {forms : List Bytes} (hcount : items.length ≤ maxItems)
    (h : List.Forall₂ (Accepted (depth + 1)) items forms) :
    Accepted depth (.array items) (head 4 items.length ++ forms.flatten) := by
  obtain ⟨hitems, rfl⟩ := accepted_items h
  have hcomplete : (write depth (.array items)).complete = true := by
    rw [complete_array_iff, writeItems_eq_map, List.forall_mem_map]
    exact ⟨hdepth, fun item hitem => (hitems item hitem).complete⟩
  refine ⟨?_, ?_, hcomplete, bytes_write_array hcomplete⟩
  · rw [Canonical, canonicalItems_iff]
    exact fun item hitem => (hitems item hitem).canonical
  · simp only [Within, Limited]
    exact ⟨hcount, limitedItems_iff.2 fun item hitem => (hitems item hitem).within⟩

/-- Pairs that were read: each is accepted, and the keys ascend by what is written of them. -/
structure AcceptedPairs (depth : Nat) (pairs : List (Value × Value)) : Prop where
  keys : ∀ q ∈ pairs, Accepted depth q.1 (write depth q.1).bytes
  values : ∀ q ∈ pairs, Accepted depth q.2 (write depth q.2).bytes
  ascending : pairs.Pairwise fun a b =>
    Bytes.shortlex (write depth a.1).bytes (write depth b.1).bytes = .lt

/-- The bytes of the pairs of a map, one behind the other. -/
def pairsForm (depth : Nat) (pairs : List (Value × Value)) : Bytes :=
  (pairs.map fun q => (write depth q.1).bytes ++ (write depth q.2).bytes).flatten

theorem accepted_map {depth : Nat} (hdepth : depth ≤ maxDepth) {pairs : List (Value × Value)}
    (hcount : pairs.length ≤ maxItems) (h : AcceptedPairs (depth + 1) pairs) :
    Accepted depth (.map pairs) (head 5 pairs.length ++ pairsForm (depth + 1) pairs) := by
  have hcomplete : (write depth (.map pairs)).complete = true := by
    rw [complete_map_iff, writePairs_eq_map, List.forall_mem_map]
    exact ⟨hdepth, fun q hq => ⟨(h.keys q hq).complete, (h.values q hq).complete⟩⟩
  have hascending : pairs.Pairwise fun a b =>
      Bytes.shortlex (orderBytes a.1) (orderBytes b.1) = .lt := by
    refine h.ascending.imp_of_mem fun {a b} ha hb hlt => ?_
    rwa [orderBytes_eq (h.keys a ha).complete, orderBytes_eq (h.keys b hb).complete]
  refine ⟨?_, ?_, hcomplete, bytes_write_map hcomplete (isLE_of_ascending hascending)⟩
  · rw [Canonical, canonicalPairs_iff]
    exact ⟨fun q hq => ⟨(h.keys q hq).canonical, (h.values q hq).canonical⟩, hascending⟩
  · simp only [Within, Limited]
    refine ⟨hcount, limitedPairs_iff.2 fun q hq => ?_⟩
    exact ⟨(h.keys q hq).within, (h.values q hq).within⟩

theorem follows_trans {previous : Option Bytes} {key later : Bytes}
    (h : follows previous key = true) (hlt : Bytes.shortlex key later = .lt) :
    follows previous later = true := by
  cases previous with
  | none => rfl
  | some earlier =>
      rw [follows, beq_iff_eq] at h ⊢
      exact Std.TransCmp.lt_trans h hlt

/-- **Pairs** are read in ascending order of their keys, all behind the key `previous`. -/
theorem takes_readPairs {depth : Nat} {item : Reader Value}
    (hitem : Takes (Accepted depth) item) (n : Nat) (previous : Option Bytes) :
    Takes (fun pairs form => pairs.length = n ∧ AcceptedPairs depth pairs ∧
        (∀ q ∈ pairs, follows previous (write depth q.1).bytes = true) ∧
        form = pairsForm depth pairs)
      (readPairs item n previous) := by
  induction n generalizing previous with
  | zero => exact Takes.pure ⟨rfl, ⟨by simp, by simp, .nil⟩, by simp, rfl⟩
  | succ n ih =>
      intro input pairs rest h
      rw [readPairs, exec_bind_ok (exec_get _)] at h
      obtain ⟨key, left, hread, h⟩ := exec_bind_eq_ok.1 h
      obtain ⟨form, rfl, hkey⟩ := hitem hread
      rw [exec_bind_ok (exec_get _), Bytes.consumed_append] at h
      dsimp only at h
      split at h
      case isFalse => cases h
      case isTrue hfollows =>
        obtain rfl := hkey.bytes
        obtain ⟨value, behind, hread, hrest⟩ := exec_bind_eq_ok.1 h
        obtain ⟨form, rfl, hvalue⟩ := hitem hread
        obtain rfl := hvalue.bytes
        obtain ⟨others, last, hothers, hlast⟩ := exec_bind_eq_ok.1 hrest
        cases hlast
        obtain ⟨_, rfl, hlen, haccepted, hbehind, rfl⟩ := ih _ hothers
        have hall : ∀ q ∈ others, Bytes.shortlex (write depth key).bytes (write depth q.1).bytes =
            .lt := fun q hq => beq_iff_eq.1 (hbehind q hq)
        refine ⟨pairsForm depth ((key, value) :: others), ?_, congrArg (· + 1) hlen, ?_, ?_, rfl⟩
        · simp only [pairsForm, List.map_cons, List.flatten_cons, List.append_assoc]
        · exact ⟨List.forall_mem_cons.2 ⟨hkey, haccepted.keys⟩,
            List.forall_mem_cons.2 ⟨hvalue, haccepted.values⟩,
            List.pairwise_cons.2 ⟨hall, haccepted.ascending⟩⟩
        · exact List.forall_mem_cons.2 ⟨hfollows, fun q hq => follows_trans hfollows (hall q hq)⟩

/-! ### Values behind their initial byte -/

section

variable {depth : Nat} (hdepth : depth ≤ maxDepth) (info : Nat)

include hdepth

/-- An integer of either sign. -/
theorem takes_integer {major : Nat} {value : Nat → Int}
    (hvalue : ∀ (n : Nat) (k : Int64), k.toInt = value n → integerBytes k = head major n) :
    Takes (fun v form => Accepted depth v ((32 * major + info).toUInt8 :: form))
      (readArgument info >>= fun n => fitInteger (value n)) := by
  refine (takes_readArgument info).bind fun n tail h => ?_
  obtain ⟨-, hhead⟩ := h
  refine (takes_fitInteger _).imp fun v form h => ?_
  obtain ⟨rfl, k, rfl, hk⟩ := h
  exact (accepted_integer hdepth k).of_eq (by rw [hvalue n k hk, hhead major, List.append_nil])

theorem takes_bytes :
    Takes (fun v form => Accepted depth v ((32 * 2 + info).toUInt8 :: form))
      (readString info >>= fun content => pure (.bytes content)) := by
  refine (takes_readString info).map fun content form h => ?_
  obtain ⟨hle, hform⟩ := h
  exact (accepted_bytes hdepth hle).of_eq (hform 2)

theorem takes_text :
    Takes (fun v form => Accepted depth v ((32 * 3 + info).toUInt8 :: form))
      (readString info >>= fun content =>
        match Utf8.decode? content with
        | some s => pure (.text s)
        | none => throw .invalidUtf8) := by
  refine (takes_readString info).bind fun content form h => ?_
  obtain ⟨hle, hform⟩ := h
  split
  · next s hs =>
    obtain rfl := Utf8.eq_encode_of_decode? hs
    exact Takes.pure ((accepted_text hdepth hle).of_eq (by rw [hform 3, List.append_nil]))
  · exact Takes.throw _

theorem takes_simple :
    Takes (fun v form => Accepted depth v ((32 * 7 + info).toUInt8 :: form))
      (readSimple info) := by
  refine (takes_readSimple info).imp fun v form h => ?_
  obtain ⟨rfl, ⟨rfl, rfl⟩ | ⟨b, rfl, rfl⟩⟩ := h
  · exact accepted_null hdepth
  · cases b
    · exact accepted_bool hdepth false
    · exact accepted_bool hdepth true

variable {item : Reader Value} (hitem : Takes (Accepted (depth + 1)) item)

include hitem

theorem takes_array :
    Takes (fun v form => Accepted depth v ((32 * 4 + info).toUInt8 :: form))
      (readLength info maxItems >>= fun n =>
        item.times n >>= fun items => pure (.array items)) := by
  refine (takes_readLength info maxItems).bind fun n tail h => ?_
  obtain ⟨hle, hhead⟩ := h
  refine (hitem.times n).map fun items form h => ?_
  obtain ⟨rfl, forms, hitems, rfl⟩ := h
  exact (accepted_array hdepth hle hitems).of_eq (by rw [hhead 4, List.cons_append])

theorem takes_map :
    Takes (fun v form => Accepted depth v ((32 * 5 + info).toUInt8 :: form))
      (readLength info maxItems >>= fun n =>
        readPairs item n none >>= fun pairs => pure (.map pairs)) := by
  refine (takes_readLength info maxItems).bind fun n tail h => ?_
  obtain ⟨hle, hhead⟩ := h
  refine (takes_readPairs hitem n none).map fun pairs form h => ?_
  obtain ⟨rfl, hpairs, -, rfl⟩ := h
  exact (accepted_map hdepth hle hpairs).of_eq (by rw [hhead 5, List.cons_append])

end

/-! ### Values -/

/-- **A value** is read from its canonical form, at whatever depth it lies. -/
theorem takes_readValue (levels : Nat) {depth : Nat} (hlevels : depth + levels = maxDepth + 1) :
    Takes (Accepted depth) (readValue levels) := by
  induction levels generalizing depth with
  | zero => exact Takes.throw _
  | succ levels ih =>
      have hdepth : depth ≤ maxDepth := by omega
      have hitem : Takes (Accepted (depth + 1)) (readValue levels) := ih (by omega)
      rw [readValue]
      refine takes_readByte.bind fun initial form hform => ?_
      subst hform
      -- the initial byte is major type and info, and the major type says what is read
      have hparts : (32 * (initial.toNat / 32) + initial.toNat % 32).toUInt8 = initial := by
        rw [Nat.div_add_mod, Nat.toUInt8, UInt8.ofNat_toNat]
      have hmajor : initial.toNat / 32 < 8 := by
        have hbyte := initial.toNat_lt
        omega
      dsimp only
      generalize initial.toNat % 32 = info at hparts ⊢
      generalize initial.toNat / 32 = major at hparts hmajor ⊢
      subst hparts
      have hcases : major = 0 ∨ major = 1 ∨ major = 2 ∨ major = 3 ∨ major = 4 ∨ major = 5 ∨
          major = 6 ∨ major = 7 := by omega
      rcases hcases with rfl | rfl | rfl | rfl | rfl | rfl | rfl | rfl
      · exact takes_integer hdepth info fun n k hk => by rw [integerBytes, hk]
      · refine takes_integer hdepth info fun n k hk => ?_
        rw [integerBytes, hk, show (-1 - (n : Int)) = Int.negSucc n by omega]
      · exact takes_bytes hdepth info
      · exact takes_text hdepth info
      · exact takes_array hdepth info hitem
      · exact takes_map hdepth info hitem
      · exact Takes.throw _
      · exact takes_simple hdepth info

/-! ### Decoding -/

/-- **Decoding** is the inverse of encoding, on the canonical values that keep to the limits. -/
theorem decode_eq_ok_iff {bytes : Bytes} {v : Value} :
    decode bytes = .ok v ↔ v.encode = .ok bytes ∧ v.Canonical ∧ v.Within := by
  constructor
  · intro h
    rw [decode] at h
    split at h
    · next hread =>
      cases h
      obtain ⟨form, happend, haccepted⟩ := takes_readValue _ (Nat.zero_add _) hread
      rw [List.append_nil] at happend
      have hbytes := haccepted.bytes.trans happend
      exact ⟨encode_eq_ok_iff.2 ⟨haccepted.complete, hbytes⟩, haccepted.canonical, haccepted.within⟩
    · cases h
    · cases h
  · rintro ⟨hform, hcanon, hwithin⟩
    exact decode_encode hcanon hwithin hform

/-- **What decodes is canonical.**  The value of any byte string is canonical, its canonical form is
that byte string, and so no other byte string has this value. -/
theorem canonical_of_decode {bytes : Bytes} {v : Value} (h : decode bytes = .ok v) :
    v.encode = .ok bytes ∧ v.Canonical ∧ ∀ other, decode other = .ok v → other = bytes := by
  obtain ⟨hform, hcanon, -⟩ := decode_eq_ok_iff.1 h
  refine ⟨hform, hcanon, fun other hother => ?_⟩
  obtain ⟨hother, -⟩ := decode_eq_ok_iff.1 hother
  rw [hform] at hother
  exact (Except.ok.inj hother).symm

theorem canonical_of_decode_map :
    let bytes : Bytes := [0xA2, 0x61, 0x61, 0x01, 0x62, 0x62, 0x62, 0x82, 0xF5, 0xF6]
    let v : Value := .map [(.text "a", .integer 1), (.text "bb", .array [.bool true, .null])]
    decode bytes = .ok v ∧
      v.encode = .ok bytes ∧ v.Canonical ∧ ∀ other, decode other = .ok v → other = bytes := by
  intro bytes v
  have h : decode bytes = .ok v := by rfl
  exact ⟨h, canonical_of_decode h⟩

end Rollup.Value
