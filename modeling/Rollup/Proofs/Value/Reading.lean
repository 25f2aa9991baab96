import Rollup.Proofs.Reader
import Rollup.Proofs.Value.Writing
import Rollup.Value.Decoding

/-!
# Reading — what was written is read back

The reader answers to the canonical form of a value with that value, or it refuses it for its size
(`yields_write`, `eq_of_decode_encode`).  It does not refuse what keeps to its limits (`Within`,
`decode_encode`).
-/

namespace Rollup.Value

open Rollup.Action

variable {p : Prop}

/-! ### Heads -/

theorem exec_readByte (byte : UInt8) (rest : Bytes) :
    readByte.exec (byte :: rest) = (.ok byte, rest) := rfl

theorem reads_readBytes (front : Bytes) : Reads (readBytes front.length) front front := by
  intro rest
  rw [readBytes, exec_bind_ok (exec_get _), Bytes.cut?_append rfl]
  rfl

theorem reads_readLongArgument {width least n : Nat} (hlt : n < Bytes.capacity width)
    (hle : least ≤ n) : Reads (readLongArgument width least) (Bytes.bigEndian width n) n := by
  have h := reads_readBytes (Bytes.bigEndian width n)
  rw [Bytes.length_bigEndian] at h
  intro rest
  rw [readLongArgument, exec_bind_ok (h rest), Bytes.ofBigEndian_bigEndian hlt]
  dsimp only
  rw [if_neg (Nat.not_lt.2 hle)]
  rfl

/-- The head of an item, as the reader takes it apart. -/
theorem head_eq {major argument : Nat} (hmajor : major < 8) (hlt : argument < Bytes.capacity 8) :
    ∃ (initial : UInt8) (tail : Bytes), head major argument = initial :: tail ∧
      initial.toNat / 32 = major ∧ Reads (readArgument (initial.toNat % 32)) tail argument := by
  have hinitial : ∀ info, info < 32 → (32 * major + info).toUInt8.toNat = 32 * major + info :=
    fun info hinfo => by
      rw [Nat.toUInt8, UInt8.toNat_ofNat']
      omega
  have hparts : ∀ info, info < 32 → (32 * major + info).toUInt8.toNat / 32 = major ∧
      (32 * major + info).toUInt8.toNat % 32 = info := fun info hinfo => by
    rw [hinitial info hinfo]
    omega
  rw [head]
  dsimp only
  split
  · next h =>
    refine ⟨_, _, rfl, (hparts argument (by omega)).1, ?_⟩
    rw [(hparts argument (by omega)).2, readArgument, if_pos h]
    exact Reads.pure _
  · next h24 =>
    have hle : 24 ≤ argument := Nat.not_lt.1 h24
    split
    · next h1 =>
      refine ⟨_, _, rfl, (hparts 24 (by omega)).1, ?_⟩
      rw [(hparts 24 (by omega)).2]
      exact reads_readLongArgument h1 hle
    · next h1 =>
      split
      · next h2 =>
        refine ⟨_, _, rfl, (hparts 25 (by omega)).1, ?_⟩
        rw [(hparts 25 (by omega)).2]
        exact reads_readLongArgument h2 (Nat.not_lt.1 h1)
      · next h2 =>
        split
        · next h4 =>
          refine ⟨_, _, rfl, (hparts 26 (by omega)).1, ?_⟩
          rw [(hparts 26 (by omega)).2]
          exact reads_readLongArgument h4 (Nat.not_lt.1 h2)
        · next h4 =>
          refine ⟨_, _, rfl, (hparts 27 (by omega)).1, ?_⟩
          rw [(hparts 27 (by omega)).2]
          exact reads_readLongArgument hlt (Nat.not_lt.1 h4)

theorem yields_readLength {info n limit : Nat} {form : Bytes} (h : Reads (readArgument info) form n)
    (hp : p → n ≤ limit) : Yields p (readLength info limit) form n := by
  intro rest
  rw [readLength, exec_bind_ok (h rest)]
  split
  · next hlt => exact .inr ⟨fun hp' => absurd (hp hp') (Nat.not_le.2 hlt), _, _, rfl⟩
  · exact .inl rfl

theorem yields_readString {info : Nat} {form content : Bytes}
    (h : Reads (readArgument info) form content.length) (hp : p → content.length ≤ maxStringBytes) :
    Yields p (readString info) (form ++ content) content :=
  (yields_readLength h hp).bind ((reads_readBytes content).yields p)

theorem fitInteger_toInt (n : Int64) : fitInteger n.toInt = pure (.integer n) := by
  rw [fitInteger, int64?_eq_some_iff.2 rfl]

/-! ### Maps -/

/-- Pairs whose keys ascend are read one behind the other. -/
theorem yields_readPairs {item : Reader Value} {form : Value → Bytes}
    {pairs : List (Value × Value)}
    (hitem : ∀ q ∈ pairs, Yields p item (form q.1) q.1 ∧ Yields p item (form q.2) q.2)
    (hasc : pairs.Pairwise fun a b => Bytes.shortlex (form a.1) (form b.1) = .lt)
    {previous : Option Bytes} (hprevious : ∀ q ∈ pairs, follows previous (form q.1) = true) :
    Yields p (readPairs item pairs.length previous)
      (pairs.map fun q => form q.1 ++ form q.2).flatten pairs := by
  induction pairs generalizing previous with
  | nil => exact (Reads.pure []).yields p
  | cons q pairs ih =>
      obtain ⟨⟨hkey, hvalue⟩, hitems⟩ := List.forall_mem_cons.1 hitem
      obtain ⟨hhead, hasc⟩ := List.pairwise_cons.1 hasc
      obtain ⟨hfirst, -⟩ := List.forall_mem_cons.1 hprevious
      have hrest : Yields p (readPairs item pairs.length (some (form q.1))) _ pairs :=
        ih hitems hasc fun r hr => by
          rw [follows, hhead r hr]
          rfl
      have hbehind : Yields p (do
          let value ← item
          let rest ← readPairs item pairs.length (some (form q.1))
          return (q.1, value) :: rest)
          (form q.2 ++ (pairs.map fun r => form r.1 ++ form r.2).flatten) (q :: pairs) :=
        hvalue.bind (hrest.map _)
      intro rest
      rw [List.map_cons, List.flatten_cons, List.append_assoc, List.append_assoc,
        ← List.append_assoc (form q.2), List.length_cons, readPairs, exec_bind_ok (exec_get _)]
      rcases hkey (form q.2 ++ _ ++ rest) with hread | ⟨hp, e, left, hread⟩
      · rw [exec_bind_ok hread, exec_bind_ok (exec_get _), Bytes.consumed_append]
        dsimp only
        rw [if_pos hfirst]
        exact hbehind rest
      · exact .inr ⟨hp, e, left, exec_bind_error hread _⟩

/-! ### Values -/

mutual
/-- The strings in a value have at most `bytes` bytes, and its lists at most `items` items. -/
def Limited (bytes items : Nat) : Value → Prop
  | .bytes content => content.length ≤ bytes
  | .text s => (Utf8.encode s).length ≤ bytes
  | .array vs => vs.length ≤ items ∧ LimitedItems bytes items vs
  | .map pairs => pairs.length ≤ items ∧ LimitedPairs bytes items pairs
  | _ => True

def LimitedItems (bytes items : Nat) : List Value → Prop
  | [] => True
  | v :: vs => Limited bytes items v ∧ LimitedItems bytes items vs

def LimitedPairs (bytes items : Nat) : List (Value × Value) → Prop
  | [] => True
  | (key, v) :: pairs =>
    (Limited bytes items key ∧ Limited bytes items v) ∧ LimitedPairs bytes items pairs
end

/-- The strings and lists in a value keep to the limits of the reader. -/
def Within (v : Value) : Prop := v.Limited maxStringBytes maxItems

/-- The longest string or list whose length has room in a head. -/
def maxArgument : Nat := Bytes.capacity 8 - 1

theorem lt_of_le_maxArgument {n : Nat} (h : n ≤ maxArgument) : n < Bytes.capacity 8 :=
  Nat.lt_of_le_of_lt h (by decide)

mutual
theorem Limited.mono : ∀ {v : Value} {bytes items bytes' items' : Nat}, v.Limited bytes items →
    bytes ≤ bytes' → items ≤ items' → v.Limited bytes' items'
  | .null, _, _, _, _, _, _, _ => by simp only [Limited]
  | .bool _, _, _, _, _, _, _, _ => by simp only [Limited]
  | .integer _, _, _, _, _, _, _, _ => by simp only [Limited]
  | .bytes _, _, _, _, _, h, hbytes, _ => by
    simp only [Limited] at h ⊢
    exact Nat.le_trans h hbytes
  | .text _, _, _, _, _, h, hbytes, _ => by
    simp only [Limited] at h ⊢
    exact Nat.le_trans h hbytes
  | .array _, _, _, _, _, h, hbytes, hitems => by
    simp only [Limited] at h ⊢
    exact ⟨Nat.le_trans h.1 hitems, h.2.mono hbytes hitems⟩
  | .map _, _, _, _, _, h, hbytes, hitems => by
    simp only [Limited] at h ⊢
    exact ⟨Nat.le_trans h.1 hitems, h.2.mono hbytes hitems⟩

theorem LimitedItems.mono : ∀ {vs : List Value} {bytes items bytes' items' : Nat},
    LimitedItems bytes items vs → bytes ≤ bytes' → items ≤ items' → LimitedItems bytes' items' vs
  | [], _, _, _, _, _, _, _ => by simp only [LimitedItems]
  | _ :: _, _, _, _, _, h, hbytes, hitems => by
    simp only [LimitedItems] at h ⊢
    exact ⟨h.1.mono hbytes hitems, h.2.mono hbytes hitems⟩

theorem LimitedPairs.mono : ∀ {pairs : List (Value × Value)} {bytes items bytes' items' : Nat},
    LimitedPairs bytes items pairs → bytes ≤ bytes' → items ≤ items' →
      LimitedPairs bytes' items' pairs
  | [], _, _, _, _, _, _, _ => by simp only [LimitedPairs]
  | (_, _) :: _, _, _, _, _, h, hbytes, hitems => by
    simp only [LimitedPairs] at h ⊢
    exact ⟨⟨h.1.1.mono hbytes hitems, h.1.2.mono hbytes hitems⟩, h.2.mono hbytes hitems⟩
end

theorem Within.limited {v : Value} (h : v.Within) : v.Limited maxArgument maxArgument :=
  Limited.mono h (by decide) (by decide)

theorem head_ne_nil (major argument : Nat) : head major argument ≠ [] := by
  rw [head]
  dsimp only
  split
  · exact List.cons_ne_nil _ _
  · split
    · exact List.cons_ne_nil _ _
    · split
      · exact List.cons_ne_nil _ _
      · split <;> exact List.cons_ne_nil _ _

theorem bytes_ne_nil {depth : Nat} {v : Value} (h : (write depth v).complete = true) :
    (write depth v).bytes ≠ [] := by
  have hdepth := depth_le_of_complete h
  cases v with
  | array items =>
      rw [bytes_write_array h]
      exact List.append_ne_nil_of_left_ne_nil (head_ne_nil _ _) _
  | map pairs =>
      rw [write_map_eq hdepth] at h ⊢
      split at h
      · next hkeys =>
        rw [if_pos hkeys, Written.bytes_andThen (Written.complete_piece _)]
        exact List.append_ne_nil_of_left_ne_nil (head_ne_nil _ _) _
      · cases h
  | null =>
      rw [write_null hdepth]
      exact List.cons_ne_nil _ _
  | bool b =>
      rw [write_bool hdepth]
      exact List.cons_ne_nil _ _
  | integer n =>
      rw [write_integer hdepth, Written.bytes_piece, integerBytes]
      split <;> exact head_ne_nil _ _
  | bytes content =>
      rw [write_bytes hdepth]
      exact List.append_ne_nil_of_left_ne_nil (head_ne_nil _ _) _
  | text s =>
      rw [write_text hdepth]
      exact List.append_ne_nil_of_left_ne_nil (head_ne_nil _ _) _

/-- A list is no longer than what is written of it. -/
theorem length_le_of_flatten {ls : List Bytes} (h : ∀ l ∈ ls, l ≠ []) :
    ls.length ≤ ls.flatten.length := by
  induction ls with
  | nil => exact Nat.le_refl _
  | cons l ls ih =>
      obtain ⟨hl, hls⟩ := List.forall_mem_cons.1 h
      have hpos := List.length_pos_iff.2 hl
      have := ih hls
      simp only [List.length_cons, List.flatten_cons, List.length_append]
      omega

theorem length_le_of_mem {ls : List Bytes} {l : Bytes} {n : Nat} (hl : l ∈ ls)
    (h : ls.flatten.length ≤ n) : l.length ≤ n :=
  Nat.le_trans (List.sublist_flatten_of_mem hl).length_le h

mutual
/-- Nothing in a value is longer than what is written of it. -/
theorem limited_of_length : ∀ (v : Value) {depth n : Nat}, v.Ordered →
    (write depth v).complete = true → (write depth v).bytes.length ≤ n → v.Limited n n
  | .null, _, _, _, _, _ => by simp only [Limited]
  | .bool _, _, _, _, _, _ => by simp only [Limited]
  | .integer _, _, _, _, _, _ => by simp only [Limited]
  | .bytes content, _, _, _, h, hlen => by
    rw [write_bytes (depth_le_of_complete h), Written.bytes_piece, List.length_append] at hlen
    simp only [Limited]
    exact Nat.le_trans (Nat.le_add_left _ _) hlen
  | .text s, _, _, _, h, hlen => by
    rw [write_text (depth_le_of_complete h), Written.bytes_piece, List.length_append] at hlen
    simp only [Limited]
    exact Nat.le_trans (Nat.le_add_left _ _) hlen
  | .array items, depth, n, hordered, h, hlen => by
    have hcomplete := complete_array h
    rw [writeItems_eq_map, List.forall_mem_map] at hcomplete
    rw [Ordered] at hordered
    rw [bytes_write_array h, List.length_append] at hlen
    have hlen := Nat.le_trans (Nat.le_add_left _ _) hlen
    have hcount := length_le_of_flatten (List.forall_mem_map.2 fun item hi =>
      bytes_ne_nil (hcomplete item hi))
    rw [List.length_map] at hcount
    simp only [Limited]
    refine ⟨Nat.le_trans hcount hlen,
      limitedItems_of_length items hordered fun item hi => ⟨hcomplete item hi, ?_⟩⟩
    exact length_le_of_mem (List.mem_map.2 ⟨item, hi, rfl⟩) hlen
  | .map pairs, depth, n, hordered, h, hlen => by
    have hcomplete := complete_map h
    rw [writePairs_eq_map, List.forall_mem_map] at hcomplete
    rw [Ordered] at hordered
    rw [bytes_write_map h hordered.2, List.length_append] at hlen
    have hlen := Nat.le_trans (Nat.le_add_left _ _) hlen
    have hcount := length_le_of_flatten (List.forall_mem_map.2 fun q hq =>
      List.append_ne_nil_of_left_ne_nil (bytes_ne_nil (hcomplete q hq).1)
        (write (depth + 1) q.2).bytes)
    rw [List.length_map] at hcount
    simp only [Limited]
    refine ⟨Nat.le_trans hcount hlen,
      @limitedPairs_of_length pairs (depth + 1) n hordered.1 fun q hq => ?_⟩
    have hpair := length_le_of_mem (List.mem_map_of_mem hq) hlen
    rw [List.length_append] at hpair
    exact ⟨⟨(hcomplete q hq).1, by omega⟩, (hcomplete q hq).2, by omega⟩

theorem limitedItems_of_length : ∀ (items : List Value) {depth n : Nat}, OrderedItems items →
    (∀ item ∈ items, (write depth item).complete = true ∧ (write depth item).bytes.length ≤ n) →
      LimitedItems n n items
  | [], _, _, _, _ => by simp only [LimitedItems]
  | item :: items, _, _, hordered, h => by
    obtain ⟨hitem, hitems⟩ := List.forall_mem_cons.1 h
    rw [OrderedItems] at hordered
    simp only [LimitedItems]
    exact ⟨limited_of_length item hordered.1 hitem.1 hitem.2,
      limitedItems_of_length items hordered.2 hitems⟩

theorem limitedPairs_of_length : ∀ (pairs : List (Value × Value)) {depth n : Nat},
    OrderedPairs pairs →
    (∀ q ∈ pairs, ((write depth q.1).complete = true ∧ (write depth q.1).bytes.length ≤ n) ∧
      (write depth q.2).complete = true ∧ (write depth q.2).bytes.length ≤ n) →
      LimitedPairs n n pairs
  | [], _, _, _, _ => by simp only [LimitedPairs]
  | (key, value) :: pairs, _, _, hordered, h => by
    obtain ⟨⟨hkey, hvalue⟩, hpairs⟩ := List.forall_mem_cons.1 h
    rw [OrderedPairs] at hordered
    simp only [LimitedPairs]
    exact ⟨⟨limited_of_length key hordered.1.1 hkey.1 hkey.2,
        limited_of_length value hordered.1.2 hvalue.1 hvalue.2⟩,
      limitedPairs_of_length pairs hordered.2 hpairs⟩
end

/-- Behind the initial byte the reader goes on by its major type. -/
theorem yields_readValue {levels major argument : Nat} (hmajor : major < 8)
    (hlt : argument < Bytes.capacity 8) {content : Bytes} {v : Value}
    (h : ∀ (info : Nat) (tail : Bytes), Reads (readArgument info) tail argument →
      Yields p (match major with
        | 0 => do fitInteger (← readArgument info)
        | 1 => do fitInteger (-1 - (← readArgument info))
        | 2 => return .bytes (← readString info)
        | 3 => do
          match Utf8.decode? (← readString info) with
          | some s => return .text s
          | none => throw .invalidUtf8
        | 4 => return .array (← (readValue levels).times (← readLength info maxItems))
        | 5 => return .map (← readPairs (readValue levels) (← readLength info maxItems) none)
        | 6 => throw (.unsupported .tagged)
        | _ => readSimple info) (tail ++ content) v) :
    Yields p (readValue (levels + 1)) (head major argument ++ content) v := by
  obtain ⟨initial, tail, hhead, hinitial, harg⟩ := head_eq hmajor hlt
  intro rest
  rw [hhead, List.cons_append, List.cons_append, readValue, exec_bind_ok (exec_readByte _ _),
    hinitial]
  exact h _ tail harg rest

section

variable {depth : Nat} (hdepth : depth ≤ maxDepth) {form : Value → Bytes}

include hdepth

theorem yields_array {items : List Value} (hp : p → items.length ≤ maxItems)
    (hcount : items.length < Bytes.capacity 8)
    (hitems : ∀ item ∈ items, Yields p (readValue (maxDepth + 1 - (depth + 1))) (form item) item) :
    Yields p (readValue (maxDepth + 1 - depth))
      (head 4 items.length ++ (items.map form).flatten) (.array items) := by
  rw [Nat.succ_sub hdepth]
  refine yields_readValue (by decide) hcount fun info tail harg => ?_
  rw [Nat.add_sub_add_right] at hitems
  refine (yields_readLength harg hp).bind ((Yields.times ?_).map _)
  exact List.forall₂_map_right_iff.2 (List.forall₂_same.2 hitems)

theorem yields_map {pairs : List (Value × Value)} (hp : p → pairs.length ≤ maxItems)
    (hcount : pairs.length < Bytes.capacity 8)
    (hasc : pairs.Pairwise fun a b => Bytes.shortlex (form a.1) (form b.1) = .lt)
    (hpairs : ∀ q ∈ pairs, Yields p (readValue (maxDepth + 1 - (depth + 1))) (form q.1) q.1 ∧
      Yields p (readValue (maxDepth + 1 - (depth + 1))) (form q.2) q.2) :
    Yields p (readValue (maxDepth + 1 - depth))
      (head 5 pairs.length ++ (pairs.map fun q => form q.1 ++ form q.2).flatten) (.map pairs) := by
  rw [Nat.succ_sub hdepth]
  refine yields_readValue (by decide) hcount fun info tail harg => ?_
  rw [Nat.add_sub_add_right] at hpairs
  exact (yields_readLength harg hp).bind ((yields_readPairs hpairs hasc fun _ _ => rfl).map _)

end

mutual
/-- **A canonical value** is read back from what is written of it. -/
theorem yields_write : ∀ (v : Value) {depth : Nat}, v.Canonical →
    v.Limited maxArgument maxArgument → (write depth v).complete = true → (p → v.Within) →
      Yields p (readValue (maxDepth + 1 - depth)) (write depth v).bytes v
  | .null, depth, _, _, h, _ => by
    have hdepth := depth_le_of_complete h
    rw [Nat.succ_sub hdepth, write_null hdepth]
    exact fun rest => .inl rfl
  | .bool b, depth, _, _, h, _ => by
    have hdepth := depth_le_of_complete h
    rw [Nat.succ_sub hdepth, write_bool hdepth]
    cases b <;> exact fun rest => .inl rfl
  | .integer n, depth, _, _, h, _ => by
    have hdepth := depth_le_of_complete h
    have hfit := fitInteger_toInt n
    have hmin : -2 ^ 63 ≤ n.toInt := n.le_toInt
    have hmax : n.toInt < 2 ^ 63 := n.toInt_lt
    have hcapacity : Bytes.capacity 8 = 2 ^ 64 := rfl
    rw [Nat.succ_sub hdepth, write_integer hdepth, Written.bytes_piece, integerBytes]
    split
    · next m hm =>
      have hm : n.toInt = (m : Int) := hm
      rw [hm] at hfit hmax
      rw [← List.append_nil (head 0 m)]
      refine yields_readValue (by decide) (by omega) fun info tail harg => ?_
      rw [List.append_nil]
      exact (harg.yields p).bind_pure hfit
    · next m hm =>
      have hneg : -1 - (m : Int) = Int.negSucc m := by omega
      rw [hm] at hmin
      rw [hm, ← hneg] at hfit
      rw [← List.append_nil (head 1 m)]
      refine yields_readValue (by decide) (by omega) fun info tail harg => ?_
      rw [List.append_nil]
      exact (harg.yields p).bind_pure hfit
  | .bytes content, depth, _, hlimited, h, hp => by
    have hdepth := depth_le_of_complete h
    simp only [Limited] at hlimited
    simp only [Within, Limited] at hp
    rw [write_bytes hdepth, Written.bytes_piece, Nat.succ_sub hdepth]
    refine yields_readValue (by decide) (lt_of_le_maxArgument hlimited) fun info tail harg => ?_
    exact (yields_readString harg hp).map _
  | .text s, depth, _, hlimited, h, hp => by
    have hdepth := depth_le_of_complete h
    simp only [Limited] at hlimited
    simp only [Within, Limited] at hp
    rw [write_text hdepth, Written.bytes_piece, Nat.succ_sub hdepth]
    refine yields_readValue (by decide) (lt_of_le_maxArgument hlimited) fun info tail harg => ?_
    refine (yields_readString harg hp).bind_pure ?_
    rw [Utf8.decode?_encode]
  | .array items, depth, hcanon, hlimited, h, hp => by
    have hcomplete := complete_array h
    rw [writeItems_eq_map, List.forall_mem_map] at hcomplete
    rw [Canonical] at hcanon
    simp only [Limited] at hlimited
    simp only [Within, Limited] at hp
    rw [bytes_write_array h]
    exact yields_array (depth_le_of_complete h) (fun hp' => (hp hp').1)
      (lt_of_le_maxArgument hlimited.1)
      (yields_writeItems items hcanon hlimited.2 hcomplete fun hp' => (hp hp').2)
  | .map pairs, depth, hcanon, hlimited, h, hp => by
    have hcomplete := complete_map h
    rw [writePairs_eq_map, List.forall_mem_map] at hcomplete
    rw [Canonical] at hcanon
    obtain ⟨hcanon, hasc⟩ := hcanon
    simp only [Limited] at hlimited
    simp only [Within, Limited] at hp
    rw [bytes_write_map h (isLE_of_ascending hasc)]
    refine @yields_map p depth (depth_le_of_complete h) (fun v => (write (depth + 1) v).bytes) pairs
      (fun hp' => (hp hp').1) (lt_of_le_maxArgument hlimited.1) ?_
      (yields_writePairs pairs hcanon hlimited.2 hcomplete fun hp' => (hp hp').2)
    refine hasc.imp_of_mem fun {a b} ha hb hlt => ?_
    rwa [orderBytes_eq (hcomplete a ha).1, orderBytes_eq (hcomplete b hb).1] at hlt

theorem yields_writeItems : ∀ (items : List Value) {depth : Nat}, CanonicalItems items →
    LimitedItems maxArgument maxArgument items →
    (∀ item ∈ items, (write depth item).complete = true) →
    (p → LimitedItems maxStringBytes maxItems items) →
      ∀ item ∈ items, Yields p (readValue (maxDepth + 1 - depth)) (write depth item).bytes item
  | [], _, _, _, _, _ => fun _ h => (by cases h)
  | item :: items, depth, hcanon, hlimited, h, hp => by
    obtain ⟨hitem, hitems⟩ := List.forall_mem_cons.1 h
    rw [CanonicalItems] at hcanon
    simp only [LimitedItems] at hlimited hp
    refine List.forall_mem_cons.2 ⟨?_, ?_⟩
    · exact yields_write item hcanon.1 hlimited.1 hitem fun hp' => (hp hp').1
    · exact yields_writeItems items hcanon.2 hlimited.2 hitems fun hp' => (hp hp').2

theorem yields_writePairs : ∀ (pairs : List (Value × Value)) {depth : Nat},
    CanonicalPairs pairs → LimitedPairs maxArgument maxArgument pairs →
    (∀ q ∈ pairs, (write depth q.1).complete = true ∧ (write depth q.2).complete = true) →
    (p → LimitedPairs maxStringBytes maxItems pairs) → ∀ q ∈ pairs,
      Yields p (readValue (maxDepth + 1 - depth)) (write depth q.1).bytes q.1 ∧
        Yields p (readValue (maxDepth + 1 - depth)) (write depth q.2).bytes q.2
  | [], _, _, _, _, _ => fun _ h => (by cases h)
  | (key, value) :: pairs, depth, hcanon, hlimited, h, hp => by
    obtain ⟨⟨hkey, hvalue⟩, hpairs⟩ := List.forall_mem_cons.1 h
    rw [CanonicalPairs] at hcanon
    simp only [LimitedPairs] at hlimited hp
    refine List.forall_mem_cons.2 ⟨⟨?_, ?_⟩, ?_⟩
    · exact yields_write key hcanon.1.1 hlimited.1.1 hkey fun hp' => (hp hp').1.1
    · exact yields_write value hcanon.1.2 hlimited.1.2 hvalue fun hp' => (hp hp').1.2
    · exact yields_writePairs pairs hcanon.2 hlimited.2 hpairs fun hp' => (hp hp').2
end

theorem encode_eq_ok_iff {v : Value} {form : Bytes} :
    v.encode = .ok form ↔ (write 0 v).complete = true ∧ (write 0 v).bytes = form := by
  simp only [encode]
  split
  · next h => simp [h]
  · next h => simp [h]

/-- **An encoding** yields its value. -/
theorem yields_read {v : Value} {form : Bytes} (hcanon : v.Canonical)
    (hlimited : v.Limited maxArgument maxArgument) (hform : v.encode = .ok form)
    (hp : p → v.Within) : Yields p read form v := by
  obtain ⟨hcomplete, rfl⟩ := encode_eq_ok_iff.1 hform
  exact yields_write v hcanon hlimited hcomplete hp

/-- If an encoding decodes, it decodes to what was encoded. -/
theorem eq_of_decode_encode {v w : Value} {form : Bytes} (hcanon : v.Canonical)
    (hform : v.encode = .ok form) (hlen : form.length < Bytes.capacity 8)
    (h : decode form = .ok w) : w = v := by
  obtain ⟨hcomplete, hbytes⟩ := encode_eq_ok_iff.1 hform
  have hlimited : v.Limited maxArgument maxArgument :=
    limited_of_length v hcanon.ordered hcomplete (Nat.le_sub_one_of_lt (hbytes ▸ hlen))
  have hread : Yields False read form v := yields_read hcanon hlimited hform fun h => h.elim
  rcases hread [] with hread | ⟨-, e, left, hread⟩ <;> rw [List.append_nil] at hread <;>
    rw [decode, hread] at h <;> cases h
  rfl

/-- **Within the limits** an encoding is read back in front of any rest. -/
theorem reads_encode {v : Value} {form : Bytes} (hcanon : v.Canonical) (hwithin : v.Within)
    (hform : v.encode = .ok form) : Reads read form v := by
  have hread : Yields True read form v := yields_read hcanon hwithin.limited hform fun _ => hwithin
  exact hread.reads trivial

/-- **Within the limits** an encoding decodes. -/
theorem decode_encode {v : Value} {form : Bytes} (hcanon : v.Canonical) (hwithin : v.Within)
    (hform : v.encode = .ok form) : decode form = .ok v := by
  rw [decode, (reads_encode hcanon hwithin hform).exec_form]

end Rollup.Value
