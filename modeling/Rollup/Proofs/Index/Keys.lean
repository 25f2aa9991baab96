import Rollup.Index.EntryTable
import Rollup.Proofs.Bytes
import Mathlib.Logic.Function.Basic

/-!
# Keys — stored numbers, and the names of trees

Etags and hashes are stored in eight bytes each, which only they decode to (`word?_eq_ok_iff`) and
which are ordered as they are (`Etag.compare_encode`).  A function of them is one of their stored
forms (`cellsOf`).  A `Site` is one of the trees of an index;
different sites are different trees (`Site.tree_inj`).
-/

namespace Rollup

/-! ### Stored numbers -/

@[simp] theorem length_wordBytes (n : UInt64) : (wordBytes n).length = 8 :=
  Bytes.length_bigEndian 8 _

theorem toNat_lt_capacity (n : UInt64) : n.toNat < Bytes.capacity 8 := n.toNat_lt

theorem word?_eq_ok_iff {stored : Bytes} {n : UInt64} :
    word? stored = .ok n ↔ stored = wordBytes n := by
  rw [word?]
  constructor
  · intro h
    split at h
    · next hlen =>
      cases h
      have hlt := Bytes.ofBigEndian_lt stored
      rw [hlen, show Bytes.capacity 8 = 2 ^ 64 from rfl] at hlt
      have hword : (Bytes.ofBigEndian stored).toUInt64.toNat = Bytes.ofBigEndian stored := by
        simpa using hlt
      rw [wordBytes, hword, ← hlen, Bytes.bigEndian_ofBigEndian]
    · cases h
  · rintro rfl
    rw [if_pos (length_wordBytes n), wordBytes, Bytes.ofBigEndian_bigEndian (toNat_lt_capacity n)]
    exact congrArg Except.ok UInt64.ofNat_toNat

theorem wordBytes_inj {m n : UInt64} : wordBytes m = wordBytes n ↔ m = n := by
  refine ⟨fun h => UInt64.toNat_inj.1 ?_, congrArg _⟩
  exact Bytes.bigEndian_inj (toNat_lt_capacity m) (toNat_lt_capacity n) h

theorem compare_wordBytes (m n : UInt64) :
    compare (wordBytes m) (wordBytes n) = compare m.toNat n.toNat :=
  Bytes.compare_bigEndian (toNat_lt_capacity m) (toNat_lt_capacity n)

namespace Etag

@[simp] theorem length_encode (e : Etag) : e.encode.length = 8 := length_wordBytes e.val

theorem encode_inj {e f : Etag} : e.encode = f.encode ↔ e = f := by
  rw [encode, encode, wordBytes_inj]
  exact ⟨fun h => by cases e; cases f; exact congrArg mk h, congrArg val⟩

theorem decode_eq_ok_iff (stored : Bytes) (e : Etag) :
    decode stored = .ok e ↔ stored = e.encode := by
  rw [decode, encode, ← word?_eq_ok_iff]
  cases word? stored with
  | error => exact ⟨fun h => (by cases h), fun h => (by cases h)⟩
  | ok n => exact ⟨fun h => by cases h; rfl, fun h => by cases h; rfl⟩

@[simp] theorem decode_encode (e : Etag) : decode e.encode = .ok e :=
  (decode_eq_ok_iff _ _).2 rfl

theorem compare_encode (e f : Etag) : compare e.encode f.encode = compare e.toNat f.toNat :=
  compare_wordBytes e.val f.val

theorem toNat_inj {e f : Etag} : e.toNat = f.toNat ↔ e = f := by
  rw [toNat, toNat, UInt64.toNat_inj]
  exact ⟨fun h => by cases e; cases f; exact congrArg mk h, congrArg val⟩

theorem le_max_right (e f : Etag) : f.toNat ≤ (e.max f).toNat := by
  rw [max]
  split
  · exact Nat.le_refl _
  · next h => exact Nat.not_lt.1 h

theorem max_eq_right {e f : Etag} (h : e.toNat ≤ f.toNat) : e.max f = f := by
  rw [max]
  split
  · rfl
  · next hle => exact toNat_inj.1 (Nat.le_antisymm h (Nat.not_lt.1 hle))

/-- The etag given out next is greater by one. -/
theorem toNat_of_next? {e f : Etag} (h : e.next? = some f) : f.toNat = e.toNat + 1 := by
  rw [next?] at h
  split at h
  · cases h
  · next hne =>
    cases h
    have hlt : e.val.toNat + 1 < 2 ^ 64 := by
      have hmax : e.val.toNat ≠ 2 ^ 64 - 1 := fun h => hne (UInt64.toNat_inj.1 h)
      have := e.val.toNat_lt
      omega
    rw [toNat, toNat, UInt64.toNat_add, UInt64.toNat_one, Nat.mod_eq_of_lt hlt]

end Etag

namespace GroupHash

@[simp] theorem length_encode (h : GroupHash) : h.encode.length = 8 := length_wordBytes h.val

theorem encode_inj {h k : GroupHash} : h.encode = k.encode ↔ h = k := by
  rw [encode, encode, wordBytes_inj]
  exact ⟨fun e => by cases h; cases k; exact congrArg mk e, congrArg val⟩

theorem decode_eq_ok_iff (stored : Bytes) (h : GroupHash) :
    decode stored = .ok h ↔ stored = h.encode := by
  rw [decode, encode, ← word?_eq_ok_iff]
  cases word? stored with
  | error => exact ⟨fun e => (by cases e), fun e => (by cases e)⟩
  | ok n => exact ⟨fun e => by cases e; rfl, fun e => by cases e; rfl⟩

@[simp] theorem decode_encode (h : GroupHash) : decode h.encode = .ok h :=
  (decode_eq_ok_iff _ _).2 rfl

end GroupHash

/-! ### Cells -/

/-- What the cells of a tree hold, if it has this content under the keys that decode. -/
def cellsOf {κ ε α : Type} (decode : Bytes → Except ε κ) (content : κ → Option α)
    (stored : Bytes) : Option α :=
  (decode stored).toOption.bind content

section

variable {κ ε α : Type} {decode : Bytes → Except ε κ} {encode : κ → Bytes}
  {content : κ → Option α}

theorem cellsOf_encode (h : ∀ stored x, decode stored = .ok x ↔ stored = encode x) (x : κ) :
    cellsOf decode content (encode x) = content x := by
  rw [cellsOf, (h _ x).2 rfl]
  rfl

theorem cellsOf_eq_some_iff (h : ∀ stored x, decode stored = .ok x ↔ stored = encode x)
    {stored : Bytes} {a : α} :
    cellsOf decode content stored = some a ↔ ∃ x, stored = encode x ∧ content x = some a := by
  constructor
  · intro hs
    rw [cellsOf] at hs
    cases hdecode : decode stored with
    | error => rw [hdecode] at hs; cases hs
    | ok x =>
        rw [hdecode] at hs
        exact ⟨x, (h _ _).1 hdecode, hs⟩
  · rintro ⟨x, rfl, hx⟩
    rw [cellsOf_encode h, hx]

theorem cellsOf_update [DecidableEq κ] (h : ∀ stored x, decode stored = .ok x ↔ stored = encode x)
    (x : κ) (a : Option α) (stored : Bytes) :
    cellsOf decode (Function.update content x a) stored =
      if stored = encode x then a else cellsOf decode content stored := by
  split
  · next e => rw [e, cellsOf_encode h, Function.update_self]
  · next hne =>
    rw [cellsOf, cellsOf]
    cases hdecode : decode stored with
    | error => rfl
    | ok y =>
        have hy : y ≠ x := fun e => hne (e ▸ (h _ _).1 hdecode)
        exact Function.update_of_ne hy ..

theorem cellsOf_eq_none_iff (h : ∀ stored x, decode stored = .ok x ↔ stored = encode x) :
    (∀ stored, cellsOf decode content stored = none) ↔ ∀ x, content x = none := by
  constructor
  · intro hall x
    rw [← hall (encode x), cellsOf_encode h]
  · intro hall stored
    refine Option.eq_none_iff_forall_ne_some.2 fun a ha => ?_
    obtain ⟨x, -, hx⟩ := (cellsOf_eq_some_iff h).1 ha
    rw [hall x] at hx
    cases hx

end

/-! ### Hexadecimal text -/

theorem Bytes.hexDigit_inj {m n : Nat} (hm : m < 16) (hn : n < 16)
    (h : hexDigit m = hexDigit n) : m = n := by
  have hall : ∀ i j : Fin 16, hexDigit i = hexDigit j → i = j := by decide
  exact congrArg Fin.val (hall ⟨m, hm⟩ ⟨n, hn⟩ h)

theorem Bytes.toHex_inj {a b : Bytes} (h : a.toHex = b.toHex) : a = b := by
  replace h := String.ofList_injective h
  induction a generalizing b with
  | nil =>
      cases b with
      | nil => rfl
      | cons y b => cases h
  | cons x a ih =>
      cases b with
      | nil => cases h
      | cons y b =>
          simp only [List.flatMap_cons, List.cons_append, List.nil_append, List.cons.injEq] at h
          obtain ⟨hhigh, hlow, hrest⟩ := h
          have hx := x.toNat_lt
          have hy := y.toNat_lt
          have hhigh := hexDigit_inj (by omega) (by omega) hhigh
          have hlow := hexDigit_inj (by omega) (by omega) hlow
          rw [ih hrest, UInt8.toNat_inj.1 (by omega : x.toNat = y.toNat)]

theorem GroupHash.text_inj {h k : GroupHash} : h.text = k.text ↔ h = k :=
  ⟨fun e => GroupHash.encode_inj.1 (Bytes.toHex_inj e), congrArg _⟩

/-! ### Trees -/

/-- One of the trees of an index. -/
inductive Site where
  | settings
  | entries
  | documents
  | hashes
  | groupKeys
  | bucket (hash : GroupHash)
deriving DecidableEq

namespace Site

/-- What the name of the tree ends in, behind that of the index. -/
def suffix : Site → String
  | settings => "/meta"
  | entries => "/MapResults"
  | documents => "/MapResults/DocumentKeys"
  | hashes => "/MapResults/ReduceKeyHashes"
  | groupKeys => "/ReduceKeys"
  | bucket hash => "/reduce/" ++ hash.text

def tree (index : String) (site : Site) : String := index ++ site.suffix

theorem suffix_bucket_take (hash : GroupHash) :
    (bucket hash).suffix.toList.take 2 = ['/', 'r'] := by
  rw [suffix, String.toList_append]
  rfl

theorem suffix_inj {a b : Site} (h : a.suffix = b.suffix) : a = b := by
  have hbucket : ∀ {hash : GroupHash} {site : Site}, (bucket hash).suffix = site.suffix →
      site.suffix.toList.take 2 = ['/', 'r'] := fun h => h ▸ suffix_bucket_take _
  cases a <;> cases b <;> first
    | rfl
    | exact absurd h (by decide)
    | exact absurd (hbucket h) (by decide)
    | exact absurd (hbucket h.symm) (by decide)
    | exact congrArg bucket (GroupHash.text_inj.1 ((String.append_right_inj _).1 h))

/-- **Different sites are different trees.** -/
theorem tree_inj {index : String} {a b : Site} : a.tree index = b.tree index ↔ a = b :=
  ⟨fun h => suffix_inj ((String.append_right_inj _).1 h), congrArg _⟩

/-- The three trees of the map entry table. -/
def InTable (site : Site) : Prop := site = entries ∨ site = documents ∨ site = hashes

theorem not_inTable_settings : ¬ settings.InTable := by simp [InTable]

theorem not_inTable_groupKeys : ¬ groupKeys.InTable := by simp [InTable]

theorem not_inTable_bucket (hash : GroupHash) : ¬ (bucket hash).InTable := by simp [InTable]

theorem tree_settings (index : String) : settings.tree index = metaTree index := rfl

theorem tree_entries (index : String) : entries.tree index = entryTable index := rfl

theorem tree_groupKeys (index : String) : groupKeys.tree index = groupKeyTree index := rfl

theorem tree_bucket (index : String) (hash : GroupHash) :
    (bucket hash).tree index = bucketTree index hash := by
  rw [tree, suffix, bucketTree, bucketTreeStart, String.append_assoc]

end Site

end Rollup
