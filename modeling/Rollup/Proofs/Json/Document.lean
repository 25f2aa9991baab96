import Rollup.Json.Document
import Rollup.Json.Parser
import Rollup.Proofs.Except
import Rollup.Proofs.OrderedMap
import Rollup.Proofs.Value.Canonical

/-!
# Documents as JSON — each has one form as the other

An object of JSON lists its members by ascending name, and a canonical map its pairs in the order of
their encodings, where a shorter name comes first.  Both orders are strict, so each has one list for
the same members (`ofMembers_of_perm`, `Value.ofPairs_of_perm`), and going to one order and back to
the other finds the list again.  JSON that is parsed or made of a value is *proper*: all its objects
are in order (`proper_of_parse`, `proper_ofValue`).

**Correspondence** (`document_correspondence`).  JSON has a value just if all its numbers are
integers of 64 bits; proper JSON is found again from its value; and a value is found again from its
JSON just if it is canonical, has no byte strings and has texts as the keys of its maps.
-/

namespace Rollup

namespace Json

/-! ### Members in order -/

/-- Members by ascending name, with no name twice. -/
abbrev AscendingMembers (members : List (String × Json)) : Prop :=
  members.Pairwise fun a b => compare a.1 b.1 = .lt

theorem insertMember_eq (name : String) (value : Json) (members : List (String × Json)) :
    insertMember name value members = OrderedMap.insertEntry name value members := by
  induction members with
  | nil => rfl
  | cons member members ih =>
      rw [insertMember, OrderedMap.insertEntry]
      cases compare name member.1 with
      | lt => rfl
      | eq => rfl
      | gt => exact congrArg (member :: ·) ih

theorem insertMember_perm {name : String} {members : List (String × Json)}
    (h : name ∉ members.map (·.1)) (value : Json) :
    (insertMember name value members).Perm ((name, value) :: members) := by
  induction members with
  | nil => exact .refl _
  | cons member members ih =>
      rw [List.map_cons, List.mem_cons, not_or] at h
      rw [insertMember]
      split
      · exact .refl _
      · next heq => exact absurd (Std.LawfulEqCmp.eq_of_compare heq) h.1
      · exact ((ih h.2).cons member).trans (.swap ..)

/-- The members sorted so far, with others put in their places. -/
def enterAll (sorted members : List (String × Json)) : List (String × Json) :=
  members.foldl (fun sorted member => insertMember member.1 member.2 sorted) sorted

theorem enterAll_cons (sorted : List (String × Json)) (member : String × Json)
    (members : List (String × Json)) : enterAll sorted (member :: members) =
      enterAll (insertMember member.1 member.2 sorted) members := rfl

theorem ascending_enterAll {sorted : List (String × Json)} (h : AscendingMembers sorted)
    (members : List (String × Json)) : AscendingMembers (enterAll sorted members) := by
  induction members generalizing sorted with
  | nil => exact h
  | cons member members ih =>
      rw [enterAll_cons]
      refine ih ?_
      rw [insertMember_eq]
      exact OrderedMap.insertEntry_ascending member.1 member.2 h

theorem mem_of_mem_enterAll {sorted members : List (String × Json)} {m : String × Json}
    (h : m ∈ enterAll sorted members) : m ∈ sorted ∨ m ∈ members := by
  induction members generalizing sorted with
  | nil => exact .inl h
  | cons member members ih =>
      rw [enterAll_cons] at h
      rcases ih h with h | h
      · rw [insertMember_eq] at h
        rcases OrderedMap.mem_insertEntry h with rfl | h
        · exact .inr List.mem_cons_self
        · exact .inl h
      · exact .inr (List.mem_cons_of_mem _ h)

theorem enterAll_perm {sorted members : List (String × Json)}
    (h : ((sorted ++ members).map (·.1)).Nodup) :
    (enterAll sorted members).Perm (sorted ++ members) := by
  induction members generalizing sorted with
  | nil => rw [List.append_nil]; exact .refl _
  | cons member members ih =>
      have hperm : (((member :: sorted) ++ members).map (·.1)).Perm
          ((sorted ++ member :: members).map (·.1)) := List.perm_middle.symm.map _
      have hnodup := hperm.nodup_iff.2 h
      have hfresh : member.1 ∉ sorted.map (·.1) := fun hmem => by
        obtain ⟨m, hm, hname⟩ := List.mem_map.1 hmem
        exact (List.nodup_cons.1 hnodup).1 (List.mem_map.2 ⟨m, List.mem_append_left _ hm, hname⟩)
      have hinsert := insertMember_perm hfresh member.2
      have hnodup' := ((hinsert.append_right members).map (·.1)).nodup_iff.2 hnodup
      rw [enterAll_cons]
      exact (ih hnodup').trans ((hinsert.append_right members).trans List.perm_middle.symm)

theorem nodup_of_ascending {members : List (String × Json)} (h : AscendingMembers members) :
    (members.map (·.1)).Nodup :=
  List.pairwise_map.2 (h.imp fun hlt e => by simp [e] at hlt)

/-- **Members by ascending name** are what the object lists, however they are shuffled. -/
theorem ofMembers_of_perm {members sorted : List (String × Json)} (hperm : sorted.Perm members)
    (hasc : AscendingMembers sorted) : ofMembers members = .object sorted := by
  have hnodup := (hperm.map (·.1)).nodup_iff.1 (nodup_of_ascending hasc)
  have hentered : (enterAll [] members).Perm members := enterAll_perm hnodup
  refine congrArg Json.object (OrderedMap.eq_of_ascending (f := Prod.fst)
    (ascending_enterAll .nil members) hasc fun m => ?_)
  exact (hentered.trans hperm.symm).mem_iff

/-- Members with different names are all listed. -/
theorem ofMembers_of_nodup {members : List (String × Json)} (h : (members.map (·.1)).Nodup) :
    ∃ sorted, ofMembers members = .object sorted ∧ sorted.Perm members :=
  ⟨enterAll [] members, rfl, enterAll_perm h⟩

/-! ### Proper JSON -/

mutual
/-- All objects list their members by ascending name, with no name twice. -/
def Proper : Json → Prop
  | .array items => ProperItems items
  | .object members => AscendingMembers members ∧ ProperMembers members
  | _ => True

def ProperItems : List Json → Prop
  | [] => True
  | item :: items => Proper item ∧ ProperItems items

def ProperMembers : List (String × Json) → Prop
  | [] => True
  | (_, value) :: members => Proper value ∧ ProperMembers members
end

theorem properItems_iff {items : List Json} : ProperItems items ↔ ∀ item ∈ items, item.Proper := by
  induction items with
  | nil => simp [ProperItems]
  | cons item items ih => simp [ProperItems, ih]

theorem properMembers_iff {members : List (String × Json)} :
    ProperMembers members ↔ ∀ m ∈ members, m.2.Proper := by
  induction members with
  | nil => simp [ProperMembers]
  | cons member members ih => simp only [ProperMembers, ih, List.forall_mem_cons]

theorem proper_ofMembers {members : List (String × Json)} (h : ∀ m ∈ members, m.2.Proper) :
    (ofMembers members).Proper := by
  show (Json.object (enterAll [] members)).Proper
  rw [Proper, properMembers_iff]
  refine ⟨ascending_enterAll .nil members, fun m hm => h m ?_⟩
  exact (mem_of_mem_enterAll hm).resolve_left List.not_mem_nil

theorem itemsOf_eq_map (items : List Value) : itemsOf items = items.map ofValue := by
  induction items with
  | nil => rfl
  | cons item items ih => rw [itemsOf, ih, List.map_cons]

theorem membersOf_eq_map (pairs : List (Value × Value)) :
    membersOf pairs = pairs.map fun q => (nameOf q.1, ofValue q.2) := by
  induction pairs with
  | nil => rfl
  | cons q pairs ih => rw [membersOf, ih, List.map_cons]

mutual
/-- **What is made of a value** is proper. -/
theorem proper_ofValue : ∀ v : Value, (ofValue v).Proper
  | .null | .bool _ | .integer _ | .text _ => by simp only [ofValue, Proper]
  | .bytes content => by
    rw [ofValue, Proper, properItems_iff, List.forall_mem_map]
    exact fun b _ => by simp only [Proper]
  | .array items => by
    rw [ofValue, Proper, properItems_iff, itemsOf_eq_map, List.forall_mem_map]
    exact proper_itemsOf items
  | .map pairs => by
    rw [ofValue]
    refine proper_ofMembers ?_
    rw [membersOf_eq_map, List.forall_mem_map]
    exact proper_membersOf pairs

theorem proper_itemsOf : ∀ (items : List Value), ∀ item ∈ items, (ofValue item).Proper
  | [] => List.forall_mem_nil _
  | item :: items => List.forall_mem_cons.2 ⟨proper_ofValue item, proper_itemsOf items⟩

theorem proper_membersOf : ∀ (pairs : List (Value × Value)), ∀ q ∈ pairs, (ofValue q.2).Proper
  | [] => List.forall_mem_nil _
  | (_, value) :: pairs => List.forall_mem_cons.2 ⟨proper_ofValue value, proper_membersOf pairs⟩
end

end Json

namespace JsonTree

mutual
/-- The data of a tree is proper, whatever names its members repeat. -/
theorem proper_toJson? : ∀ (tree : JsonTree) {depth : Nat} {j : Json},
    tree.toJson? depth = some j → j.Proper
  | .null, _, _, h => by
    cases h
    simp only [Json.Proper]
  | .bool _, _, _, h => by
    cases h
    simp only [Json.Proper]
  | .number n, _, _, h => by
    obtain ⟨_, -, rfl⟩ := Option.map_eq_some_iff.1 h
    simp only [Json.Proper]
  | .string s, _, _, h => by
    obtain ⟨_, -, rfl⟩ := Option.map_eq_some_iff.1 h
    simp only [Json.Proper]
  | .array items, _, _, h => by
    rw [toJson?] at h
    split at h
    · obtain ⟨list, hlist, rfl⟩ := Option.map_eq_some_iff.1 h
      rw [Json.Proper, Json.properItems_iff]
      exact proper_itemsJson? items hlist
    · cases h
  | .object members, _, _, h => by
    rw [toJson?] at h
    split at h
    · obtain ⟨list, hlist, rfl⟩ := Option.map_eq_some_iff.1 h
      exact Json.proper_ofMembers (proper_membersJson? members hlist)
    · cases h

theorem proper_itemsJson? : ∀ (items : List JsonTree) {depth : Nat} {list : List Json},
    itemsJson? depth items = some list → ∀ j ∈ list, j.Proper
  | [], _, _, h => by
    cases h
    exact List.forall_mem_nil _
  | item :: items, _, _, h => by
    obtain ⟨j, hj, h⟩ := Option.bind_eq_some_iff.1 h
    obtain ⟨list, hlist, h⟩ := Option.bind_eq_some_iff.1 h
    cases h
    exact List.forall_mem_cons.2 ⟨proper_toJson? item hj, proper_itemsJson? items hlist⟩

theorem proper_membersJson? : ∀ (members : List (Option String × JsonTree)) {depth : Nat}
    {list : List (String × Json)}, membersJson? depth members = some list → ∀ m ∈ list, m.2.Proper
  | [], _, _, h => by
    cases h
    exact List.forall_mem_nil _
  | (name, value) :: members, _, _, h => by
    obtain ⟨_, -, h⟩ := Option.bind_eq_some_iff.1 h
    obtain ⟨j, hj, h⟩ := Option.bind_eq_some_iff.1 h
    obtain ⟨list, hlist, h⟩ := Option.bind_eq_some_iff.1 h
    cases h
    exact List.forall_mem_cons.2 ⟨proper_toJson? value hj, proper_membersJson? members hlist⟩
end

end JsonTree

namespace Json

/-- **What is parsed** is proper. -/
theorem proper_of_parse {text : String} {j : Json} (h : Json.parse text = some j) : j.Proper := by
  obtain ⟨tree, -, h⟩ := Option.bind_eq_some_iff.1 h
  exact tree.proper_toJson? h

/-! ### Numbers -/

mutual
/-- The numbers in JSON data, from the left to the right. -/
def numbers : Json → List JsonNumber
  | .number n => [n]
  | .array items => itemNumbers items
  | .object members => memberNumbers members
  | _ => []

def itemNumbers : List Json → List JsonNumber
  | [] => []
  | item :: items => numbers item ++ itemNumbers items

def memberNumbers : List (String × Json) → List JsonNumber
  | [] => []
  | (_, value) :: members => numbers value ++ memberNumbers members
end

/-- What the value of a number is refused with, if it is. -/
def numberError? (n : JsonNumber) : Option NumberError := error? n.toValue

mutual
/-- **JSON is refused** with what its first number is refused with that has no value. -/
theorem error?_toValue : ∀ j : Json, error? j.toValue = j.numbers.findSome? numberError?
  | .null | .bool _ | .string _ => by
    simp only [toValue, numbers]
    rfl
  | .number n => by
    rw [toValue, numbers, List.findSome?_singleton, numberError?]
  | .array items => by
    rw [toValue, numbers, ← error?_itemValues items]
    cases itemValues items <;> rfl
  | .object members => by
    rw [toValue, numbers, ← error?_memberValues members]
    cases memberValues members <;> rfl

theorem error?_itemValues : ∀ items : List Json,
    error? (itemValues items) = (itemNumbers items).findSome? numberError?
  | [] => rfl
  | item :: items => by
    rw [itemValues, itemNumbers, List.findSome?_append, ← error?_toValue item,
      ← error?_itemValues items]
    cases toValue item <;> cases itemValues items <;> rfl

theorem error?_memberValues : ∀ members : List (String × Json),
    error? (memberValues members) = (memberNumbers members).findSome? numberError?
  | [] => rfl
  | (_, value) :: members => by
    rw [memberValues, memberNumbers, List.findSome?_append, ← error?_toValue value,
      ← error?_memberValues members]
    cases toValue value <;> cases memberValues members <;> rfl
end

/-- The number is an integer of 64 bits. -/
def IsInt64 (n : JsonNumber) : Prop := ∃ k : Int64, n = .integer k.toInt

theorem toValue_number_eq_ok_iff {n : JsonNumber} {v : Value} :
    n.toValue = .ok v ↔ ∃ k : Int64, n = .integer k.toInt ∧ v = .integer k := by
  cases n with
  | double x => simp [JsonNumber.toValue]
  | integer n =>
      rw [JsonNumber.toValue]
      constructor
      · intro h
        split at h
        · next k hk =>
          cases h
          exact ⟨k, congrArg _ (Value.int64?_eq_some_iff.1 hk).symm, rfl⟩
        · cases h
      · rintro ⟨k, hn, rfl⟩
        cases hn
        rw [Value.int64?_eq_some_iff.2 rfl]

/-- **JSON is refused** just when some number in it is no integer of 64 bits. -/
theorem toValue_isError_iff {j : Json} :
    (∃ e, j.toValue = .error e) ↔ ∃ n ∈ j.numbers, ¬ IsInt64 n := by
  have hnumber : ∀ n : JsonNumber, (∃ e, numberError? n = some e) ↔ ¬ IsInt64 n := fun n => by
    simp only [numberError?, error?_eq_some_iff, isError_iff, toValue_number_eq_ok_iff]
    exact not_congr ⟨fun ⟨_, k, hn, _⟩ => ⟨k, hn⟩, fun ⟨k, hn⟩ => ⟨_, k, hn, rfl⟩⟩
  simp only [← error?_eq_some_iff, error?_toValue, ← hnumber]
  rw [← Option.isSome_iff_exists, List.findSome?_isSome_iff]
  simp only [Option.isSome_iff_exists]

end Json

namespace Value

/-! ### Values that JSON has -/

mutual
/-- No byte strings, and texts as the keys of all maps. -/
def Textual : Value → Prop
  | .bytes _ => False
  | .array items => TextualItems items
  | .map pairs => TextualPairs pairs
  | _ => True

def TextualItems : List Value → Prop
  | [] => True
  | item :: items => Textual item ∧ TextualItems items

def TextualPairs : List (Value × Value) → Prop
  | [] => True
  | (key, value) :: pairs => (∃ s, key = .text s) ∧ Textual value ∧ TextualPairs pairs
end

theorem textualItems_iff {items : List Value} :
    TextualItems items ↔ ∀ item ∈ items, item.Textual := by
  induction items with
  | nil => simp [TextualItems]
  | cons item items ih => simp [TextualItems, ih]

theorem textualPairs_iff {pairs : List (Value × Value)} :
    TextualPairs pairs ↔ ∀ q ∈ pairs, (∃ s, q.1 = .text s) ∧ q.2.Textual := by
  induction pairs with
  | nil => simp [TextualPairs]
  | cons q pairs ih => simp only [TextualPairs, ih, List.forall_mem_cons, and_assoc]

/-- The pairs of named fields. -/
def pairsOf (fields : List (String × Value)) : List (Value × Value) :=
  fields.map fun f => (.text f.1, f.2)

/-- Pairs with texts as keys are those of named fields. -/
theorem exists_pairsOf {pairs : List (Value × Value)} (h : ∀ q ∈ pairs, ∃ s, q.1 = .text s) :
    ∃ fields, pairs = pairsOf fields := by
  induction pairs with
  | nil => exact ⟨[], rfl⟩
  | cons q pairs ih =>
      obtain ⟨⟨s, hs⟩, hrest⟩ := List.forall_mem_cons.1 h
      obtain ⟨fields, rfl⟩ := ih hrest
      refine ⟨(s, q.2) :: fields, ?_⟩
      show q :: pairsOf fields = (.text s, q.2) :: pairsOf fields
      rw [← hs]

theorem textual_object {fields : List (String × Value)} (h : ∀ f ∈ fields, f.2.Textual) :
    (object fields).Textual := by
  obtain ⟨sorted, heq, hperm⟩ := ofPairs_eq (pairsOf fields)
  rw [object, ← pairsOf, heq, Textual, textualPairs_iff]
  intro q hq
  obtain ⟨f, hf, rfl⟩ := List.mem_map.1 (hperm.mem_iff.1 hq)
  exact ⟨⟨f.1, rfl⟩, h f hf⟩

end Value

namespace Json

/-! ### From JSON and back -/

/-- A member made of a field. -/
def memberOf (field : String × Value) : String × Json := (field.1, ofValue field.2)

theorem membersOf_pairsOf (fields : List (String × Value)) :
    membersOf (Value.pairsOf fields) = fields.map memberOf := by
  rw [membersOf_eq_map, Value.pairsOf, List.map_map]
  refine List.map_congr_left fun f _ => ?_
  rw [Function.comp_apply, nameOf]
  rfl

/-- **An object** is found again from the fields that its members have become. -/
theorem ofValue_object {fields : List (String × Value)}
    (h : AscendingMembers (fields.map memberOf)) :
    ofValue (.object fields) = .object (fields.map memberOf) := by
  obtain ⟨sorted, heq, hperm⟩ := Value.ofPairs_eq (Value.pairsOf fields)
  rw [Value.object, ← Value.pairsOf, heq, ofValue]
  refine ofMembers_of_perm ?_ h
  rw [← membersOf_pairsOf, membersOf_eq_map, membersOf_eq_map]
  exact hperm.symm.map _

mutual
/-- **JSON that has a value** is found again from it; and the value is one that JSON has. -/
theorem ofValue_of_toValue : ∀ (j : Json) {v : Value}, j.Proper → j.toValue = .ok v →
    ofValue v = j ∧ v.Textual ∧ v.Canonical
  | .null, _, _, h | .bool _, _, _, h | .string _, _, _, h => by
    cases h
    simp only [ofValue, Value.Textual, Value.Canonical, and_self]
  | .number n, _, _, h => by
    obtain ⟨k, rfl, rfl⟩ := toValue_number_eq_ok_iff.1 h
    simp only [ofValue, Value.Textual, Value.Canonical, and_self]
  | .array items, _, hproper, h => by
    rw [toValue] at h
    obtain ⟨vs, hvs, h⟩ := bind_eq_ok_iff.1 h
    cases h
    rw [Proper] at hproper
    obtain ⟨hitems, hall⟩ := itemsOf_of_itemValues items hproper hvs
    rw [ofValue, hitems, Value.Textual, Value.textualItems_iff, Value.Canonical,
      Value.canonicalItems_iff]
    exact ⟨rfl, fun v hv => (hall v hv).1, fun v hv => (hall v hv).2⟩
  | .object members, _, hproper, h => by
    rw [toValue] at h
    obtain ⟨fields, hfields, h⟩ := bind_eq_ok_iff.1 h
    cases h
    rw [Proper] at hproper
    obtain ⟨hmembers, hall⟩ := membersOf_of_memberValues members hproper.2 hfields
    subst hmembers
    have hnames : (fields.map (·.1)).Nodup := by
      have hnodup := nodup_of_ascending hproper.1
      rwa [List.map_map] at hnodup
    exact ⟨ofValue_object hproper.1, Value.textual_object fun f hf => (hall f hf).1,
      Value.canonical_object hnames fun f hf => (hall f hf).2⟩

theorem itemsOf_of_itemValues : ∀ (items : List Json) {vs : List Value}, ProperItems items →
    itemValues items = .ok vs → itemsOf vs = items ∧ ∀ v ∈ vs, v.Textual ∧ v.Canonical
  | [], _, _, h => by
    cases h
    exact ⟨rfl, List.forall_mem_nil _⟩
  | item :: items, _, hproper, h => by
    rw [itemValues] at h
    obtain ⟨v, hv, h⟩ := bind_eq_ok_iff.1 h
    obtain ⟨vs, hvs, h⟩ := bind_eq_ok_iff.1 h
    cases h
    obtain ⟨hitem, hkind⟩ := ofValue_of_toValue item hproper.1 hv
    obtain ⟨hitems, hkinds⟩ := itemsOf_of_itemValues items hproper.2 hvs
    exact ⟨by rw [itemsOf, hitem, hitems], List.forall_mem_cons.2 ⟨hkind, hkinds⟩⟩

theorem membersOf_of_memberValues : ∀ (members : List (String × Json))
    {fields : List (String × Value)}, ProperMembers members → memberValues members = .ok fields →
      fields.map memberOf = members ∧ ∀ f ∈ fields, f.2.Textual ∧ f.2.Canonical
  | [], _, _, h => by
    cases h
    exact ⟨rfl, List.forall_mem_nil _⟩
  | (name, value) :: members, _, hproper, h => by
    rw [memberValues] at h
    obtain ⟨v, hv, h⟩ := bind_eq_ok_iff.1 h
    obtain ⟨fields, hfields, h⟩ := bind_eq_ok_iff.1 h
    cases h
    obtain ⟨hvalue, hkind⟩ := ofValue_of_toValue value hproper.1 hv
    obtain ⟨hmembers, hkinds⟩ := membersOf_of_memberValues members hproper.2 hfields
    exact ⟨by rw [List.map_cons, memberOf, hvalue, hmembers],
      List.forall_mem_cons.2 ⟨hkind, hkinds⟩⟩
end

/-! ### From values and back -/

/-- The field that a member becomes. -/
def fieldOf (member : String × Json) : Except NumberError (String × Value) :=
  do return (member.1, ← member.2.toValue)

theorem memberValues_eq_mapM (members : List (String × Json)) :
    memberValues members = members.mapM fieldOf := by
  induction members with
  | nil => rfl
  | cons m members ih =>
      rw [memberValues, ih, List.mapM_cons, fieldOf]
      cases m.2.toValue <;> rfl

/-- **A map** in canonical order is found again from the object that its pairs have become. -/
theorem toValue_ofValue_map {fields : List (String × Value)}
    (hasc : Value.AscendingNames (fields.map (·.1)))
    (h : ∀ f ∈ fields, (ofValue f.2).toValue = .ok f.2) :
    (ofValue (.map (Value.pairsOf fields))).toValue = .ok (.map (Value.pairsOf fields)) := by
  have hback : ∀ f ∈ fields, fieldOf (memberOf f) = .ok f := fun f hf =>
    return_pair_eq_ok_iff.2 ⟨rfl, h f hf⟩
  have hnames : (fields.map (·.1)).Nodup := List.Pairwise.imp (fun hlt e => by
    rw [e, @Std.ReflCmp.compare_self _ Bytes.shortlex] at hlt
    cases hlt) hasc
  obtain ⟨sorted, heq, hperm⟩ := @ofMembers_of_nodup (fields.map memberOf) (by rwa [List.map_map])
  obtain ⟨fields', hvalues, rfl⟩ := mapM_of_forms (f := fieldOf) (g := memberOf) fun m hm => by
    obtain ⟨f, hf, rfl⟩ := List.mem_map.1 (hperm.mem_iff.1 hm)
    exact ⟨f, rfl, hback f hf⟩
  -- the members in the order of the object become the same fields
  have hfields : fields'.Perm fields := by
    have hall : (fields.map memberOf).mapM fieldOf = .ok fields :=
      mapM_eq_ok_iff.2 (List.forall₂_map_left_iff.2 (List.forall₂_same.2 hback))
    have hnames' : ((fields'.map memberOf).map (·.1)).Nodup :=
      (hperm.map (·.1)).nodup_iff.2 (by rwa [List.map_map])
    rw [List.map_map] at hnames'
    refine (List.perm_ext_iff_of_nodup (.of_map _ hnames') (.of_map _ hnames)).2 fun f => ?_
    rw [mem_of_mapM hvalues, mem_of_mapM hall]
    exact exists_congr fun m => and_congr_left fun _ => hperm.mem_iff
  have hpairs : (Value.pairsOf fields).Perm (Value.pairsOf fields') := hfields.symm.map _
  rw [ofValue, membersOf_pairsOf, heq, toValue, memberValues_eq_mapM, hvalues]
  exact congrArg Except.ok (Value.ofPairs_of_perm hpairs
    (List.pairwise_map.2 (List.pairwise_map.1 hasc)))

mutual
/-- **A value that JSON has** is found again from it. -/
theorem toValue_ofValue : ∀ {v : Value}, v.Textual → v.Canonical → (ofValue v).toValue = .ok v
  | .null, _, _ | .bool _, _, _ | .text _, _, _ => by simp only [ofValue, toValue]
  | .integer n, _, _ => by
    rw [ofValue, toValue]
    exact toValue_number_eq_ok_iff.2 ⟨n, rfl, rfl⟩
  | .bytes _, h, _ => by
    simp only [Value.Textual] at h
  | .array items, h, hcanon => by
    rw [Value.Textual] at h
    rw [Value.Canonical] at hcanon
    rw [ofValue, toValue, itemValues_itemsOf h hcanon]
    rfl
  | .map pairs, h, hcanon => by
    rw [Value.Textual] at h
    rw [Value.Canonical] at hcanon
    have hvalues := toValue_membersOf h hcanon.1
    obtain ⟨fields, rfl⟩ :=
      Value.exists_pairsOf fun q hq => (Value.textualPairs_iff.1 h q hq).1
    refine toValue_ofValue_map ?_ (List.forall_mem_map.1 hvalues)
    exact List.pairwise_map.2 (List.pairwise_map.1 hcanon.2)

theorem itemValues_itemsOf : ∀ {items : List Value}, Value.TextualItems items →
    Value.CanonicalItems items → itemValues (itemsOf items) = .ok items
  | [], _, _ => rfl
  | item :: items, h, hcanon => by
    rw [itemsOf, itemValues, toValue_ofValue h.1 hcanon.1, itemValues_itemsOf h.2 hcanon.2]
    rfl

theorem toValue_membersOf : ∀ {pairs : List (Value × Value)}, Value.TextualPairs pairs →
    Value.CanonicalPairs pairs → ∀ q ∈ pairs, (ofValue q.2).toValue = .ok q.2
  | [], _, _ => List.forall_mem_nil _
  | (_, _) :: _, h, hcanon => List.forall_mem_cons.2
    ⟨toValue_ofValue h.2.1 hcanon.1.2, toValue_membersOf h.2.2 hcanon.2⟩
end

/-- **JSON and document values correspond one to one.**  JSON has no value just when some number in
it is no integer of 64 bits.  Otherwise it is found again from its value; and the values that are
found again from their JSON are those that are canonical, have no byte strings and have texts as the
keys of their maps. -/
theorem document_correspondence :
    (∀ j : Json, (∃ e, j.toValue = .error e) ↔ ∃ n ∈ j.numbers, ¬ IsInt64 n) ∧
      (∀ (j : Json) (v : Value), j.Proper → j.toValue = .ok v → ofValue v = j) ∧
      ∀ v : Value, (ofValue v).toValue = .ok v ↔ v.Textual ∧ v.Canonical := by
  refine ⟨fun j => toValue_isError_iff, fun j v hproper h => (ofValue_of_toValue j hproper h).1,
    fun v => ⟨fun h => ?_, fun ⟨htextual, hcanon⟩ => toValue_ofValue htextual hcanon⟩⟩
  exact (ofValue_of_toValue _ (proper_ofValue v) h).2

/-- The names in the order of the object, which is not that of their encodings. -/
theorem document_correspondence_of_names :
    let j : Json := .object [("aa", .number (.integer (-1))), ("b", .array [.string "x", .null])]
    let v : Value := .object [("aa", .integer (-1)), ("b", .array [.text "x", .null])]
    j.toValue = .ok v ∧ ofValue v = j := by
  intro j v
  have hproper : j.Proper := by
    simp only [j, Proper, ProperMembers, ProperItems]
    decide
  have hvalue : j.toValue = .ok v := by rfl
  exact ⟨hvalue, document_correspondence.2.1 j v hproper hvalue⟩

end Json

end Rollup
