import Rollup.OrderedMap

/-!
# Ordered maps — a map is what it looks up

`ext_get?` says that two maps with the same look-ups are the same map, so every law about writing
is a law about `get?`: `get?_insert` and `get?_erase`.  The other readers are given by the entries
in key order: `entriesFrom` keeps those that are not before a key, and `last?` answers the greatest.
-/

namespace Rollup.OrderedMap

variable {κ ν : Type} [Ord κ]

theorem get?_empty (k : κ) : (empty : OrderedMap κ ν).get? k = none := rfl

theorem contains_eq_isSome (m : OrderedMap κ ν) (k : κ) : m.contains k = (m.get? k).isSome := rfl

/-- Lists that ascend by a key are equal if they have the same members. -/
theorem eq_of_ascending {α : Type} [Std.TransOrd κ] {f : α → κ} {l l' : List α}
    (h : l.Pairwise fun a b => compare (f a) (f b) = .lt)
    (h' : l'.Pairwise fun a b => compare (f a) (f b) = .lt) (hmem : ∀ a, a ∈ l ↔ a ∈ l') :
    l = l' := by
  have hnodup : ∀ {l : List α}, (l.Pairwise fun a b => compare (f a) (f b) = .lt) → l.Nodup :=
    fun h => h.imp fun hlt e => by simp [e, Std.ReflCmp.compare_self] at hlt
  refine ((List.perm_ext_iff_of_nodup (hnodup h) (hnodup h')).2 hmem).eq_of_pairwise
    (fun a b _ _ hab hba => ?_) h h'
  exact absurd hba (Std.OrientedCmp.not_lt_of_lt hab)

theorem keys_ascending (m : OrderedMap κ ν) : m.keys.Pairwise fun a b => compare a b = .lt :=
  List.pairwise_map.2 m.ascending

/-! ### Look-ups and entries -/

section

variable [Std.LawfulEqOrd κ]

/-- Two entries of one key are one entry. -/
theorem eq_of_mem_entries (m : OrderedMap κ ν) {e f : κ × ν} (he : e ∈ m.entries)
    (hf : f ∈ m.entries) (h : e.1 = f.1) : e = f := by
  have hlt := m.ascending
  generalize m.entries = l at *
  induction l with
  | nil => cases he
  | cons a l ih =>
      obtain ⟨ha, hl⟩ := List.pairwise_cons.1 hlt
      rcases List.mem_cons.1 he with rfl | he' <;> rcases List.mem_cons.1 hf with rfl | hf'
      · rfl
      · simpa [h] using ha f hf'
      · simpa [h] using ha e he'
      · exact ih he' hf' hl

theorem get?_eq_some_iff {m : OrderedMap κ ν} {k : κ} {v : ν} :
    m.get? k = some v ↔ (k, v) ∈ m.entries := by
  constructor
  · intro h
    obtain ⟨e, he, rfl⟩ := Option.map_eq_some_iff.1 h
    have hk : compare k e.1 = .eq := by simpa using List.find?_some he
    rw [Std.LawfulEqCmp.eq_of_compare hk]
    exact List.mem_of_find?_eq_some he
  · intro h
    cases hf : m.entries.find? fun e => compare k e.1 == .eq with
    | none => simpa using List.find?_eq_none.1 hf (k, v) h
    | some e =>
        have hk : compare k e.1 = .eq := by simpa using List.find?_some hf
        have he : e = (k, v) := m.eq_of_mem_entries (List.mem_of_find?_eq_some hf) h
          (Std.LawfulEqCmp.eq_of_compare hk).symm
        rw [get?, hf, he]
        rfl

theorem get?_eq_none_iff {m : OrderedMap κ ν} {k : κ} :
    m.get? k = none ↔ ∀ v, (k, v) ∉ m.entries := by
  rw [Option.eq_none_iff_forall_ne_some]
  exact forall_congr' fun v => not_congr get?_eq_some_iff

theorem mem_keys_iff {m : OrderedMap κ ν} {k : κ} : k ∈ m.keys ↔ (m.get? k).isSome := by
  rw [Option.isSome_iff_exists, keys, List.mem_map]
  constructor
  · rintro ⟨e, he, rfl⟩
    exact ⟨e.2, get?_eq_some_iff.2 he⟩
  · rintro ⟨v, hv⟩
    exact ⟨_, get?_eq_some_iff.1 hv, rfl⟩

theorem isEmpty_iff {m : OrderedMap κ ν} : m.isEmpty = true ↔ ∀ k, m.get? k = none := by
  simp only [isEmpty, List.isEmpty_iff, get?_eq_none_iff]
  exact ⟨fun h k v => by simp [h], fun h => List.eq_nil_iff_forall_not_mem.2 fun e => h e.1 e.2⟩

theorem size_eq_zero_iff {m : OrderedMap κ ν} : m.size = 0 ↔ ∀ k, m.get? k = none := by
  rw [← isEmpty_iff, size, isEmpty, List.isEmpty_iff, List.length_eq_zero_iff]

/-! ### Writing -/

theorem get?_erase [DecidableEq κ] (m : OrderedMap κ ν) (k j : κ) :
    (m.erase k).get? j = if j = k then none else m.get? j := by
  by_cases h : j = k
  · subst h
    simp [get?_eq_none_iff, erase, Std.ReflCmp.compare_self]
  · rw [if_neg h]
    refine Option.ext fun v => ?_
    have hk : compare k j ≠ .eq := fun e => h (Std.LawfulEqCmp.eq_of_compare e).symm
    simp [get?_eq_some_iff, erase, hk]

variable [Std.TransOrd κ]

/-- **A map is what it looks up.** -/
theorem ext_get? {m n : OrderedMap κ ν} (h : ∀ k, m.get? k = n.get? k) : m = n := by
  have hmem : ∀ e, e ∈ m.entries ↔ e ∈ n.entries := fun e => by
    rw [← get?_eq_some_iff (k := e.1), ← get?_eq_some_iff (k := e.1), h]
  exact ext (eq_of_ascending m.ascending n.ascending hmem)

/-- Insertion is seen at its key alone, whatever the order of the entries. -/
theorem get?_insert [DecidableEq κ] (m : OrderedMap κ ν) (k : κ) (v : ν) (j : κ) :
    (m.insert k v).get? j = if j = k then some v else m.get? j := by
  have hj : ∀ i : κ, (compare j i == .eq) = decide (j = i) := fun i => by
    rw [Bool.eq_iff_iff]
    simp [Std.LawfulEqCmp.compare_eq_iff_eq]
  simp only [get?, insert, hj]
  generalize m.entries = l
  induction l with
  | nil => by_cases h : j = k <;> simp [insertEntry, h]
  | cons a l ih =>
      rw [insertEntry]
      split
      · by_cases h : j = k <;> simp [h]
      · next heq =>
        have hk : k = a.1 := Std.LawfulEqCmp.eq_of_compare heq
        by_cases h : j = k <;> simp [h, ← hk]
      · next hgt =>
        have hk : k ≠ a.1 := fun e => by simp [e] at hgt
        by_cases ha : j = a.1
        · simp [ha, Ne.symm hk]
        · simpa [List.find?_cons, ha] using ih

theorem contains_insert [DecidableEq κ] (m : OrderedMap κ ν) (k : κ) (v : ν) (j : κ) :
    (m.insert k v).contains j = true ↔ j = k ∨ m.contains j = true := by
  rw [contains_eq_isSome, contains_eq_isSome, get?_insert]
  by_cases h : j = k <;> simp [h]

theorem mem_keys_ofList [DecidableEq κ] {l : List (κ × ν)} {k : κ} :
    k ∈ (ofList l).keys ↔ ∃ v, (k, v) ∈ l := by
  suffices ∀ m : OrderedMap κ ν, k ∈ (l.foldl (fun m e => m.insert e.1 e.2) m).keys ↔
      k ∈ m.keys ∨ ∃ v, (k, v) ∈ l by
    simpa [ofList, empty, keys] using this empty
  induction l with
  | nil => simp
  | cons e l ih =>
      intro m
      have hinsert : k ∈ (m.insert e.1 e.2).keys ↔ k = e.1 ∨ k ∈ m.keys := by
        rw [mem_keys_iff, mem_keys_iff, get?_insert]
        by_cases h : k = e.1 <;> simp [h]
      rw [List.foldl_cons, ih, hinsert]
      constructor
      · rintro ((rfl | h) | ⟨v, h⟩)
        · exact .inr ⟨e.2, List.mem_cons_self⟩
        · exact .inl h
        · exact .inr ⟨v, List.mem_cons_of_mem _ h⟩
      · rintro (h | ⟨v, h⟩)
        · exact .inl (.inr h)
        · rcases List.mem_cons.1 h with rfl | h
          · exact .inl (.inl rfl)
          · exact .inr ⟨v, h⟩

end

/-! ### Reading in order -/

/-- The keys from one on are those that are not before it. -/
theorem entriesFrom_eq_filter [Std.TransOrd κ] (m : OrderedMap κ ν) (k : κ) :
    m.entriesFrom k = m.entries.filter fun e => compare e.1 k != .lt := by
  have hlt := m.ascending
  rw [entriesFrom]
  generalize m.entries = l at hlt
  induction l with
  | nil => rfl
  | cons a l ih =>
      obtain ⟨ha, hl⟩ := List.pairwise_cons.1 hlt
      cases hak : compare a.1 k with
      | lt => simp [hak, ih hl]
      | eq | gt =>
          have hall : ∀ e ∈ l, (compare e.1 k != .lt) = true := fun e he => by
            have hne : compare e.1 k ≠ .lt := fun hek => by
              have := Std.TransCmp.lt_trans (ha e he) hek
              rw [this] at hak
              cases hak
            simpa using hne
          rw [List.dropWhile_cons_of_neg (by simp [hak]), List.filter_cons_of_pos (by simp [hak]),
            List.filter_eq_self.2 hall]

theorem mem_of_last? {m : OrderedMap κ ν} {e : κ × ν} (h : m.last? = some e) :
    e ∈ m.entries := List.mem_of_getLast? h

end Rollup.OrderedMap
