import Rollup.Command.Console
import Rollup.Proofs.Index.EntryTable
import Rollup.Proofs.Storage.Agreement

/-!
# Names — which index a tree belongs to

The name of an index has no slash, and that of each of its trees goes on with one.  So a tree tells
the index that it belongs to, and which of its trees it is (`Site.tree_eq_iff`), be the name of one
index the beginning of another's or one that the store uses itself.

A tree of an index whose name ends like that of settings is the tree of its settings
(`Site.metaTree_eq_iff`), whatever the hash of a bucket looks like.  So the names that are listed
are those that have such a tree (`mem_indexNames_iff`).
-/

namespace Rollup

/-! ### Up to the slash -/

/-- The name has no slash. -/
def Slashless (name : String) : Prop := '/' ∉ name.toList

theorem Definition.slashless_of_validate {d : Definition} (h : d.validate = .ok ()) :
    Slashless d.name := by
  intro hslash
  rw [validate, flaw?, if_pos] at h
  · cases h
  · simp [hslash]

/-- What stands before the first slash. -/
def beforeSlash (tree : String) : List Char := tree.toList.takeWhile (· != '/')

theorem beforeSlash_of_prefix {name tree : String} {rest : List Char} (h : Slashless name)
    (htree : tree.toList = name.toList ++ '/' :: rest) : beforeSlash tree = name.toList := by
  rw [beforeSlash, htree, List.takeWhile_append_of_pos]
  · simp
  · intro c hc
    simp only [bne_iff_ne, ne_eq]
    rintro rfl
    exact h hc

namespace Site

theorem exists_suffix (site : Site) : ∃ rest, site.suffix.toList = '/' :: rest := by
  cases site with
  | bucket hash => exact ⟨_, by rw [suffix, String.toList_append]; rfl⟩
  | _ => exact ⟨_, rfl⟩

theorem beforeSlash_tree {index : String} (h : Slashless index) (site : Site) :
    beforeSlash (site.tree index) = index.toList := by
  obtain ⟨rest, hrest⟩ := site.exists_suffix
  exact beforeSlash_of_prefix h (by rw [tree, String.toList_append, hrest])

/-- **A tree tells its index** and which of its trees it is. -/
theorem tree_eq_iff {a b : String} (ha : Slashless a) (hb : Slashless b) {x y : Site} :
    x.tree a = y.tree b ↔ a = b ∧ x = y := by
  constructor
  · intro h
    have hname := congrArg beforeSlash h
    rw [beforeSlash_tree ha, beforeSlash_tree hb] at hname
    obtain rfl := String.toList_injective hname
    exact ⟨rfl, tree_inj.1 h⟩
  · rintro ⟨rfl, rfl⟩
    rfl

/-- The names that the program gives to the trees of an index. -/
def name (index : String) : Site → String
  | settings => metaTree index
  | entries => (EntryTable.schema index).name
  | documents => (EntryTable.schema index).indexTree EntryTable.byDocument
  | hashes => (EntryTable.schema index).indexTree EntryTable.byHash
  | groupKeys => groupKeyTree index
  | bucket hash => bucketTree index hash

theorem name_eq (index : String) (site : Site) : site.name index = site.tree index := by
  cases site with
  | settings => rfl
  | entries => rfl
  | documents => exact EntryTable.indexTree_byDocument index
  | hashes => exact EntryTable.indexTree_byHash index
  | groupKeys => rfl
  | bucket hash => exact (tree_bucket index hash).symm

/-! ### The trees of settings -/

/-- What stands behind the last slash. -/
def afterSlash (tree : String) : List Char := (tree.toList.reverse.takeWhile (· != '/')).reverse

theorem afterSlash_eq {tree : String} {front last : List Char} (hlast : '/' ∉ last)
    (h : tree.toList = front ++ '/' :: last) : afterSlash tree = last := by
  rw [afterSlash, h, List.reverse_append, List.reverse_cons, List.append_assoc,
    List.takeWhile_append_of_pos]
  · simp
  · intro c hc
    simp only [bne_iff_ne, ne_eq]
    rintro rfl
    exact hlast (List.mem_reverse.1 hc)

/-- What the name of the tree ends in, behind its last slash. -/
def last : Site → List Char
  | settings => "meta".toList
  | entries => "MapResults".toList
  | documents => "DocumentKeys".toList
  | hashes => "ReduceKeyHashes".toList
  | groupKeys => "ReduceKeys".toList
  | bucket hash => hash.text.toList

theorem length_text (hash : GroupHash) : hash.text.toList.length = 16 := by
  have hlen : ∀ b : Bytes, b.toHex.toList.length = 2 * b.length := fun b => by
    rw [Bytes.toHex, String.toList_ofList]
    induction b with
    | nil => rfl
    | cons x b ih => rw [List.flatMap_cons, List.length_append, ih, List.length_cons]; simp; omega
  rw [GroupHash.text, hlen, GroupHash.length_encode]

theorem slash_notMem_text (hash : GroupHash) : '/' ∉ hash.text.toList := by
  have hdigit : ∀ n : Nat, n < 16 → '/' ≠ Bytes.hexDigit n := fun n hn =>
    (by decide : ∀ m : Fin 16, '/' ≠ Bytes.hexDigit m) ⟨n, hn⟩
  rw [GroupHash.text, Bytes.toHex, String.toList_ofList]
  intro hmem
  obtain ⟨b, -, hb⟩ := List.mem_flatMap.1 hmem
  have hlt := b.toNat_lt
  rcases List.mem_pair.1 hb with h | h
  · exact hdigit _ (by omega) h
  · exact hdigit _ (by omega) h

theorem slash_notMem_last (site : Site) : '/' ∉ site.last := by
  cases site with
  | bucket hash => exact slash_notMem_text hash
  | _ => decide

theorem exists_front (site : Site) : ∃ front, site.suffix.toList = front ++ '/' :: site.last := by
  cases site with
  | settings => exact ⟨[], rfl⟩
  | entries => exact ⟨[], rfl⟩
  | documents => exact ⟨"/MapResults".toList, rfl⟩
  | hashes => exact ⟨"/MapResults".toList, rfl⟩
  | groupKeys => exact ⟨[], rfl⟩
  | bucket hash => exact ⟨"/reduce".toList, by rw [suffix, String.toList_append]; rfl⟩

theorem afterSlash_tree (index : String) (site : Site) :
    afterSlash (site.tree index) = site.last := by
  obtain ⟨front, hfront⟩ := site.exists_front
  refine @afterSlash_eq _ (index.toList ++ front) _ site.slash_notMem_last ?_
  rw [tree, String.toList_append, hfront, List.append_assoc]

/-- No hash is as short as the ending of settings. -/
theorem eq_settings_of_last {site : Site} (h : site.last = settings.last) : site = settings := by
  cases site with
  | settings => rfl
  | bucket hash =>
      have hlength : hash.text.toList.length = "meta".toList.length := congrArg List.length h
      rw [length_text] at hlength
      exact absurd hlength (by decide)
  | _ => exact absurd h (by decide)

/-- **Only the settings** have a tree with their ending. -/
theorem metaTree_eq_iff {name index : String} {site : Site} :
    metaTree name = site.tree index ↔ name = index ∧ site = settings := by
  constructor
  · intro h
    have hlast := congrArg afterSlash h
    rw [← tree_settings, afterSlash_tree, afterSlash_tree] at hlast
    obtain rfl := eq_settings_of_last hlast.symm
    exact ⟨(String.append_left_inj _).1 h, rfl⟩
  · rintro ⟨rfl, rfl⟩
    rfl

end Site

/-! ### The names that are listed -/

namespace Console

theorem indexOfMetaTree?_eq_some_iff {tree name : String} :
    indexOfMetaTree? tree = some name ↔ tree = metaTree name := by
  have hmeta : tree = metaTree name ↔ tree.toList = name.toList ++ "/meta".toList := by
    rw [metaTree, ← String.toList_append]
    exact String.toList_inj.symm
  rw [indexOfMetaTree?, hmeta]
  split
  · next hending =>
    obtain ⟨front, hfront⟩ := List.isSuffixOf_iff_suffix.1 hending
    have htake : tree.toList.take (tree.toList.length - "/meta".toList.length) = front := by
      rw [← hfront, List.length_append, Nat.add_sub_cancel, List.take_left]
    rw [htake, Option.some_inj, ← hfront, List.append_left_inj]
    constructor
    · rintro rfl
      rw [String.toList_ofList]
    · rintro rfl
      rw [String.ofList_toList]
  · next hending =>
    refine iff_of_false (by simp) fun h => hending ?_
    rw [h, List.isSuffixOf_iff_suffix]
    exact List.suffix_append _ _

/-- **The names that are listed** are those that have a tree of settings. -/
theorem mem_indexNames_iff {s : Snapshot} {name : String} :
    name ∈ indexNames s ↔ s.hasTree (metaTree name) = true := by
  rw [indexNames, List.mem_filterMap]
  simp only [indexOfMetaTree?_eq_some_iff, exists_eq_right]
  exact OrderedMap.mem_keys_iff

theorem nodup_indexNames (s : Snapshot) : (indexNames s).Nodup := by
  have hkeys : s.treeNames.Nodup := s.trees.keys_ascending.imp fun hlt heq => by
    rw [heq, Std.ReflOrd.compare_self] at hlt
    cases hlt
  refine hkeys.filterMap fun tree tree' name h h' => ?_
  rw [Option.mem_def, indexOfMetaTree?_eq_some_iff] at h h'
  exact h.trans h'.symm

end Console

end Rollup
