import SolanaAmm.Lib.Lists
import Std.Data.TreeMap
import Mathlib.Data.List.Nodup
import Mathlib.Data.List.Perm.Subperm

/-!
# Maps — ordered maps as lists of pairs

An ordered map built from pairs with distinct keys holds exactly these
pairs: its lookups are memberships, its listing a permutation of them.
Loops over a map can then be read as loops over the pairs it was built
from.
-/

namespace SolanaAmm.Maps

open Std Result

variable {κ α : Type} [Ord κ]

theorem values_eq (t : TreeMap κ α) : t.values = t.toList.map Prod.snd := by
  have h : t.values = t.foldr (fun _ v l => v :: l) [] := rfl
  rw [h, TreeMap.foldr_eq_foldr_toList]
  induction t.toList with
  | nil => rfl
  | cons p l ih => rw [List.foldr_cons, ih, List.map_cons]

variable [TransCmp (compare : κ → κ → Ordering)] [LawfulEqCmp (compare : κ → κ → Ordering)]

theorem keys_nodup (t : TreeMap κ α) : (t.toList.map Prod.fst).Nodup := by
  refine List.pairwise_map.mpr (t.distinct_keys_toList.imp ?_)
  intro a b h hab
  exact h (by rw [hab]; exact ReflCmp.compare_self)

theorem toList_nodup (t : TreeMap κ α) : t.toList.Nodup :=
  List.Nodup.of_map _ (keys_nodup t)

theorem mem_toList {t : TreeMap κ α} {k : κ} {v : α} :
    (k, v) ∈ t.toList ↔ t[k]? = some v :=
  TreeMap.mem_toList_iff_getElem?_eq_some

/-- Maps with the same lookups are listed alike. -/
theorem toList_congr {t t' : TreeMap κ α} (h : ∀ k : κ, t[k]? = t'[k]?) : t.toList = t'.toList :=
  (TreeMap.Equiv.of_forall_constGet?_eq h).toList_eq

variable {l : List (κ × α)} {k : κ} {v : α}

theorem getElem?_ofList_of_mem (hl : (l.map Prod.fst).Nodup) (h : (k, v) ∈ l) :
    (TreeMap.ofList l)[k]? = some v := by
  refine TreeMap.getElem?_ofList_of_mem ReflCmp.compare_self ?_ h
  refine (List.pairwise_map.mp hl).imp ?_
  intro a b hab hc
  exact hab (LawfulEqCmp.eq_of_compare hc)

theorem getElem?_ofList [DecidableEq κ] (hl : (l.map Prod.fst).Nodup) :
    (TreeMap.ofList l)[k]? = some v ↔ (k, v) ∈ l := by
  refine ⟨fun h => ?_, getElem?_ofList_of_mem hl⟩
  by_cases hk : k ∈ l.map Prod.fst
  · obtain ⟨⟨k', v'⟩, hmem, rfl⟩ := List.mem_map.mp hk
    rw [getElem?_ofList_of_mem hl hmem] at h
    cases h
    exact hmem
  · have hc : (l.map Prod.fst).contains k = false := by simpa using hk
    rw [TreeMap.getElem?_ofList_of_contains_eq_false hc] at h
    cases h

/-- The listing of a map built from distinct keys is the list it was built
from, in another order. -/
theorem toList_ofList_perm [DecidableEq κ] (hl : (l.map Prod.fst).Nodup) :
    (TreeMap.ofList l).toList.Perm l := by
  rw [List.perm_ext_iff_of_nodup (toList_nodup _) (List.Nodup.of_map _ hl)]
  rintro ⟨k, v⟩
  rw [mem_toList, getElem?_ofList hl]

theorem contains_ofList [DecidableEq κ] :
    (TreeMap.ofList l).contains k = true ↔ k ∈ l.map Prod.fst := by
  simp

/-- Whatever the list says twice, a lookup finds a pair of it. -/
theorem mem_of_getElem?_ofList [DecidableEq κ] (h : (TreeMap.ofList l)[k]? = some v) :
    (k, v) ∈ l := by
  rw [TreeMap.ofList_eq_insertMany_empty, TreeMap.getElem?_insertMany_list,
    TreeMap.getElem?_emptyc, Option.or_none, List.findSomeRev?_eq_findSome?_reverse] at h
  obtain ⟨⟨a, b⟩, hmem, hb⟩ := List.exists_of_findSome?_eq_some h
  simp only [Option.ite_none_right_eq_some, Option.some.injEq] at hb
  obtain ⟨hk, rfl⟩ := hb
  rw [← LawfulEqCmp.eq_of_compare hk]
  exact List.mem_reverse.mp hmem

/-- All that the list says of a key is one value. -/
theorem getElem?_ofList_of_forall [DecidableEq κ] (h : (k, v) ∈ l)
    (hv : ∀ v', (k, v') ∈ l → v' = v) : (TreeMap.ofList l)[k]? = some v := by
  have hc : (TreeMap.ofList l).contains k = true :=
    contains_ofList.mpr (List.mem_map.mpr ⟨_, h, rfl⟩)
  rw [TreeMap.contains_eq_isSome_getElem?] at hc
  obtain ⟨v', hv'⟩ := Option.isSome_iff_exists.mp hc
  rw [hv', hv v' (mem_of_getElem?_ofList hv')]

/-- What the list says last counts. -/
theorem getElem?_ofList_concat [DecidableEq κ] :
    (TreeMap.ofList (l ++ [(k, v)]))[k]? = some v := by
  rw [TreeMap.ofList_eq_insertMany_empty, TreeMap.getElem?_insertMany_list,
    List.findSomeRev?_eq_findSome?_reverse, List.reverse_concat, List.findSome?_cons]
  simp

/-- A sum over the entries of a map under one key has at most one term. -/
theorem sum_filter_toList [DecidableEq κ] (t : TreeMap κ α) (k : κ) (g : α → ℕ) :
    ((t.toList.filter (fun p => p.1 = k)).map (fun p => g p.2)).sum = (t[k]?.map g).getD 0 := by
  cases hv : t[k]? with
  | some v =>
      have hfilter := Lists.filter_key_eq (keys_nodup t) (mem_toList.mpr hv)
      rw [hfilter, List.map_singleton, List.sum_singleton]
      rfl
  | none =>
      have hfilter : t.toList.filter (fun p => p.1 = k) = [] := by
        rw [List.filter_eq_nil_iff]
        rintro ⟨k', v⟩ hp
        have hk' := mem_toList.mp hp
        rw [decide_eq_true_eq]
        rintro rfl
        rw [hv] at hk'
        cases hk'
      rw [hfilter]
      rfl

/-- A map without new keys is no larger. -/
theorem size_le_size {β : Type} [DecidableEq κ] {t : TreeMap κ α} {t' : TreeMap κ β}
    (h : ∀ k : κ, t.contains k = true → t'.contains k = true) : t.size ≤ t'.size := by
  have hsubset : t.keys ⊆ t'.keys := fun k hk => by
    rw [TreeMap.mem_keys, TreeMap.mem_iff_contains] at hk ⊢
    exact h k hk
  rw [← TreeMap.length_keys, ← TreeMap.length_keys (t := t')]
  exact (TreeMap.nodup_keys.subperm hsubset).length_le

/-- A map with as many keys as a list of distinct keys that it covers has
no other key. -/
theorem mem_keys_of_size [DecidableEq κ] {t : TreeMap κ α} {ks : List κ} (hks : ks.Nodup)
    (hsub : ∀ k ∈ ks, t.contains k = true) (hsize : t.size = ks.length) :
    ∀ k v, t[k]? = some v → k ∈ ks := by
  intro k v hk
  have hkeys : (t.toList.map Prod.fst).length = ks.length := by
    rw [List.length_map, TreeMap.length_toList, hsize]
  have hsubset : ks ⊆ t.toList.map Prod.fst := by
    intro a ha
    obtain ⟨w, hw⟩ : ∃ w, t[a]? = some w := by
      have := hsub a ha
      rw [TreeMap.contains_eq_isSome_getElem?] at this
      exact Option.isSome_iff_exists.mp this
    exact List.mem_map.mpr ⟨(a, w), mem_toList.mpr hw, rfl⟩
  have hperm := hks.subperm hsubset
  have heq := hperm.perm_of_length_le (Nat.le_of_eq hkeys)
  exact heq.mem_iff.mpr (List.mem_map.mpr ⟨(k, v), mem_toList.mpr hk, rfl⟩)

end SolanaAmm.Maps
