import SolanaAmm.Farming.Stakes
import SolanaAmm.Lib.Maps
import Mathlib.Algebra.Order.BigOperators.Group.List

/-!
# Farming — Unclaimed

The credited and unclaimed tokens of a farmer while they are moved between
the array of the account and the maps the methods work on: nothing is
gained on the way.
-/

namespace SolanaAmm.Farming

open Result

theorem getElem?_insert_ne {α : Type} {t : BTreeMap α} {k k' : Pubkey} {v : α} (h : k' ≠ k) :
    (t.insert k v)[k']? = t[k']? := by
  rw [Std.TreeMap.getElem?_insert, if_neg]
  rw [Std.LawfulEqCmp.compare_eq_iff_eq]
  exact Ne.symm h

/-- The tokens a map holds under a mint. -/
def tokensOf (t : Harvested) (m : Pubkey) : ℕ := (t.getD m 0).val

theorem tokensOf_insert {t : Harvested} {m m' : Pubkey} {n : TokenAmount} :
    tokensOf (t.insert m n) m' = if m = m' then n.val else tokensOf t m' := by
  unfold tokensOf
  rw [Std.TreeMap.getD_insert]
  simp only [Std.LawfulEqCmp.compare_eq_iff_eq]
  split <;> rfl

theorem tokensOf_of_getElem? {t : Harvested} {m : Pubkey} {n : TokenAmount}
    (h : t[m]? = some n) : tokensOf t m = n.val := by
  rw [tokensOf, Std.TreeMap.getD_eq_getD_getElem?, h]
  rfl

theorem tokensOf_of_none {t : Harvested} {m : Pubkey} (h : t[m]? = none) :
    tokensOf t m = 0 := by
  rw [tokensOf, Std.TreeMap.getD_eq_getD_getElem?, h]
  rfl

namespace Farmer

variable {f : Farmer} {m m' : Pubkey} {n : TokenAmount}

theorem unclaimed_congr {f' : Farmer} (h : f'.harvests = f.harvests) :
    f'.unclaimed m = f.unclaimed m := by
  rw [unclaimed, unclaimed, h]

/-- Collecting the array into a map loses what is doubled, and gains
nothing. -/
theorem tokensOf_harvestsMap_le : tokensOf f.harvestsMap m ≤ f.unclaimed m := by
  cases h : f.harvestsMap[m]? with
  | none => rw [tokensOf_of_none h]; exact Nat.zero_le _
  | some n =>
      rw [tokensOf_of_getElem? h]
      obtain ⟨a, ha, heq⟩ := List.mem_map.mp (Maps.mem_of_getElem?_ofList h)
      obtain ⟨rfl, rfl⟩ := Prod.mk.injEq .. ▸ heq
      exact List.le_sum_of_mem
        (List.mem_map_of_mem (List.mem_filter.mpr ⟨ha, by simp⟩))

/-- Writing a map back keeps ten mints of it. -/
theorem unclaimed_setHarvests_le {t : Harvested} :
    (f.setHarvests t.toList).unclaimed m ≤ tokensOf t m := by
  refine (List.Sublist.sum_le_sum (((List.take_sublist _ _).filter _).map _)
    (fun _ _ => Nat.zero_le _)).trans ?_
  rw [List.filter_append, List.map_append, List.sum_append]
  have hpad : (((List.replicate MAX_HARVEST_MINTS (default : AvailableHarvest)).filter
      (fun h => h.mint = m)).map (fun h => h.tokens.val)).sum = 0 := by
    refine List.sum_eq_zero (fun x hx => ?_)
    obtain ⟨h, hh, rfl⟩ := List.mem_map.mp hx
    rw [List.eq_of_mem_replicate (List.mem_filter.mp hh).1]
    rfl
  have hmap : (((t.toList.map (fun (mint, tokens) => AvailableHarvest.mk mint tokens)).filter
      (fun h => h.mint = m)).map (fun h => h.tokens.val))
      = (t.toList.filter (fun p => p.1 = m)).map (fun p => p.2.val) := by
    rw [List.filter_map, List.map_map]
    rfl
  rw [hpad, hmap, Nat.add_zero, Maps.sum_filter_toList]
  cases h : t[m]? with
  | none => exact Nat.zero_le _
  | some n => rw [tokensOf_of_getElem? h]; exact Nat.le_refl _

/-- A map of at most ten mints is written back whole. -/
theorem setHarvests_eq {u : Harvested} (hu : u.size ≤ MAX_HARVEST_MINTS) :
    (f.setHarvests u.toList).harvests
      = u.toList.map (fun (mint, tokens) => AvailableHarvest.mk mint tokens)
        ++ List.replicate (MAX_HARVEST_MINTS - u.size) default := by
  have hlen : (u.toList.map (fun (mint, tokens) => AvailableHarvest.mk mint tokens)).length
      = u.size := by rw [List.length_map, Std.TreeMap.length_toList]
  show List.take _ _ = _
  rw [List.take_append, hlen, List.take_of_length_le (by rw [hlen]; exact hu),
    List.take_replicate, Nat.min_eq_left (Nat.sub_le _ _)]

theorem harvestsMap_setHarvests {u : Harvested} (hu : u.size ≤ MAX_HARVEST_MINTS) :
    (f.setHarvests u.toList).harvestsMap
      = .ofList (u.toList ++ List.replicate (MAX_HARVEST_MINTS - u.size) (default, 0)) := by
  unfold harvestsMap
  rw [setHarvests_eq hu, List.map_append, List.map_map, List.map_replicate]
  congr 2
  exact List.map_id _

/-- Reading back what was written: the padding of the account overwrites
what is held for the uninitialised mint. -/
theorem tokensOf_setHarvests {u : Harvested} {k : Pubkey} (hu : u.size ≤ MAX_HARVEST_MINTS)
    (hk : u.contains k = true) :
    tokensOf (f.setHarvests u.toList).harvestsMap k
      = if k = default ∧ u.size < MAX_HARVEST_MINTS then 0 else tokensOf u k := by
  rw [harvestsMap_setHarvests hu]
  rw [Std.TreeMap.contains_eq_isSome_getElem?] at hk
  obtain ⟨v, hv⟩ := Option.isSome_iff_exists.mp hk
  by_cases hpad : k = default ∧ u.size < MAX_HARVEST_MINTS
  · obtain ⟨rfl, hlt⟩ := hpad
    obtain ⟨n, hn⟩ : ∃ n, MAX_HARVEST_MINTS - u.size = n + 1 :=
      ⟨MAX_HARVEST_MINTS - u.size - 1, by omega⟩
    rw [if_pos ⟨rfl, hlt⟩, hn, List.replicate_succ', ← List.append_assoc,
      tokensOf_of_getElem? Maps.getElem?_ofList_concat]
    rfl
  · rw [if_neg hpad, tokensOf_of_getElem? hv]
    refine tokensOf_of_getElem? (Maps.getElem?_ofList_of_forall
      (List.mem_append_left _ (Maps.mem_toList.mpr hv)) (fun v' hv' => ?_))
    rcases List.mem_append.mp hv' with hv' | hv'
    · exact Option.some.inj ((Maps.mem_toList.mp hv').symm.trans hv)
    · obtain ⟨hne, heq⟩ := List.mem_replicate.mp hv'
      exact absurd ⟨(Prod.mk.inj heq).1, by omega⟩ hpad

/-- Writing one entry changes what can be claimed by the difference. -/
theorem unclaimed_setHarvestTokens (m' : Pubkey) (n : TokenAmount) {h : AvailableHarvest}
    (hfind : f.findHarvest m = some h) :
    (f.setHarvestTokens m n).unclaimed m' + (if m = m' then h.tokens.val else 0)
      = f.unclaimed m' + (if m = m' then n.val else 0) := by
  obtain ⟨hm, l₁, l₂, hl, hset⟩ := Lists.setFirst_of_find? hfind
  rw [decide_eq_true_eq] at hm
  have hset' : (f.setHarvestTokens m n).harvests = l₁ ++ ⟨m, n⟩ :: l₂ := hset _
  rw [unclaimed, unclaimed, hset', hl, Lists.sum_filter_append_cons, Lists.sum_filter_append_cons]
  simp only [hm, decide_eq_true_eq]
  omega

/-- An account with nothing to claim. -/
theorem unclaimed_eq_zero (h : ∀ a ∈ f.harvests, a.tokens = 0) : f.unclaimed m = 0 := by
  refine List.sum_eq_zero (fun x hx => ?_)
  obtain ⟨a, ha, rfl⟩ := List.mem_map.mp hx
  rw [h a (List.mem_filter.mp ha).1, Word.val_zero]

end Farmer

/-- Synchronising the mints with the farm gains nothing. -/
theorem tokensOf_syncHarvestMints_le {farmHarvests : BTreeMap Harvest} {t : Harvested}
    {m : Pubkey} : tokensOf (syncHarvestMints farmHarvests t) m ≤ tokensOf t m := by
  unfold syncHarvestMints
  have hfold : ∀ (ks : List Pubkey) (u : Harvested),
      tokensOf (ks.foldl (fun u mint => if u.contains mint then u else u.insert mint 0) u) m
        ≤ tokensOf u m := by
    intro ks
    induction ks with
    | nil => exact fun u => Nat.le_refl _
    | cons k ks ih =>
        intro u
        rw [List.foldl_cons]
        refine (ih _).trans ?_
        split
        · exact Nat.le_refl _
        · rw [tokensOf_insert, Word.val_zero]
          split
          · exact Nat.zero_le _
          · exact Nat.le_refl _
  refine (hfold _ _).trans ?_
  unfold tokensOf
  rw [Std.TreeMap.getD_filter', Std.TreeMap.getD_eq_getD_getElem?]
  cases t[m]? with
  | none => exact Nat.le_refl _
  | some n =>
      rw [Option.filter_some]
      split
      · exact Nat.le_refl _
      · exact Nat.zero_le _

end SolanaAmm.Farming
