import SolanaAmm.Farming.Claims
import SolanaAmm.Farming.Updates
import SolanaAmm.Lib.Slots

/-!
# Farming — Entries

The ten entries of a farmer across the updates. An update collects them
into a map, where all uninitialised entries fall together, takes out the
mints that the farm dropped, adds its new ones and writes the map back
with padding. Nothing is lost or doubled on the way as long as the entries
are tidy: one for every initialised mint, and no tokens under the default
one. The endpoints keep them so.
-/

namespace SolanaAmm.Farming

open Result Decimal Slots

variable {farm : Farm} {f f' : Farmer} {l l' : List AvailableHarvest} {u u' : Harvested}
  {a : AvailableHarvest} {m k : Pubkey} {n : TokenAmount} {til : Slot}

/-! ## Tidy entries -/

structure Tidy (l : List AvailableHarvest) : Prop where
  slots : l.length = MAX_HARVEST_MINTS
  distinct : Distinct AvailableHarvest.mint default l
  free : ∀ a ∈ l, a.mint = default → a.tokens = 0

/-- A write through `get_harvest_mut`. -/
theorem Tidy.write (h : Tidy l) (hfind : l.find? (fun a => a.mint = m) = some a)
    (hn : m = default → n = 0) :
    Tidy (Lists.setFirst (fun a => a.mint = m) ⟨m, n⟩ l) where
  slots := Lists.length_setFirst.trans h.slots
  distinct := by
    have hmint : a.mint = m := by simpa using List.find?_some hfind
    exact h.distinct.setFirst hfind (.inl hmint.symm)
  free b hb hfree := by
    obtain ⟨-, l₁, l₂, rfl, hset⟩ := Lists.setFirst_of_find? hfind
    rw [hset] at hb
    rcases List.mem_append.mp hb with hb | hb
    · exact h.free b (List.mem_append_left _ hb) hfree
    · rcases List.mem_cons.mp hb with rfl | hb
      · exact hn hfree
      · exact h.free b (List.mem_append_right _ (List.mem_cons_of_mem _ hb)) hfree

namespace Farmer

theorem size_harvestsMap_le : f.harvestsMap.size ≤ f.harvests.length := by
  refine Std.TreeMap.size_ofList_le.trans ?_
  rw [List.length_map]

/-- The entries of a map of at most ten mints, and padding. -/
theorem mem_setHarvests (hu : u.size ≤ MAX_HARVEST_MINTS) :
    a ∈ (f.setHarvests u.toList).harvests
      ↔ u[a.mint]? = some a.tokens ∨ a = default ∧ u.size < MAX_HARVEST_MINTS := by
  rw [setHarvests_eq hu, List.mem_append, List.mem_replicate, List.mem_map]
  refine or_congr ⟨?_, fun h => ⟨(a.mint, a.tokens), Maps.mem_toList.mpr h, rfl⟩⟩ ?_
  · rintro ⟨⟨m, n⟩, hmem, rfl⟩
    exact Maps.mem_toList.mp hmem
  · rw [and_comm, Nat.sub_ne_zero_iff_lt]

/-- Nothing is lost on the way back. -/
theorem unclaimed_setHarvests (hu : u.size ≤ MAX_HARVEST_MINTS) :
    (f.setHarvests u.toList).unclaimed m = tokensOf u m := by
  refine Nat.le_antisymm unclaimed_setHarvests_le ?_
  cases hn : u[m]? with
  | none => exact (tokensOf_of_none hn).trans_le (Nat.zero_le _)
  | some n =>
      rw [tokensOf_of_getElem? hn]
      have hmem : ⟨m, n⟩ ∈ (f.setHarvests u.toList).harvests := (mem_setHarvests hu).mpr (.inl hn)
      exact List.le_sum_of_mem (List.mem_map_of_mem
        (List.mem_filter.mpr ⟨hmem, decide_eq_true rfl⟩))

theorem tidy_setHarvests (hu : u.size ≤ MAX_HARVEST_MINTS) (hfree : tokensOf u default = 0) :
    Tidy (f.setHarvests u.toList).harvests where
  slots := by
    rw [setHarvests_eq hu, List.length_append, List.length_map, Std.TreeMap.length_toList,
      List.length_replicate, Nat.add_sub_cancel' hu]
  distinct := by
    rw [setHarvests_eq hu]
    refine Distinct.append_free (distinct_map.mpr (.of_nodup (Maps.keys_nodup u))) (fun b hb => ?_)
    rw [List.eq_of_mem_replicate hb]
    rfl
  free b hb hdefault := by
    rcases (mem_setHarvests hu).mp hb with hb | ⟨rfl, -⟩
    · rw [hdefault] at hb
      rw [tokensOf_of_getElem? hb] at hfree
      exact Word.val_eq_zero.mp hfree
    · rfl

end Farmer

namespace Tidy

variable (h : Tidy f.harvests)

include h

/-- The map tells the tokens of every entry. -/
theorem getElem?_harvestsMap (ha : a ∈ f.harvests) :
    f.harvestsMap[a.mint]? = some a.tokens := by
  refine Maps.getElem?_ofList_of_forall (List.mem_map.mpr ⟨a, ha, rfl⟩) (fun n hn => ?_)
  obtain ⟨b, hb, heq⟩ := List.mem_map.mp hn
  obtain ⟨hmint, rfl⟩ := Prod.mk.inj heq
  by_cases hfree : a.mint = default
  · rw [h.free a ha hfree, h.free b hb (hmint.trans hfree)]
  · rw [h.distinct.eq_of_key hb ha hfree hmint]

theorem tokensOf_default : tokensOf f.harvestsMap default = 0 := by
  cases hn : f.harvestsMap[(default : Pubkey)]? with
  | none => exact tokensOf_of_none hn
  | some n =>
      obtain ⟨a, ha, heq⟩ := List.mem_map.mp (Maps.mem_of_getElem?_ofList hn)
      obtain ⟨hmint, rfl⟩ := Prod.mk.inj heq
      rw [tokensOf_of_getElem? hn, h.free a ha hmint, Word.val_zero]

/-- The tokens of an initialised mint are in one entry. -/
theorem unclaimed_eq : f.unclaimed m = tokensOf f.harvestsMap m := by
  refine Nat.le_antisymm ?_ Farmer.tokensOf_harvestsMap_le
  by_cases hm : m = default
  · refine (Nat.le_of_eq ?_).trans (Nat.zero_le _)
    refine List.sum_eq_zero (fun x hx => ?_)
    obtain ⟨b, hb, rfl⟩ := List.mem_map.mp hx
    obtain ⟨hb, hmint⟩ := List.mem_filter.mp hb
    rw [h.free b hb ((of_decide_eq_true hmint).trans hm), Word.val_zero]
  · by_cases hmem : ∃ a ∈ f.harvests, a.mint = m
    · obtain ⟨a, ha, rfl⟩ := hmem
      rw [tokensOf_of_getElem? (h.getElem?_harvestsMap ha), Farmer.unclaimed,
        h.distinct.sum_filter ha hm]
    · have hnil : f.harvests.filter (fun a => a.mint = m) = [] := by
        rw [List.filter_eq_nil_iff]
        intro b hb
        simpa using fun he => hmem ⟨b, hb, he⟩
      rw [Farmer.unclaimed, hnil]
      exact Nat.zero_le _

/-- The entry of a mint holds what can be claimed of it. -/
theorem unclaimed_find (hfind : f.findHarvest m = some a) : f.unclaimed m = a.tokens.val := by
  have hmem := List.mem_of_find?_eq_some hfind
  have hmint : a.mint = m := by simpa using List.find?_some hfind
  rw [← hmint, h.unclaimed_eq, tokensOf_of_getElem? (h.getElem?_harvestsMap hmem)]

/-- Taking out what the entry of a mint holds leaves nothing of this mint. -/
theorem unclaimed_taken (hfind : f.findHarvest m = some a) (m' : Pubkey) :
    (f.setHarvestTokens m 0).unclaimed m' = if m' = m then 0 else f.unclaimed m' := by
  have hset := Farmer.unclaimed_setHarvestTokens m' 0 hfind
  rw [Word.val_zero, ite_self, Nat.add_zero] at hset
  by_cases hm : m' = m
  · subst hm
    rw [if_pos rfl, h.unclaimed_find hfind] at hset
    rw [if_pos rfl]
    omega
  · rw [if_neg (Ne.symm hm)] at hset
    rw [if_neg hm]
    exact hset

end Tidy

/-! ## Crediting -/

/-- The same mints hold as many tokens or more, the default one as many. -/
structure Grows (u u' : Harvested) : Prop where
  keys : ∀ k : Pubkey, u'.contains k = u.contains k
  tokens : ∀ k, tokensOf u k ≤ tokensOf u' k
  free : tokensOf u' default = tokensOf u default

theorem Grows.refl (u : Harvested) : Grows u u := ⟨fun _ => rfl, fun _ => Nat.le_refl _, rfl⟩

theorem Grows.trans {u'' : Harvested} (h : Grows u u') (h' : Grows u' u'') : Grows u u'' where
  keys k := (h'.keys k).trans (h.keys k)
  tokens k := (h.tokens k).trans (h'.tokens k)
  free := h'.free.trans h.free

/-- More tokens for an initialised mint. -/
theorem Grows.insert (hm : u.contains m = true) (hne : m ≠ default)
    (hle : tokensOf u m ≤ n.val) : Grows u (u.insert m n) where
  keys k := by
    rw [Std.TreeMap.contains_insert]
    by_cases hk : m = k
    · rw [← hk, hm, Bool.or_true]
    · rw [beq_false_of_ne (by rwa [ne_eq, Std.LawfulEqCmp.compare_eq_iff_eq]), Bool.false_or]
  tokens k := by
    rw [tokensOf_insert]
    split
    · rename_i hk
      exact hk ▸ hle
    · exact Nat.le_refl _
  free := by rw [tokensOf_insert, if_neg hne]

section Loops

variable {startsAt endsAt since : Slot} {farmerShare : Decimal} {staked : TokenAmount}
  {hs : List Harvest} {ws : List Snapshot}

theorem harvestWindow_grows {acc acc' : TpsHistories × Harvested} {h : Harvest}
    (hm : acc.2.contains h.mint = true) (hne : h.mint ≠ default)
    (hw : harvestWindow startsAt endsAt farmerShare acc h = .ok acc') : Grows acc.2 acc'.2 := by
  simp only [harvestWindow, bind_eq_ok, okOr_eq_ok, Prod.exists, pure_eq_ok,
    Word.checkedAdd_eq_some] at hw
  obtain ⟨_, -, _, _, -, tokens, -, sum, hsum, rfl⟩ := hw
  exact .insert hm hne ((Nat.le_add_right _ _).trans hsum.ge)

/-- All harvests that are credited have an entry. -/
theorem harvestWindows_grow {acc acc' : TpsHistories × Harvested}
    (hmints : ∀ h ∈ hs, acc.2.contains h.mint = true ∧ h.mint ≠ default)
    (hfold : hs.foldlM (harvestWindow startsAt endsAt farmerShare) acc = .ok acc') :
    Grows acc.2 acc'.2 := by
  induction hs generalizing acc with
  | nil =>
      rw [List.foldlM_nil, pure_eq_ok] at hfold
      rw [hfold]
      exact .refl _
  | cons h hs ih =>
      rw [List.foldlM_cons, bind_eq_ok] at hfold
      obtain ⟨acc₁, hw, hfold⟩ := hfold
      obtain ⟨⟨hm, hne⟩, hrest⟩ := List.forall_mem_cons.mp hmints
      have hgrows := harvestWindow_grows hm hne hw
      refine hgrows.trans (ih (fun h hh => ?_) hfold)
      rw [hgrows.keys]
      exact hrest h hh

theorem harvestSnapshots_grow {loop loop' : WindowLoop}
    (hmints : ∀ h ∈ hs, loop.farmerHarvests.contains h.mint = true ∧ h.mint ≠ default)
    (hfold : ws.foldlM (harvestSnapshot hs since staked) loop = .ok loop') :
    Grows loop.farmerHarvests loop'.farmerHarvests := by
  induction ws generalizing loop with
  | nil =>
      rw [List.foldlM_nil, pure_eq_ok] at hfold
      rw [hfold]
      exact .refl _
  | cons w ws ih =>
      rw [List.foldlM_cons, bind_eq_ok] at hfold
      obtain ⟨loop₁, hw, hfold⟩ := hfold
      have hgrows : Grows loop.farmerHarvests loop₁.farmerHarvests := by
        unfold harvestSnapshot at hw
        split at hw
        · rw [pure_eq_ok] at hw
          subst hw
          exact .refl _
        · simp only [bind_eq_ok, pure_eq_ok] at hw
          obtain ⟨_, -, _, -, ⟨histories, harvests⟩, hwindows, rfl⟩ := hw
          exact harvestWindows_grow hmints hwindows
      refine hgrows.trans (ih (fun h hh => ?_) hfold)
      rw [hgrows.keys]
      exact hmints h hh

/-- **Crediting** only ever adds to the entries of initialised mints. -/
theorem eligibleHarvestUntil_grows {farmHarvests : BTreeMap Harvest}
    (hmints : ∀ h ∈ initialised farmHarvests, u.contains h.mint = true ∧ h.mint ≠ default)
    (h : eligibleHarvestUntil farmHarvests ws u (since, til) staked = .ok u') : Grows u u' := by
  unfold eligibleHarvestUntil at h
  split at h
  · rw [pure_eq_ok] at h
    rw [h]
    exact .refl _
  · simp only [bind_eq_ok, pure_eq_ok] at h
    obtain ⟨_, -, _, -, loop, hloop, rfl⟩ := h
    exact harvestSnapshots_grow hmints hloop

end Loops

/-! ## One update -/

/-- The mints of the farm, with what the farmer had of them or more. -/
structure Refreshes (farm : Farm) (u u' : Harvested) : Prop where
  keys : ∀ k, u'.contains k = farm.harvestsMap.contains k
  tokens : ∀ k, farm.harvestsMap.contains k = true → tokensOf u k ≤ tokensOf u' k
  free : tokensOf u' default ≤ tokensOf u default

theorem Farm.contains_harvestsMap :
    farm.harvestsMap.contains k = true ↔ ∃ h ∈ farm.harvests, h.mint = k := by
  rw [Farm.harvestsMap, Maps.contains_ofList, List.map_map]
  exact List.mem_map

theorem Farm.contains_of_initialised {h : Harvest} (hh : h ∈ initialised farm.harvestsMap) :
    farm.harvestsMap.contains h.mint = true ∧ h.mint ≠ default := by
  rw [initialised, List.mem_filter, Maps.values_eq, List.mem_map] at hh
  obtain ⟨⟨⟨k, h⟩, hmem, rfl⟩, hne⟩ := hh
  have hget := (Farm.harvestsMap_mint (Maps.mem_toList.mp hmem)).1
  exact ⟨Farm.contains_harvestsMap.mpr ⟨h, hget, rfl⟩, of_decide_eq_true hne⟩

theorem Farmer.eligibleHarvestUntil_refreshes (h : f.eligibleHarvestUntil farm til = .ok u) :
    Refreshes farm f.harvestsMap u := by
  have hsync : ∀ k, (syncHarvestMints farm.harvestsMap f.harvestsMap)[k]? = _ := fun k =>
    getElem?_syncHarvestMints
  have hcontains : ∀ k, (syncHarvestMints farm.harvestsMap f.harvestsMap).contains k
      = farm.harvestsMap.contains k := by
    intro k
    rw [Std.TreeMap.contains_eq_isSome_getElem?, hsync]
    cases farm.harvestsMap.contains k <;> rfl
  have hgrows := eligibleHarvestUntil_grows (fun h hh => by
    rw [hcontains]
    exact Farm.contains_of_initialised hh) h
  refine ⟨fun k => (hgrows.keys k).trans (hcontains k), fun k hk => ?_, ?_⟩
  · refine (Nat.le_of_eq ?_).trans (hgrows.tokens k)
    rw [tokensOf_of_getElem? ((hsync k).trans (if_pos hk))]
    rfl
  · exact hgrows.free.trans_le tokensOf_syncHarvestMints_le

/-- What an update leaves of the entries of a farmer: every initialised
mint of the farm has one, no other mint has, the rest is empty, and no
entry that stays lost tokens. -/
structure InSync (farm : Farm) (l l' : List AvailableHarvest) : Prop where
  slots : l'.length = MAX_HARVEST_MINTS
  once : ∀ h ∈ farm.harvests, h.mint ≠ default → l'.countP (fun a => a.mint = h.mint) = 1
  others : ∀ a ∈ l', a.mint ≠ default → ∃ h ∈ farm.harvests, h.mint = a.mint
  free : ∀ a ∈ l', a.mint = default → a.tokens = 0
  kept : ∀ a ∈ l, a.mint ≠ default → (∃ h ∈ farm.harvests, h.mint = a.mint) →
    ∃ a' ∈ l', a'.mint = a.mint ∧ a.tokens ≤ a'.tokens

theorem Refreshes.size_le (h : Refreshes farm f.harvestsMap u)
    (hslots : farm.harvests.length = MAX_HARVEST_MINTS) : u.size ≤ MAX_HARVEST_MINTS :=
  (Maps.size_le_size (fun k hk => (h.keys k).symm.trans hk)).trans
    (farm.size_harvestsMap_le hslots)

theorem Refreshes.tidy (h : Refreshes farm f.harvestsMap u) (hf : Tidy f.harvests)
    (hslots : farm.harvests.length = MAX_HARVEST_MINTS) :
    Tidy (f.setHarvests u.toList).harvests :=
  Farmer.tidy_setHarvests (h.size_le hslots)
    (Nat.le_zero.mp (hf.tokensOf_default ▸ h.free))

/-- **One calculation**, written back. -/
theorem Refreshes.inSync (h : Refreshes farm f.harvestsMap u) (hf : Tidy f.harvests)
    (hslots : farm.harvests.length = MAX_HARVEST_MINTS) :
    InSync farm f.harvests (f.setHarvests u.toList).harvests := by
  have hsize := h.size_le hslots
  have htidy := h.tidy hf hslots
  -- the entry of a mint of the farm
  have hentry : ∀ k, farm.harvestsMap.contains k = true →
      ∃ n, u[k]? = some n ∧ ⟨k, n⟩ ∈ (f.setHarvests u.toList).harvests := by
    intro k hk
    rw [← h.keys, Std.TreeMap.contains_eq_isSome_getElem?] at hk
    obtain ⟨n, hn⟩ := Option.isSome_iff_exists.mp hk
    exact ⟨n, hn, (Farmer.mem_setHarvests hsize).mpr (.inl hn)⟩
  refine ⟨htidy.slots, fun h hh hne => ?_, fun a ha hne => ?_, htidy.free,
    fun a ha hne hmint => ?_⟩
  · obtain ⟨n, -, hmem⟩ := hentry h.mint (Farm.contains_harvestsMap.mpr ⟨h, hh, rfl⟩)
    exact htidy.distinct.count_eq_one hmem hne
  · rcases (Farmer.mem_setHarvests hsize).mp ha with ha | ⟨rfl, -⟩
    · rw [← Farm.contains_harvestsMap, ← h.keys, Std.TreeMap.contains_eq_isSome_getElem?, ha]
      rfl
    · exact absurd rfl hne
  · have hk := Farm.contains_harvestsMap.mpr hmint
    obtain ⟨n, hn, hmem⟩ := hentry a.mint hk
    have hle := h.tokens a.mint hk
    rw [tokensOf_of_getElem? (hf.getElem?_harvestsMap ha), tokensOf_of_getElem? hn] at hle
    exact ⟨_, hmem, rfl, hle⟩

theorem InSync.trans {l'' : List AvailableHarvest} (h : InSync farm l l')
    (h' : InSync farm l' l'') : InSync farm l l'' where
  slots := h'.slots
  once := h'.once
  others := h'.others
  free := h'.free
  kept a ha hne hmint := by
    obtain ⟨b, hb, hbm, hle⟩ := h.kept a ha hne hmint
    obtain ⟨c, hc, hcm, hle'⟩ := h'.kept b hb (hbm ▸ hne) (hbm ▸ hmint)
    exact ⟨c, hc, hcm.trans hbm, hle.trans hle'⟩

/-- The entries after a check: it calculates once, twice or not at all. -/
structure Kept (farm : Farm) (l l' : List AvailableHarvest) : Prop where
  tidy : Tidy l'
  entries : l' = l ∨ InSync farm l l'

theorem Kept.refl (hl : Tidy l) : Kept farm l l := ⟨hl, .inl rfl⟩

theorem Kept.trans {l'' : List AvailableHarvest} (h : Kept farm l l')
    (h' : Kept farm l' l'') : Kept farm l l'' where
  tidy := h'.tidy
  entries := by
    rcases h.entries with rfl | hs
    · exact h'.entries
    · rcases h'.entries with rfl | hs'
      · exact .inr hs
      · exact .inr (hs.trans hs')

theorem Refreshes.kept (h : Refreshes farm f.harvestsMap u) (hf : Tidy f.harvests)
    (hslots : farm.harvests.length = MAX_HARVEST_MINTS) :
    Kept farm f.harvests (f.setHarvests u.toList).harvests :=
  ⟨h.tidy hf hslots, .inr (h.inSync hf hslots)⟩

namespace Farmer

theorem updateEligibleHarvest_kept (hf : Tidy f.harvests)
    (hslots : farm.harvests.length = MAX_HARVEST_MINTS)
    (h : f.updateEligibleHarvest farm til = .ok f') : Kept farm f.harvests f'.harvests := by
  unfold updateEligibleHarvest at h
  split at h
  · rw [pure_eq_ok] at h
    subst h
    exact .refl hf
  · simp only [bind_eq_ok, pure_eq_ok] at h
    obtain ⟨u, hu, _, -, rfl⟩ := h
    exact (eligibleHarvestUntil_refreshes hu).kept hf hslots

theorem stakeVestedFrom_kept {S : Snapshot} (hf : Tidy f.harvests)
    (hslots : farm.harvests.length = MAX_HARVEST_MINTS)
    (h : f.stakeVestedFrom farm S = .ok f') : Kept farm f.harvests f'.harvests := by
  simp only [stakeVestedFrom, bind_eq_ok, pure_eq_ok] at h
  obtain ⟨_, -, u, hu, _, -, rfl⟩ := h
  exact (eligibleHarvestUntil_refreshes hu).kept hf hslots

/-- **A check** keeps the entries in order. -/
theorem check_kept (hf : Tidy f.harvests) (hslots : farm.harvests.length = MAX_HARVEST_MINTS)
    (h : f.checkVestedPeriodAndUpdateHarvest farm til = .ok f') :
    Kept farm f.harvests f'.harvests := by
  obtain ⟨f₁, hm, hu⟩ := check_eq_ok.mp h
  have hfirst : Kept farm f.harvests f₁.harvests := by
    unfold MaturedIf at hm
    split at hm
    · exact stakeVestedFrom_kept hf hslots hm
    · rw [hm]
      exact .refl hf
  exact hfirst.trans (updateEligibleHarvest_kept hfirst.tidy hslots hu)

end Farmer

end SolanaAmm.Farming
