import SolanaAmm.Farming.Rates
import SolanaAmm.Farming.Shares
import Mathlib.Algebra.BigOperators.Ring.Finset

/-!
# Farming — Harvesting

What crediting a farmer's harvest adds to what they can claim: for every
slot of the credited period at most the tokens released in the slot,
times the farmer's share in the window that the slot belongs to. A check
credits one period, or two when vested tokens mature in between
(`Farmer.credits`).
-/

namespace SolanaAmm.Farming

open Result Decimal Harvest

variable {since til startsAt endsAt : Slot} {staked : TokenAmount} {farmerShare : Decimal}
  {hs : List Harvest} {m : Pubkey} {t : ℕ}

/-! ## All harvests in one window -/

/-- What the histories release of a mint. -/
def ratesOf (histories : TpsHistories) (m : Pubkey) (t : ℕ) : ℕ := ratesAt (histories.getD m []) t

theorem ratesOf_of_getElem? {histories : TpsHistories} {history : List TpsRange}
    (h : histories[m]? = some history) : ratesOf histories m t = ratesAt history t := by
  rw [ratesOf, Std.TreeMap.getD_eq_getD_getElem?, h]
  rfl

theorem ratesOf_insert {histories : TpsHistories} {history : List TpsRange} {m' : Pubkey} :
    ratesOf (histories.insert m' history) m t
      = if m' = m then ratesAt history t else ratesOf histories m t := by
  unfold ratesOf
  rw [Std.TreeMap.getD_insert]
  simp only [Std.LawfulEqCmp.compare_eq_iff_eq]
  split <;> rfl

/-- One harvest adds to its own mint only. -/
theorem harvestWindow_le {histories histories' : TpsHistories} {harvests harvests' : Harvested}
    {harvest : Harvest}
    (h : harvestWindow startsAt endsAt farmerShare (histories, harvests) harvest
      = .ok (histories', harvests')) :
    (∀ m t, ratesOf histories' m t ≤ ratesOf histories m t)
    ∧ ∀ m, tokensOf harvests' m * wad ≤ tokensOf harvests m * wad
      + if harvest.mint = m then
          farmerShare.raw * ∑ t ∈ Finset.Ico startsAt.val (endsAt.val + 1), ratesOf histories m t
        else 0 := by
  simp only [harvestWindow, bind_eq_ok, okOr_eq_ok, Prod.exists, pure_eq_ok, Prod.mk.injEq,
    tryFloor_eq_ok, Word.checkedAdd_eq_some] at h
  obtain ⟨history, hhistory, e, history', hpop, tokens, htokens, sum, hsum, rfl, rfl⟩ := h
  obtain ⟨hsuffix, hle⟩ := popHistory_le le_rfl hpop
  rw [zero_raw, Nat.zero_add] at hle
  constructor
  · intro m t
    rw [ratesOf_insert]
    split
    · rename_i hm
      subst hm
      rw [ratesOf_of_getElem? hhistory]
      exact ratesAt_suffix_le hsuffix
    · exact Nat.le_refl _
  · intro m
    rw [tokensOf_insert]
    split
    · rename_i hm
      subst hm
      have hfloor : tokens.val * wad ≤ e.raw := by
        rw [htokens]
        exact Nat.div_mul_le_self _ _
      have hrates : ∑ t ∈ Finset.Ico startsAt.val (endsAt.val + 1),
            ratesOf histories harvest.mint t
          = ∑ t ∈ Finset.Ico startsAt.val (endsAt.val + 1), ratesAt history t :=
        Finset.sum_congr rfl (fun t _ => ratesOf_of_getElem? hhistory)
      have hsum : sum.val = tokensOf harvests harvest.mint + tokens.val := hsum
      rw [hsum, hrates, Nat.add_mul]
      exact Nat.add_le_add_left (hfloor.trans hle) _
    · exact Nat.le_add_right _ _

/-- All harvests of the farm, each of another mint. -/
theorem harvestWindows_le {acc acc' : TpsHistories × Harvested}
    (hnodup : (hs.map Harvest.mint).Nodup)
    (h : hs.foldlM (harvestWindow startsAt endsAt farmerShare) acc = .ok acc') :
    (∀ m t, ratesOf acc'.1 m t ≤ ratesOf acc.1 m t)
    ∧ ∀ m, tokensOf acc'.2 m * wad ≤ tokensOf acc.2 m * wad
      + if m ∈ hs.map Harvest.mint then
          farmerShare.raw * ∑ t ∈ Finset.Ico startsAt.val (endsAt.val + 1), ratesOf acc.1 m t
        else 0 := by
  induction hs generalizing acc with
  | nil =>
      rw [List.foldlM_nil, pure_eq_ok] at h
      subst h
      exact ⟨fun _ _ => Nat.le_refl _, fun _ => Nat.le_add_right _ _⟩
  | cons harvest hs ih =>
      rw [List.foldlM_cons, bind_eq_ok] at h
      obtain ⟨acc₁, hwindow, h⟩ := h
      rw [List.map_cons, List.nodup_cons] at hnodup
      obtain ⟨hrates₁, htokens₁⟩ := harvestWindow_le hwindow
      obtain ⟨hrates, htokens⟩ := ih hnodup.2 h
      refine ⟨fun m t => (hrates m t).trans (hrates₁ m t), fun m => ?_⟩
      have h₁ := htokens₁ m
      have h₂ := htokens m
      by_cases hm : harvest.mint = m
      · -- the rest of the loop leaves this mint alone
        subst hm
        rw [if_neg hnodup.1, Nat.add_zero] at h₂
        rw [if_pos rfl] at h₁
        rw [List.map_cons, if_pos List.mem_cons_self]
        exact h₂.trans h₁
      · rw [if_neg hm, Nat.add_zero] at h₁
        have hsum : farmerShare.raw * ∑ t ∈ Finset.Ico startsAt.val (endsAt.val + 1),
              ratesOf acc₁.1 m t
            ≤ farmerShare.raw * ∑ t ∈ Finset.Ico startsAt.val (endsAt.val + 1),
              ratesOf acc.1 m t :=
          Nat.mul_le_mul_left _ (Finset.sum_le_sum (fun t _ => hrates₁ m t))
        by_cases hmem : m ∈ hs.map Harvest.mint
        · rw [if_pos hmem] at h₂
          rw [List.map_cons, if_pos (List.mem_cons_of_mem _ hmem)]
          exact h₂.trans (Nat.add_le_add h₁ hsum)
        · rw [if_neg hmem, Nat.add_zero] at h₂
          rw [List.map_cons, if_neg (fun h => (List.mem_cons.mp h).elim (Ne.symm hm) hmem),
            Nat.add_zero]
          exact h₂.trans h₁

/-! ## All windows -/

/-- The share of a stake in the window that a slot belongs to. -/
def shareAt (ws : List Snapshot) (stake t : ℕ) : ℕ :=
  (ws.find? (fun w => w.startedAt.val ≤ t)).elim 0 (fun w => share w stake)

theorem shareAt_cons_of_le {w : Snapshot} {ws : List Snapshot} {stake : ℕ}
    (h : w.startedAt.val ≤ t) : shareAt (w :: ws) stake t = share w stake := by
  rw [shareAt, List.find?_cons_of_pos (by simpa using h)]
  rfl

theorem shareAt_cons_of_lt {w : Snapshot} {ws : List Snapshot} {stake : ℕ}
    (h : t < w.startedAt.val) : shareAt (w :: ws) stake t = shareAt ws stake t := by
  rw [shareAt, List.find?_cons_of_neg (by simpa using h)]
  rfl

/-- One window, from its snapshot or the first credited slot on. -/
theorem harvestSnapshot_le {loop loop' : WindowLoop} {w : Snapshot}
    (hnodup : (hs.map Harvest.mint).Nodup)
    (h : harvestSnapshot hs since staked loop w = .ok loop') :
    loop'.oldestSlotToSkip = w.startedAt
    ∧ (∀ m t, ratesOf loop'.histories m t ≤ ratesOf loop.histories m t)
    ∧ ∀ m, tokensOf loop'.farmerHarvests m * wad ≤ tokensOf loop.farmerHarvests m * wad
      + share w staked.val * ∑ t ∈ Finset.Ico (max w.startedAt.val since.val)
          loop.oldestSlotToSkip.val, ratesOf loop.histories m t := by
  unfold harvestSnapshot at h
  split at h
  · rw [pure_eq_ok] at h
    subst h
    exact ⟨rfl, fun _ _ => Nat.le_refl _, fun _ => Nat.le_add_right _ _⟩
  · simp only [bind_eq_ok, Slot.pred_eq_ok, pure_eq_ok] at h
    obtain ⟨endsAt, ⟨hpos, hends⟩, d, hd, ⟨histories, harvests⟩, hfold, rfl⟩ := h
    obtain ⟨hrates, htokens⟩ := harvestWindows_le hnodup hfold
    refine ⟨rfl, hrates, fun m => (htokens m).trans (Nat.add_le_add_left ?_ _)⟩
    rw [Word.val_max, hends, Nat.sub_add_cancel hpos, tryDiv_eq_share hd]
    split
    · exact Nat.le_refl _
    · exact Nat.zero_le _

/-- **The loop over the snapshots**: every slot counts with the share in
its own window. -/
theorem harvestSnapshots_le {ws : List Snapshot} {loop loop' : WindowLoop}
    (hnodup : (hs.map Harvest.mint).Nodup) (hchron : Farm.Chronological ws)
    (hskip : ∀ w ∈ ws, w.startedAt ≤ loop.oldestSlotToSkip)
    (h : ws.foldlM (harvestSnapshot hs since staked) loop = .ok loop') :
    tokensOf loop'.farmerHarvests m * wad ≤ tokensOf loop.farmerHarvests m * wad
      + ∑ t ∈ Finset.Ico since.val loop.oldestSlotToSkip.val,
          ratesOf loop.histories m t * shareAt ws staked.val t := by
  induction ws generalizing loop with
  | nil =>
      rw [List.foldlM_nil, pure_eq_ok] at h
      subst h
      exact Nat.le_add_right _ _
  | cons w ws ih =>
      rw [List.foldlM_cons, bind_eq_ok] at h
      obtain ⟨loop₁, hw, h⟩ := h
      obtain ⟨holder, hchron⟩ := List.pairwise_cons.mp hchron
      have hle : w.startedAt.val ≤ loop.oldestSlotToSkip.val := hskip w List.mem_cons_self
      obtain ⟨hstart, hrates, htokens⟩ := harvestSnapshot_le hnodup hw
      have hrest := ih hchron (by rw [hstart]; exact holder) h
      rw [hstart] at hrest
      refine hrest.trans ((Nat.add_le_add_right (htokens m) _).trans ?_)
      rw [Nat.add_assoc]
      refine Nat.add_le_add_left ?_ _
      -- the slots of the window of `w`
      have hin : ∀ a, w.startedAt.val ≤ a →
          share w staked.val * ∑ t ∈ Finset.Ico a loop.oldestSlotToSkip.val,
              ratesOf loop.histories m t
            = ∑ t ∈ Finset.Ico a loop.oldestSlotToSkip.val,
              ratesOf loop.histories m t * shareAt (w :: ws) staked.val t := by
        intro a ha
        rw [Finset.mul_sum]
        refine Finset.sum_congr rfl (fun t ht => ?_)
        rw [shareAt_cons_of_le (ha.trans (Finset.mem_Ico.mp ht).1), Nat.mul_comm]
      rcases Nat.le_total since.val w.startedAt.val with hs | hs
      · have hbefore : ∑ t ∈ Finset.Ico since.val w.startedAt.val,
              ratesOf loop₁.histories m t * shareAt ws staked.val t
            ≤ ∑ t ∈ Finset.Ico since.val w.startedAt.val,
              ratesOf loop.histories m t * shareAt (w :: ws) staked.val t := by
          refine Finset.sum_le_sum (fun t ht => ?_)
          rw [shareAt_cons_of_lt (Finset.mem_Ico.mp ht).2]
          exact Nat.mul_le_mul_right _ (hrates m t)
        rw [Nat.max_eq_left hs, hin _ (Nat.le_refl _), Nat.add_comm,
          ← Finset.sum_Ico_consecutive _ hs hle]
        exact Nat.add_le_add_right hbefore _
      · rw [Nat.max_eq_right hs, hin _ hs, Finset.Ico_eq_empty (not_lt.mpr hs), Finset.sum_empty,
          Nat.add_zero]

/-! ## Which snapshots are walked -/

/-- Leaving the uninitialised snapshots out takes shares away at most. -/
theorem shareAt_filter_le {ws : List Snapshot} {stake : ℕ} (hchron : Farm.Chronological ws) :
    shareAt (ws.filter (fun s => 0 < s.startedAt)) stake t ≤ shareAt ws stake t := by
  induction ws with
  | nil => exact Nat.le_refl _
  | cons w ws ih =>
      obtain ⟨holder, hchron⟩ := List.pairwise_cons.mp hchron
      by_cases hpos : 0 < w.startedAt
      · rw [List.filter_cons_of_pos (by simpa using hpos)]
        rcases Nat.lt_or_ge t w.startedAt.val with ht | ht
        · rw [shareAt_cons_of_lt ht, shareAt_cons_of_lt ht]
          exact ih hchron
        · rw [shareAt_cons_of_le ht, shareAt_cons_of_le ht]
      · -- no older snapshot is initialised either
        have hnil : ws.filter (fun s => 0 < s.startedAt) = [] := by
          rw [List.filter_eq_nil_iff]
          intro s hs
          rw [decide_eq_true_eq, not_lt]
          exact (holder s hs).trans (not_lt.mp hpos)
        rw [List.filter_cons_of_neg (by simpa using hpos), hnil]
        exact Nat.zero_le _

theorem shareAt_prefix_le {ws ws' : List Snapshot} {stake : ℕ} (h : ws' <+: ws) :
    shareAt ws' stake t ≤ shareAt ws stake t := by
  obtain ⟨rest, rfl⟩ := h
  unfold shareAt
  rw [List.find?_append]
  cases ws'.find? (fun w => w.startedAt.val ≤ t) with
  | none => exact Nat.zero_le _
  | some w => exact Nat.le_refl _

/-- Snapshots after the slot do not matter for it. -/
theorem shareAt_dropWhile {ws : List Snapshot} {stake : ℕ} (ht : t ≤ til.val) :
    shareAt (ws.dropWhile (fun s => til < s.startedAt)) stake t = shareAt ws stake t := by
  induction ws with
  | nil => rfl
  | cons w ws ih =>
      by_cases hw : til < w.startedAt
      · rw [List.dropWhile_cons_of_pos (by simpa using hw),
          shareAt_cons_of_lt (ht.trans_lt (Word.lt_def.mp hw)), ih]
      · rw [List.dropWhile_cons_of_neg (by simpa using hw)]

theorem startedAt_le_of_mem_dropWhile {ws : List Snapshot} {w : Snapshot}
    (hchron : Farm.Chronological ws)
    (hw : w ∈ ws.dropWhile (fun s => til < s.startedAt)) : w.startedAt ≤ til := by
  induction ws with
  | nil => cases hw
  | cons v ws ih =>
      obtain ⟨holder, hchron⟩ := List.pairwise_cons.mp hchron
      by_cases hv : til < v.startedAt
      · rw [List.dropWhile_cons_of_pos (by simpa using hv)] at hw
        exact ih hchron hw
      · rw [List.dropWhile_cons_of_neg (by simpa using hv)] at hw
        rcases List.mem_cons.mp hw with rfl | hw
        · exact not_lt.mp hv
        · exact (holder w hw).trans (not_lt.mp hv)

/-! ## The credited period -/

/-- What a map of harvests releases of a mint. -/
def rateOf (farmHarvests : BTreeMap Harvest) (m : Pubkey) (t : ℕ) : ℕ :=
  farmHarvests[m]?.elim 0 (fun h => h.rateAt t)

/-- **Crediting a period** adds, for every slot of it, at most the share of
what is released in the slot. -/
theorem eligibleHarvestUntil_le {farmHarvests : BTreeMap Harvest} {ws : List Snapshot}
    {harvests out : Harvested}
    (hmint : ∀ (k : Pubkey) (h : Harvest), farmHarvests[k]? = some h → h.mint = k)
    (hchron : Farm.Chronological ws)
    (hstarted : ∀ w ∈ ws, w.startedAt ≤ til)
    (h : eligibleHarvestUntil farmHarvests ws harvests (since, til) staked = .ok out) :
    tokensOf out m * wad ≤ tokensOf harvests m * wad
      + ∑ t ∈ Finset.Ico since.val (til.val + 1),
        rateOf farmHarvests m t * shareAt ws staked.val t := by
  unfold eligibleHarvestUntil at h
  split at h
  · rw [pure_eq_ok] at h
    rw [h]
    exact Nat.le_add_right _ _
  · simp only [bind_eq_ok, Slot.succ_eq_ok, mapM_eq_ok, pure_eq_ok] at h
    obtain ⟨skip, hskip, histories, hhistories, loop, hloop, rfl⟩ := h
    have hnodup : ((farmHarvests.values.filter (fun h : Harvest => h.mint ≠ default)).map
        Harvest.mint).Nodup := by
      have hkeys : farmHarvests.values.map Harvest.mint = farmHarvests.toList.map Prod.fst := by
        rw [Maps.values_eq, List.map_map]
        refine List.map_congr_left ?_
        rintro ⟨k, h⟩ hkh
        exact hmint k h (Maps.mem_toList.mp hkh)
      exact (hkeys ▸ Maps.keys_nodup farmHarvests).sublist ((List.filter_sublist).map _)
    have hsnaps := harvestSnapshots_le (m := m) hnodup
      (hchron.sublist (List.filter_sublist (p := fun s => 0 < s.startedAt)))
      (fun w hw => ?_) hloop
    · refine hsnaps.trans (Nat.add_le_add_left ?_ _)
      rw [hskip]
      refine Finset.sum_le_sum (fun t _ => Nat.mul_le_mul ?_ (shareAt_filter_le hchron))
      -- the histories are those of the harvests
      unfold ratesOf
      rw [Std.TreeMap.getD_eq_getD_getElem?]
      cases hm : (Std.TreeMap.ofList histories : TpsHistories)[m]? with
      | none => exact Nat.zero_le _
      | some history =>
          obtain ⟨⟨k, harvest⟩, hmem, history', htps, heq⟩ :=
            Lists.forall₂_exists_right hhistories.flip (Maps.mem_of_getElem?_ofList hm)
          obtain ⟨rfl, rfl⟩ := Prod.mk.inj heq
          rw [rateOf, Maps.mem_toList.mp hmem]
          exact ratesAt_tpsHistory_le htps
    · have := hstarted w (List.mem_filter.mp hw).1
      rw [Word.le_def] at this ⊢
      show w.startedAt.val ≤ skip.val
      omega

/-! ## Of a farmer -/

/-- What a farm releases of a mint in a slot. -/
def Farm.rateAt (farm : Farm) (m : Pubkey) (t : ℕ) : ℕ :=
  ((farm.harvests.filter (fun h => h.mint = m)).map (fun h => h.rateAt t)).sum

theorem Farm.harvestsMap_mint {farm : Farm} {k : Pubkey} {h : Harvest}
    (hk : farm.harvestsMap[k]? = some h) : h ∈ farm.harvests ∧ h.mint = k := by
  obtain ⟨a, ha, heq⟩ := List.mem_map.mp (Maps.mem_of_getElem?_ofList hk)
  obtain ⟨rfl, rfl⟩ := Prod.mk.inj heq
  exact ⟨ha, rfl⟩

theorem Farm.rateOf_harvestsMap_le {farm : Farm} :
    rateOf farm.harvestsMap m t ≤ farm.rateAt m t := by
  unfold rateOf
  cases h : farm.harvestsMap[m]? with
  | none => exact Nat.zero_le _
  | some harvest =>
      obtain ⟨hmem, hm⟩ := Farm.harvestsMap_mint h
      exact List.le_sum_of_mem
        (List.mem_map_of_mem (List.mem_filter.mpr ⟨hmem, by simpa using hm⟩))

/-- A period of slots credited with one stake. -/
structure Credit where
  since : ℕ
  /-- The slot after the last one. -/
  stop : ℕ
  stake : ℕ

/-- The most that a credited period is worth, in `10 ^ -18` tokens. -/
def Credit.worth (farm : Farm) (m : Pubkey) (c : Credit) : ℕ :=
  ∑ t ∈ Finset.Ico c.since c.stop, farm.rateAt m t * shareAt farm.windows c.stake t

namespace Farmer

variable {f f₁ f' : Farmer} {farm : Farm}

/-- **The harvest of a farmer** until a slot. -/
theorem eligibleHarvestUntil_le {out : Harvested} (hchron : Farm.Chronological farm.windows)
    (h : f.eligibleHarvestUntil farm til = .ok out) :
    tokensOf out m * wad ≤ f.unclaimed m * wad
      + Credit.worth farm m ⟨f.calculateNextHarvestFrom.val, til.val + 1, f.staked.val⟩ := by
  unfold eligibleHarvestUntil at h
  rw [Farm.getWindowSnapshotsEligibleToHarvest_eq] at h
  have htake := List.take_prefix ((farm.after f.calculateNextHarvestFrom).length + 1) farm.windows
  have hchron' := hchron.sublist htake.sublist
  refine (Farming.eligibleHarvestUntil_le (m := m) (fun k h hk => (Farm.harvestsMap_mint hk).2)
    (hchron'.sublist (List.dropWhile_sublist _))
    (fun w hw => startedAt_le_of_mem_dropWhile hchron' hw) h).trans ?_
  refine Nat.add_le_add (Nat.mul_le_mul_right _ ?_) (Finset.sum_le_sum (fun t ht => ?_))
  · exact tokensOf_syncHarvestMints_le.trans tokensOf_harvestsMap_le
  · rw [shareAt_dropWhile (Nat.lt_succ_iff.mp (Finset.mem_Ico.mp ht).2)]
    exact Nat.mul_le_mul Farm.rateOf_harvestsMap_le (shareAt_prefix_le htake)

/-- What `updateEligibleHarvest` credits. -/
def creditsUntil (cursor til : Slot) (stake : ℕ) : List Credit :=
  if til ≤ cursor then [] else [⟨cursor.val, til.val + 1, stake⟩]

/-- What a check credits: the slots before vested tokens mature with the
staked tokens, and those after it with both. -/
def credits (f : Farmer) (farm : Farm) (til : Slot) : List Credit :=
  match f.matureSnapshot farm with
  | some S => ⟨f.calculateNextHarvestFrom.val, S.startedAt.val, f.staked.val⟩
      :: creditsUntil S.startedAt til f.deposited
  | none => creditsUntil f.calculateNextHarvestFrom til f.staked.val

/-- **The stake of a window**: a slot of it that a check credits is credited
with what `stakeIn` says. -/
theorem credits_stakeIn {newer older : List Snapshot} {w : Snapshot} {c : Credit} {t : ℕ}
    (hchron : Farm.Chronological farm.windows) (hw : farm.windows = newer ++ w :: older)
    (hle : w.startedAt.val ≤ t) (hnewer : ∀ n ∈ newer, t < n.startedAt.val)
    (hc : c ∈ f.credits farm til) (hsince : c.since ≤ t) (hstop : t < c.stop) :
    c.stake = f.stakeIn farm newer w := by
  -- an update from a cursor up to the slot reaches the window
  have hreaches : f.calculateNextHarvestFrom.val ≤ t → f.Reaches newer :=
    fun hcur n hn => hcur.trans_lt (hnewer n hn)
  unfold credits at hc
  unfold stakeIn
  cases hS : f.matureSnapshot farm with
  | some S =>
      rw [hS] at hc
      have hmem := Farm.firstSnapshotAfter_mem (matureSnapshot_eq_some.mp hS).2
      rcases List.mem_cons.mp hc with rfl | hc
      · have hbefore : ¬ S.startedAt ≤ w.startedAt :=
          fun hSw => absurd ((Word.le_def.mp hSw).trans hle) (not_le.mpr hstop)
        exact ((if_neg hbefore).trans (if_pos (hreaches hsince))).symm
      · unfold creditsUntil at hc
        split at hc
        · cases hc
        · obtain rfl := List.mem_singleton.mp hc
          exact (if_pos (hchron.le_window hw hmem hsince hnewer)).symm
  | none =>
      rw [hS] at hc
      dsimp only [creditsUntil] at hc
      split at hc
      · cases hc
      · obtain rfl := List.mem_singleton.mp hc
        exact (if_pos (hreaches hsince)).symm

theorem unclaimed_updateEligibleHarvest_le (hchron : Farm.Chronological farm.windows)
    (h : f.updateEligibleHarvest farm til = .ok f') :
    f'.unclaimed m * wad ≤ f.unclaimed m * wad
      + ((creditsUntil f.calculateNextHarvestFrom til f.staked.val).map
        (Credit.worth farm m)).sum := by
  unfold updateEligibleHarvest at h
  unfold creditsUntil
  split at h
  · rw [pure_eq_ok] at h
    rw [h]
    exact Nat.le_add_right _ _
  · rename_i hgt
    simp only [bind_eq_ok, pure_eq_ok] at h
    obtain ⟨out, hout, next, -, rfl⟩ := h
    rw [if_neg hgt, List.map_singleton, List.sum_singleton]
    exact (Nat.mul_le_mul_right _ (unclaimed_setHarvests_le (f := f))).trans
      (eligibleHarvestUntil_le hchron hout)

theorem unclaimed_stakeVestedFrom_le {S : Snapshot} (hchron : Farm.Chronological farm.windows)
    (h : f.stakeVestedFrom farm S = .ok f') :
    f'.unclaimed m * wad ≤ f.unclaimed m * wad
      + Credit.worth farm m ⟨f.calculateNextHarvestFrom.val, S.startedAt.val, f.staked.val⟩ := by
  simp only [stakeVestedFrom, bind_eq_ok, Slot.pred_eq_ok, pure_eq_ok] at h
  obtain ⟨til, ⟨hpos, htil⟩, out, hout, _, -, rfl⟩ := h
  have hle := eligibleHarvestUntil_le (m := m) hchron hout
  rw [htil, Nat.sub_add_cancel hpos] at hle
  exact (Nat.mul_le_mul_right _ (unclaimed_setHarvests_le (f := f))).trans hle

/-- **A check** adds at most what the credited periods are worth. -/
theorem unclaimed_check_le (hchron : Farm.Chronological farm.windows)
    (h : f.checkVestedPeriodAndUpdateHarvest farm til = .ok f') :
    f'.unclaimed m * wad ≤ f.unclaimed m * wad
      + ((f.credits farm til).map (Credit.worth farm m)).sum := by
  obtain ⟨f₁, hm, hu⟩ := check_eq_ok.mp h
  have hu := unclaimed_updateEligibleHarvest_le (m := m) hchron hu
  unfold credits
  unfold MaturedIf at hm
  cases hS : f.matureSnapshot farm with
  | some S =>
      rw [hS] at hm
      have hmat := stakeVestedFrom_ok hm
      have hm := unclaimed_stakeVestedFrom_le (m := m) hchron hm
      rw [hmat.cursor, hmat.staked] at hu
      simp only [List.map_cons, List.sum_cons]
      rw [← Nat.add_assoc]
      exact hu.trans (Nat.add_le_add_right hm _)
  | none =>
      rw [hS] at hm
      rw [hm] at hu
      exact hu

end Farmer

end SolanaAmm.Farming
