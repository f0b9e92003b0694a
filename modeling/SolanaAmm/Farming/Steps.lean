import SolanaAmm.Farming.Effects

/-!
# Farming — Steps

Every successful step is a harvest followed by an act (`step_ok`), endpoint
by endpoint, and keeps the vaults in custody (`step_custody`).
-/

namespace SolanaAmm.Farming

open Result Token

variable {env : Env} {s s₁ s' : FarmingState} {act : Act}

namespace FarmingState

variable {k : FarmerKey} {f f' : Farmer} {l : Ledger Address Pubkey}

theorem setFarmer_setFarmer : (s.setFarmer k f).setFarmer k f' = s.setFarmer k f' := by
  unfold setFarmer
  rw [AList.insert_insert]

theorem setFarmer_twice :
    (((s.setFarmer k f).setLedger l).setFarmer k f') = (s.setLedger l).setFarmer k f' := by
  unfold setFarmer setLedger
  rw [AList.insert_insert]

end FarmingState

open FarmingState

theorem transferred (hp : env.tokenProgram.Lawful) {l l' : Ledger Address Pubkey}
    {src dst authority : Address} {n : TokenAmount}
    (h : transfer env l src dst authority n = .ok l') :
    Transferred l l' src dst authority n :=
  hp.transfer_ok (okOr_eq_ok.mp h)

/-! ## Farms and their settings -/

section Farms

variable {admin F m : Pubkey}

theorem createFarm_ok (hp : env.tokenProgram.Lawful) (h : createFarm env s admin F m = .ok s') :
    Acts .other s s' := by
  simp only [createFarm, bind_eq_ok, ensure_eq_ok, okOr_eq_ok, pure_eq_ok,
    Option.isNone_iff_eq_none] at h
  obtain ⟨-, hnew, _, -, l', hinit, rfl⟩ := h
  exact .createFarm hnew (hp.initializeAccount_ok hinit)

theorem setFarmOwner_ok {newAdmin : Pubkey} (h : setFarmOwner s admin newAdmin F = .ok s') :
    Acts .other s s' := by
  simp only [setFarmOwner, farm, bind_eq_ok, ensure_eq_ok, okOr_eq_ok, pure_eq_ok] at h
  obtain ⟨farm, hfarm, -, -, rfl⟩ := h
  exact .settings hfarm ⟨rfl, rfl, rfl, rfl⟩

theorem setMinSnapshotWindow_ok {n : U64} (h : setMinSnapshotWindow s admin F n = .ok s') :
    Acts .other s s' := by
  simp only [setMinSnapshotWindow, farm, bind_eq_ok, ensure_eq_ok, okOr_eq_ok,
    pure_eq_ok] at h
  obtain ⟨farm, hfarm, -, -, rfl⟩ := h
  exact .settings hfarm ⟨rfl, rfl, rfl, rfl⟩

theorem whitelistFarmForCompounding_ok {G : Pubkey}
    (h : whitelistFarmForCompounding s admin F G = .ok s') : Acts .other s s' := by
  simp only [whitelistFarmForCompounding, bind_eq_ok, pure_eq_ok] at h
  obtain ⟨_, -, -, -, _, -, -, -, rfl⟩ := h
  exact .whitelist

theorem dewhitelistFarmForCompounding_ok {G : Pubkey}
    (h : dewhitelistFarmForCompounding s admin F G = .ok s') : Acts .other s s' := by
  simp only [dewhitelistFarmForCompounding, bind_eq_ok, pure_eq_ok] at h
  obtain ⟨_, -, _, -, _, -, -, -, rfl⟩ := h
  exact .whitelist

theorem addHarvest_ok (hp : env.tokenProgram.Lawful) (h : addHarvest env s admin F m = .ok s') :
    Acts .other s s' := by
  simp only [addHarvest, farm, bind_eq_ok, ensure_eq_ok, okOr_eq_ok, pure_eq_ok] at h
  obtain ⟨_, -, -, -, farm, hfarm, -, -, farm', hadd, l', hinit, rfl⟩ := h
  exact .addHarvest hfarm hadd (hp.initializeAccount_ok hinit)

theorem removeHarvest_ok (hp : env.tokenProgram.Lawful)
    (h : removeHarvest env s admin F m = .ok s') : Acts .other s s' := by
  simp only [removeHarvest, farm, bind_eq_ok, ensure_eq_ok, okOr_eq_ok, pure_eq_ok] at h
  obtain ⟨_, -, -, -, farm, hfarm, -, -, harvest, hfind, l', hclose, rfl⟩ := h
  exact .removeHarvest hfarm hfind (hp.closeAccount_ok hclose)

end Farms

/-! ## Harvest periods -/

theorem totalTokensEmittedPerPeriod_ok {p : HarvestPeriod} {n : TokenAmount}
    (h : totalTokensEmittedPerPeriod (p.startsAt, p.endsAt) p.tps = .ok n) :
    n.val = p.cost := by
  simp only [totalTokensEmittedPerPeriod, bind_eq_ok, okOr_eq_ok, Word.checkedSub_eq_some,
    Word.checkedAdd_eq_some, Word.checkedMul_eq_some] at h
  obtain ⟨slots, ⟨hle, hslots⟩, slots', hslots', hn⟩ := h
  have hone : (1 : U64).val = 1 := by decide
  rw [hn, hslots', hslots, hone, HarvestPeriod.cost]
  congr 1
  omega

theorem depositedForScheduledLaunch_ok {old : Option HarvestPeriod} {n : TokenAmount}
    (h : depositedForScheduledLaunch old = .ok n) :
    n.val = (old.map HarvestPeriod.cost).getD 0 := by
  cases old with
  | none =>
      rw [depositedForScheduledLaunch, pure_eq_ok] at h
      rw [← h]
      rfl
  | some p => exact totalTokensEmittedPerPeriod_ok h

theorem settlePeriod_ok (hp : env.tokenProgram.Lawful) {l l' : Ledger Address Pubkey}
    (hl : VaultsHeld l) {admin F m : Pubkey} {wallet : Address}
    {walletAmount new deposited : TokenAmount}
    (h : settlePeriod env l admin F m wallet walletAmount new deposited = .ok l') :
    Flow l l' (only (.harvestVault F m) new.val) (only (.harvestVault F m) deposited.val) := by
  unfold settlePeriod at h
  split at h
  · rename_i heq
    rw [Nat.compare_eq_eq] at heq
    rw [pure_eq_ok] at h
    subst h
    rw [heq]
    exact ⟨fun v _ => Nat.le_refl _, fun _ _ _ hh => hh, fun _ _ ha => ha⟩
  · -- the overwritten period cost more
    simp only [bind_eq_ok, okOr_eq_ok, Word.checkedSub_eq_some] at h
    obtain ⟨amount, ⟨hle, ha⟩, ht⟩ := h
    have hflow := flow_of_program (transferred hp ht)
    refine ⟨fun v hv => ?_, hflow.held, hflow.absent⟩
    have hb := hflow.balance v hv
    have hcost : deposited.val = new.val + amount.val := by omega
    rw [hcost, only_add]
    omega
  · simp only [bind_eq_ok, okOr_eq_ok, Word.checkedSub_eq_some, ensure_eq_ok] at h
    obtain ⟨amount, ⟨hle, ha⟩, -, -, ht⟩ := h
    have hflow := flow_of_user hl (transferred hp ht)
    refine ⟨fun v hv => ?_, hflow.held, hflow.absent⟩
    have hb := hflow.balance v hv
    have hcost : new.val = deposited.val + amount.val := by omega
    rw [nothing] at hb
    rw [hcost, only_add]
    omega

theorem farmNewHarvestPeriod_ok {prod : Bool} {farm farm' : Farm} {now startsAt endsAt : Slot}
    {m : Pubkey} {tps : TokenAmount} {old : Option HarvestPeriod} (hnow : now ≤ startsAt)
    (h : farm.newHarvestPeriod prod now m (startsAt, endsAt) tps = .ok (farm', old)) :
    ∃ h h', farm.findHarvest m = some h ∧ farm' = farm.setHarvest m h'
      ∧ Scheduled now h h' ⟨tps, startsAt, endsAt⟩ old := by
  simp only [Farm.newHarvestPeriod, bind_eq_ok, okOr_eq_ok, ensure_eq_ok, not_le] at h
  obtain ⟨harvest, hfind, -, hlt, q, hq, -, hover, h⟩ := h
  have hfollows : ∃ q, harvest.periods.toList.find? (fun p => p.startsAt ≤ now) = some q
      ∧ q.endsAt < startsAt := ⟨q, hq, hover⟩
  split at h
  · rename_i hlater
    simp only [pure_eq_ok, Prod.mk.injEq] at h
    obtain ⟨rfl, rfl⟩ := h
    refine ⟨harvest, _, hfind, rfl, rfl, hnow, hlt, hfollows, fun h => ?_,
      .inl ⟨rfl, hlater, ?_⟩⟩
    · cases h
    · rw [List.Vector.toList_cons, List.Vector.toList_tail]
  · rename_i hstarted
    simp only [bind_eq_ok, pure_eq_ok, Prod.mk.injEq] at h
    obtain ⟨-, -, rfl, rfl⟩ := h
    exact ⟨harvest, _, hfind, rfl, rfl, hnow, hlt, hfollows, fun _ => not_lt.mp hstarted,
      .inr ⟨rfl, rfl⟩⟩

theorem periodStart_ok {now startsAt startsAt' : Slot}
    (h : periodStart now startsAt = .ok startsAt') : now ≤ startsAt' := by
  unfold periodStart at h
  split at h
  · rw [pure_eq_ok] at h
    exact h.le
  · simp only [bind_eq_ok, ensure_eq_ok, pure_eq_ok, not_lt] at h
    obtain ⟨-, hle, rfl⟩ := h
    exact hle

theorem newHarvestPeriod_ok (hp : env.tokenProgram.Lawful) (hc : Custody s)
    {accs : NewHarvestPeriod} {m : Pubkey} {startsAt : Slot} {len : U64} {tps : TokenAmount}
    (h : newHarvestPeriod env s accs m startsAt len tps = .ok s') : Acts .other s s' := by
  simp only [newHarvestPeriod, farm, bind_eq_ok, ensure_eq_ok, okOr_eq_ok, pure_eq_ok,
    Prod.exists] at h
  obtain ⟨wallet, -, _, -, farm, hfarm, -, -, -, -, start, hstart, _, -, stop, -, farm', old,
    hnew, cost, hcost, paid, hpaid, l', hsettle, rfl⟩ := h
  obtain ⟨harvest, harvest', hfind, rfl, hsched⟩ :=
    farmNewHarvestPeriod_ok (periodStart_ok hstart) hnew
  have hflow := settlePeriod_ok hp hc.vaults hsettle
  rw [totalTokensEmittedPerPeriod_ok (p := ⟨tps, start, stop⟩) hcost,
    depositedForScheduledLaunch_ok hpaid] at hflow
  exact .period hfarm hfind hsched hflow

theorem takeSnapshot_ok (hc : Custody s) {F : Pubkey} {vault : Address}
    (h : takeSnapshot s F vault = .ok s') : Acts (.snapshot F) s s' := by
  simp only [takeSnapshot, farm, tokenAccount, bind_eq_ok, ensure_eq_ok, okOr_eq_ok,
    pure_eq_ok] at h
  obtain ⟨account, haccount, farm, hfarm, -, rfl, farm', hsnap, rfl⟩ := h
  rw [(hc.farm F farm hfarm).1] at haccount
  exact .snapshot hfarm (Ledger.balance_of_lookup haccount).symm (Farm.snapped hsnap)

/-! ## Farmers -/

section Farmers

variable {F authority : Pubkey} {k : FarmerKey}

theorem createFarmer_ok (h : createFarmer s authority F = .ok s') : Acts .other s s' := by
  simp only [createFarmer, farm, bind_eq_ok, ensure_eq_ok, okOr_eq_ok, pure_eq_ok,
    Option.isNone_iff_eq_none] at h
  obtain ⟨-, hnew, farm, -, rfl⟩ := h
  refine .createFarmer hnew ⟨rfl, rfl, rfl, fun m => Farmer.unclaimed_eq_zero (fun a ha => ?_)⟩
  rcases List.mem_append.mp (List.mem_of_mem_take ha) with ha | ha
  · rw [List.map_map] at ha
    obtain ⟨h, -, rfl⟩ := List.mem_map.mp ha
    rfl
  · rw [List.eq_of_mem_replicate ha]
    rfl

theorem closeFarmer_ok (h : closeFarmer s authority k = .ok s') : Acts .other s s' := by
  simp only [closeFarmer, farmer, bind_eq_ok, ensure_eq_ok, okOr_eq_ok, pure_eq_ok,
    Farmer.totalDeposited_eq_ok] at h
  obtain ⟨f, hf, -, -, total, htotal, -, rfl, -, hclaimed, rfl⟩ := h
  refine .closeFarmer hf (by rw [← htotal, Word.val_zero]) (fun m => ?_)
  refine Farmer.unclaimed_eq_zero (fun a ha => ?_)
  by_contra hne
  exact hclaimed (List.any_eq_true.mpr ⟨a, ha, by simpa using hne⟩)

/-- The farm a farmer is used with is the one in their address. -/
theorem farmerOf_ok (hc : Custody s) {f : Farmer} {msg : String}
    (h : farmerOf s k F msg = .ok f) : s.farmers.lookup k = some f ∧ F = k.1 := by
  simp only [farmerOf, farmer, bind_eq_ok, okOr_eq_ok, ensure_eq_ok, pure_eq_ok] at h
  obtain ⟨f', hf, -, rfl, rfl⟩ := h
  exact ⟨hf, hc.farmer k f' hf⟩

theorem startFarming_ok (hp : env.tokenProgram.Lawful) (hc : Custody s) {accs : StartFarming}
    {stake : TokenAmount} (h : startFarming env s accs stake = .ok s') :
    ∃ s₁, Harvests s (some (accs.farmer, s.slot)) s₁ ∧ Acts (.deposit accs.farmer) s₁ s' := by
  simp only [startFarming, farm, bind_eq_ok, ensure_eq_ok, okOr_eq_ok, pure_eq_ok] at h
  obtain ⟨f, hf, -, -, farm, hfarm, f₁, hcheck, f₂, hadd, l', ht, rfl⟩ := h
  obtain ⟨hf, hF⟩ := farmerOf_ok hc hf
  rw [hF] at hfarm ht
  refine ⟨s.setFarmer accs.farmer f₁, .check hf hfarm le_rfl hcheck, ?_⟩
  rw [← setFarmer_twice (f := f₁)]
  exact .stake (AList.lookup_insert _) (Farmer.addToVested_ok hadd)
    (flow_of_user hc.vaults (transferred hp ht))

theorem stopFarming_ok (hp : env.tokenProgram.Lawful) {accs : StopFarming}
    {unstakeMax : TokenAmount} (h : stopFarming env s accs unstakeMax = .ok s') :
    ∃ s₁, Harvests s (some (accs.farmer, s.slot)) s₁ ∧ Acts .other s₁ s' := by
  simp only [stopFarming, farm, farmer, bind_eq_ok, ensure_eq_ok, okOr_eq_ok, pure_eq_ok,
    Prod.exists] at h
  obtain ⟨f, hf, -, -, farm, hfarm, f₁, hcheck, f₂, n, hun, l', ht, rfl⟩ := h
  refine ⟨s.setFarmer accs.farmer f₁, .check hf hfarm le_rfl hcheck, ?_⟩
  rw [← setFarmer_twice (f := f₁)]
  exact .unstake (AList.lookup_insert _) (Farmer.unstake_ok hun)
    ((flow_of_program (transferred hp ht)).mono (fun _ => Nat.zero_le _) (fun _ => Nat.le_refl _))

theorem updateEligibleHarvestHandle_ok (hc : Custody s) {til : Slot} (htil : til ≤ s.slot)
    (h : updateEligibleHarvestHandle s F k til = .ok s') :
    ∃ s₁, Harvests s (some (k, til)) s₁ ∧ Acts .other s₁ s' := by
  simp only [updateEligibleHarvestHandle, farm, bind_eq_ok, okOr_eq_ok, pure_eq_ok] at h
  obtain ⟨f, hof, farm, hfarm, f₁, hcheck, rfl⟩ := h
  obtain ⟨hf, rfl⟩ := farmerOf_ok hc hof
  exact ⟨_, .check hf hfarm htil hcheck, .token (Flow.refl _)⟩

/-! ## Claiming and compounding -/

/-- What the loop over the claimed pairs keeps: a mint of the map went to
zero and was paid from its vault, or nothing happened to it. -/
structure Claimed (l : Ledger Address Pubkey) (F : Pubkey) (t : Harvested)
    (acc : Ledger Address Pubkey × Harvested) (paid : Address → ℕ) : Prop where
  flow : Flow l acc.1 nothing paid
  tokens : ∀ m, tokensOf acc.2 m + paid (.harvestVault F m) = tokensOf t m
  others : ∀ v, (∀ m, v ≠ .harvestVault F m) → paid v = 0

theorem claimPair_ok (hp : env.tokenProgram.Lawful) {l : Ledger Address Pubkey} {t : Harvested}
    {acc acc' : Ledger Address Pubkey × Harvested} {pair : Address × Address}
    (hacc : ∃ paid, Claimed l F t acc paid) (h : claimPair env F acc pair = .ok acc') :
    ∃ paid, Claimed l F t acc' paid := by
  obtain ⟨paid, hacc⟩ := hacc
  simp only [claimPair, bind_eq_ok, okOr_eq_ok, ensure_eq_ok] at h
  obtain ⟨account, -, -, hvault, h⟩ := h
  split at h
  · rename_i n hn
    simp only [bind_eq_ok, pure_eq_ok] at h
    obtain ⟨l', ht, rfl⟩ := h
    rw [Option.filter_eq_some_iff] at hn
    have hn := tokensOf_of_getElem? hn.1
    rw [← hvault] at ht
    have hflow : Flow acc.1 l' nothing _ :=
      (flow_of_program (transferred hp ht)).mono (fun _ => Nat.zero_le _) (fun _ => Nat.le_refl _)
    refine ⟨_, hacc.flow.trans hflow, fun m => ?_, fun v hv => ?_⟩
    · have hm := hacc.tokens m
      rw [tokensOf_insert]
      by_cases he : account.mint = m
      · subst he
        rw [if_pos rfl, only_self, Word.val_zero]
        omega
      · rw [if_neg he, only_ne (fun h => he (by cases h; rfl))]
        omega
    · rw [hacc.others v hv, only_ne (hv _)]
  · rw [pure_eq_ok] at h
    subst h
    exact ⟨paid, hacc⟩

theorem claimEligibleHarvest_ok (hp : env.tokenProgram.Lawful) {accounts : List Address}
    (h : claimEligibleHarvest env s authority k accounts = .ok s') : Acts .other s s' := by
  simp only [claimEligibleHarvest, farmer, bind_eq_ok, ensure_eq_ok, okOr_eq_ok, pure_eq_ok,
    Prod.exists] at h
  obtain ⟨f, hf, -, rfl, -, -, l', t, hfold, rfl⟩ := h
  obtain ⟨paid, hpaid⟩ := foldlM_invariant
    (P := fun _ acc => ∃ paid, Claimed s.ledger f.farm f.harvestsMap acc paid)
    (fun _ _ _ _ hacc hstep => claimPair_ok hp hacc hstep) _ [] _ _
    ⟨nothing, Flow.refl _, fun m => Nat.add_zero _, fun _ _ => rfl⟩ hfold
  refine .claim hf (Farmer.sameStake_setHarvests _) (fun m => ?_) hpaid.others hpaid.flow
  show _ + paid (.harvestVault f.farm m) ≤ _
  have hle := Farmer.unclaimed_setHarvests_le (f := f) (t := t) (m := m)
  have htokens : tokensOf t m + paid (.harvestVault f.farm m) = tokensOf f.harvestsMap m :=
    hpaid.tokens m
  have hmap := Farmer.tokensOf_harvestsMap_le (f := f) (m := m)
  omega

theorem claimHarvest_ok {f f' : Farmer} {m : Pubkey} {n : TokenAmount}
    (h : f.claimHarvest m = .ok (f', n)) :
    f' = f.setHarvestTokens m 0 ∧ ∃ h, f.findHarvest m = some h ∧ h.tokens = n := by
  simp only [Farmer.claimHarvest, bind_eq_ok, okOr_eq_ok, pure_eq_ok, Prod.mk.injEq] at h
  obtain ⟨h, hfind, rfl, rfl⟩ := h
  exact ⟨rfl, h, hfind, rfl⟩

/-- The mint of a farm's stake vault is the stake mint. -/
theorem Custody.stakeMint (hc : Custody s) {farm : Farm} (hfarm : s.farms.lookup F = some farm)
    {a : TokenAccount Address Pubkey} (ha : s.ledger.accounts.lookup (.stakeVault F) = some a) :
    a.mint = farm.stakeMint := by
  obtain ⟨b, hb, hmint, -⟩ := (hc.farm F farm hfarm).2
  rw [ha] at hb
  cases hb
  exact hmint

theorem compoundSameFarm_ok (hp : env.tokenProgram.Lawful) (hc : Custody s)
    {accs : CompoundSameFarm} (h : compoundSameFarm env s accs = .ok s') :
    ∃ s₁, Harvests s (some (accs.farmer, s.slot)) s₁ ∧ Acts (.deposit accs.farmer) s₁ s' := by
  simp only [compoundSameFarm, farm, tokenAccount, bind_eq_ok, ensure_eq_ok, okOr_eq_ok,
    pure_eq_ok, Prod.exists] at h
  obtain ⟨_, -, stakeVault, hstake, harvestVault, -, -, hmint, -, hvault, f, hf, farm, hfarm,
    f₁, hcheck, f₂, n, hclaim, f₃, hadd, l', ht, rfl⟩ := h
  obtain ⟨hf, hF⟩ := farmerOf_ok hc hf
  obtain ⟨rfl, hfind⟩ := claimHarvest_ok hclaim
  rw [hmint, hc.stakeMint hfarm hstake] at hvault
  rw [hF] at hfarm ht hvault
  rw [hvault] at ht
  refine ⟨s.setFarmer accs.farmer f₁, .check hf hfarm le_rfl hcheck, ?_⟩
  have hacts := Acts.compound (s := s.setFarmer accs.farmer f₁) (AList.lookup_insert _) hfind
    (AList.lookup_insert _) (Farmer.addToVested_ok hadd) (flow_of_program (transferred hp ht))
  rwa [setFarmer_setFarmer, setFarmer_twice] at hacts

theorem compoundAcrossFarms_ok (hp : env.tokenProgram.Lawful) (hc : Custody s)
    {accs : CompoundAcrossFarms} (h : compoundAcrossFarms env s accs = .ok s') :
    ∃ s₁, Harvests s (some (accs.sourceFarmer, s.slot)) s₁
      ∧ Acts (.deposit accs.targetFarmer) s₁ s' := by
  simp only [compoundAcrossFarms, farm, farmer, tokenAccount, bind_eq_ok, ensure_eq_ok,
    okOr_eq_ok, pure_eq_ok, Prod.exists] at h
  obtain ⟨-, hne, _, -, stakeVault, hstake, harvestVault, -, -, hmint, -, hvault, f, hf, g, hg,
    -, -, -, hsource, -, htarget, farm, hfarm, target, htargetFarm, f₁, hcheck, f₂, n, hclaim,
    g', hadd, l', ht, rfl⟩ := h
  obtain ⟨rfl, hfind⟩ := claimHarvest_ok hclaim
  have hsource := hsource.symm.trans (hc.farmer _ f hf)
  have htarget := htarget.symm.trans (hc.farmer _ g hg)
  have hkeys : accs.targetFarmer ≠ accs.sourceFarmer := fun he =>
    hne (htarget.trans ((congrArg Prod.fst he).trans hsource.symm))
  rw [hmint, hc.stakeMint htargetFarm hstake] at hvault
  rw [hvault, hsource, htarget] at ht
  rw [hsource] at hfarm
  refine ⟨s.setFarmer accs.sourceFarmer f₁, .check hf hfarm le_rfl hcheck, ?_⟩
  rw [← setFarmer_twice (f := f₁)]
  refine .compound (s := s.setFarmer accs.sourceFarmer f₁) (AList.lookup_insert _) hfind ?_
    (Farmer.addToVested_ok hadd) (flow_of_program (transferred hp ht))
  exact (AList.lookup_insert_ne hkeys).trans ((AList.lookup_insert_ne hkeys).trans hg)

theorem airdrop_ok (hp : env.tokenProgram.Lawful) (hc : Custody s) {accs : Airdrop}
    {amount : TokenAmount} (h : airdrop env s accs amount = .ok s') : Acts .other s s' := by
  simp only [airdrop, farmer, bind_eq_ok, ensure_eq_ok, okOr_eq_ok, pure_eq_ok,
    Word.checkedAdd_eq_some] at h
  obtain ⟨f, hf, wallet, -, -, -, harvest, hfind, tokens, htokens, l', ht, rfl⟩ := h
  rw [hc.farmer _ f hf] at ht
  exact .airdrop hf hfind htokens (flow_of_user hc.vaults (transferred hp ht))

end Farmers

/-! ## The step -/

/-- **The step**: a successful instruction first credits a farmer's harvest,
if it does, and then acts. -/
theorem step_ok (hp : env.tokenProgram.Lawful) (hc : Custody s) {i : Instr}
    (h : step env s i = .ok s') :
    ∃ s₁, Harvests s (i.harvests s.slot) s₁ ∧ Acts i.act s₁ s' := by
  cases i with
  | createFarm admin F m => exact ⟨s, .none, createFarm_ok hp h⟩
  | addHarvest admin F m => exact ⟨s, .none, addHarvest_ok hp h⟩
  | removeHarvest admin F m => exact ⟨s, .none, removeHarvest_ok hp h⟩
  | setFarmOwner admin newAdmin F => exact ⟨s, .none, setFarmOwner_ok h⟩
  | newHarvestPeriod accs m startsAt len tps => exact ⟨s, .none, newHarvestPeriod_ok hp hc h⟩
  | takeSnapshot F vault => exact ⟨s, .none, takeSnapshot_ok hc h⟩
  | setMinSnapshotWindow admin F n => exact ⟨s, .none, setMinSnapshotWindow_ok h⟩
  | createFarmer authority F => exact ⟨s, .none, createFarmer_ok h⟩
  | closeFarmer authority k => exact ⟨s, .none, closeFarmer_ok h⟩
  | startFarming accs stake => exact startFarming_ok hp hc h
  | stopFarming accs unstakeMax => exact stopFarming_ok hp h
  | updateEligibleHarvest F k => exact updateEligibleHarvestHandle_ok hc le_rfl h
  | updateEligibleHarvestUntil F k til =>
      exact updateEligibleHarvestHandle_ok hc (min_le_left _ _) h
  | claimEligibleHarvest authority k accounts =>
      exact ⟨s, .none, claimEligibleHarvest_ok hp h⟩
  | whitelistFarmForCompounding admin F G =>
      exact ⟨s, .none, whitelistFarmForCompounding_ok h⟩
  | dewhitelistFarmForCompounding admin F G =>
      exact ⟨s, .none, dewhitelistFarmForCompounding_ok h⟩
  | compoundSameFarm accs => exact compoundSameFarm_ok hp hc h
  | compoundAcrossFarms accs => exact compoundAcrossFarms_ok hp hc h
  | airdrop accs amount => exact ⟨s, .none, airdrop_ok hp hc h⟩
  | tick slot =>
      simp only [step, bind_eq_ok, ensure_eq_ok, pure_eq_ok] at h
      obtain ⟨-, hle, rfl⟩ := h
      exact ⟨s, .none, .tick hle⟩
  | token op =>
      simp only [step, bind_eq_ok, ensure_eq_ok, okOr_eq_ok, pure_eq_ok] at h
      obtain ⟨-, hsign, l', hop, rfl⟩ := h
      exact ⟨s, .none, .token (flow_of_tokenOp hp hc.vaults hsign hop)⟩

end SolanaAmm.Farming
