import SolanaAmm.Farming.Payouts
import SolanaAmm.Farming.Funding

/-!
# Farming — Outcomes

What each instruction did when it succeeded: who signed it, which farm or
farmer it wrote, and which transfer it made. The acts forget the
instruction they came from; what depends on signatures, or on the accounts
at both ends of a transfer, is read off these outcomes.
-/

namespace SolanaAmm.Farming

open Result Token Machine

/-- The farmer at `k` had their harvest credited up to a slot. -/
structure Checked (s : FarmingState) (k : FarmerKey) (til : Slot) (f f' : Farmer) : Prop where
  farmer : s.farmers.lookup k = some f
  check : ∃ farm, s.farms.lookup k.1 = some farm
    ∧ f.checkVestedPeriodAndUpdateHarvest farm til = .ok f'

/-- The farm that an instruction names has the signer as its admin. -/
structure AdminOf (s : FarmingState) (F admin : Pubkey) (farm : Farm) : Prop where
  known : s.farms.lookup F = some farm
  signed : farm.admin = admin

inductive Outcome (env : Env) (s : FarmingState) : Instr → FarmingState → Prop
  | createFarm {admin F m l'} (hnew : s.farms.lookup F = none)
      (hinit : Initialized s.ledger l' (.stakeVault F) m (.farmSigner F)) :
      Outcome env s (.createFarm admin F m) ((s.setLedger l').setFarm F
        { (default : Farm) with admin, stakeMint := m, stakeVault := .stakeVault F })
  | addHarvest {admin F m farm farm' l'} (hadmin : AdminOf s F admin farm)
      (hadd : farm.addHarvest m (.harvestVault F m) = .ok farm')
      (hinit : Initialized s.ledger l' (.harvestVault F m) m (.farmSigner F)) :
      Outcome env s (.addHarvest admin F m) ((s.setLedger l').setFarm F farm')
  | removeHarvest {admin F m farm h l'} (hadmin : AdminOf s F admin farm)
      (hfind : farm.findHarvest m = some h)
      (hclosed : Closed s.ledger l' (.harvestVault F m) (.farmSigner F)) :
      Outcome env s (.removeHarvest admin F m)
        ((s.setLedger l').setFarm F (farm.setHarvest m default))
  | setFarmOwner {admin newAdmin F farm} (hadmin : AdminOf s F admin farm) :
      Outcome env s (.setFarmOwner admin newAdmin F)
        (s.setFarm F { farm with admin := newAdmin })
  | setMinSnapshotWindow {admin F slots farm} (hadmin : AdminOf s F admin farm) :
      Outcome env s (.setMinSnapshotWindow admin F slots)
        (s.setFarm F { farm with minSnapshotWindowSlots := slots })
  | newHarvestPeriod {accs m startsAt len tps farm h h' l'} {c : PeriodCall}
      (hadmin : AdminOf s accs.farm accs.admin farm) (hfind : farm.findHarvest m = some h)
      (hsched : Scheduled s.slot h h' c.added c.overwritten)
      (hfunded : Funded s.ledger l' accs m c.funding)
      (hnet : netFunding c.funding = c.added.cost - c.credit) :
      Outcome env s (.newHarvestPeriod accs m startsAt len tps)
        ((s.setLedger l').setFarm accs.farm (farm.setHarvest m h'))
  | takeSnapshot {F vault farm farm' n} (hfarm : s.farms.lookup F = some farm)
      (hvault : n.val = s.ledger.balance (.stakeVault F))
      (hsnap : farm.takeSnapshot s.slot n = .ok farm') :
      Outcome env s (.takeSnapshot F vault) (s.setFarm F farm')
  | createFarmer {authority F farm f} (hnew : s.farmers.lookup (F, authority) = none)
      (hfarm : s.farms.lookup F = some farm) (hfresh : Fresh (F, authority) f)
      (hauthority : f.authority = authority) :
      Outcome env s (.createFarmer authority F) (s.setFarmer (F, authority) f)
  | closeFarmer {authority k f} (hf : s.farmers.lookup k = some f)
      (hauthority : f.authority = authority) (hdeposited : f.deposited = 0)
      (hunclaimed : ∀ m, f.unclaimed m = 0) :
      Outcome env s (.closeFarmer authority k) { s with farmers := s.farmers.erase k }
  | startFarming {accs n f f₁ f₂ l'} (hchecked : Checked s accs.farmer s.slot f f₁)
      (hstaked : f₁.addToVested s.slot n = .ok f₂)
      (htransfer : Transferred s.ledger l' accs.stakeWallet (.stakeVault accs.farmer.1)
        (.key accs.walletAuthority) n) :
      Outcome env s (.startFarming accs n) ((s.setLedger l').setFarmer accs.farmer f₂)
  | stopFarming {accs max n f f₁ f₂ l'} (hchecked : Checked s accs.farmer s.slot f f₁)
      (hunstaked : f₁.unstake max = .ok (f₂, n))
      (htransfer : Transferred s.ledger l' (.stakeVault accs.farm) accs.stakeWallet
        (.farmSigner accs.farm) n) :
      Outcome env s (.stopFarming accs max) ((s.setLedger l').setFarmer accs.farmer f₂)
  | updateEligibleHarvest {F k f f'} (hchecked : Checked s k s.slot f f') :
      Outcome env s (.updateEligibleHarvest F k) (s.setFarmer k f')
  | updateEligibleHarvestUntil {F k til f f'} (hchecked : Checked s k (min s.slot til) f f') :
      Outcome env s (.updateEligibleHarvestUntil F k til) (s.setFarmer k f')
  | claimEligibleHarvest {k accounts f t l'} (hf : s.farmers.lookup k = some f)
      (hsettles : Settles env k.1 (vaultWalletPairs accounts) s.ledger l' f.harvestsMap t) :
      Outcome env s (.claimEligibleHarvest k.2 k accounts)
        ((s.setLedger l').setFarmer k (f.setHarvests t.toList))
  | whitelist {admin F G farm} (hadmin : AdminOf s F admin farm) :
      Outcome env s (.whitelistFarmForCompounding admin F G)
        { s with whitelist := s.whitelist.insert (F, G) () }
  | dewhitelist {admin F G farm} (hadmin : AdminOf s F admin farm) :
      Outcome env s (.dewhitelistFarmForCompounding admin F G)
        { s with whitelist := s.whitelist.erase (F, G) }
  | compoundSameFarm {accs farm f f₁ f₂ h l'}
      (hlisted : s.whitelist.lookup (accs.farmer.1, accs.farmer.1) = some ())
      (hfarm : s.farms.lookup accs.farmer.1 = some farm)
      (hchecked : Checked s accs.farmer s.slot f f₁)
      (hfind : f₁.findHarvest farm.stakeMint = some h)
      (hstaked : (f₁.setHarvestTokens farm.stakeMint 0).addToVested s.slot h.tokens = .ok f₂)
      (htransfer : Transferred s.ledger l' (.harvestVault accs.farmer.1 farm.stakeMint)
        (.stakeVault accs.farmer.1) (.farmSigner accs.farmer.1) h.tokens) :
      Outcome env s (.compoundSameFarm accs) ((s.setLedger l').setFarmer accs.farmer f₂)
  | compoundAcrossFarms {accs farm f f₁ g g' h l'}
      (hne : accs.targetFarmer.1 ≠ accs.sourceFarmer.1)
      (hlisted : s.whitelist.lookup (accs.sourceFarmer.1, accs.targetFarmer.1) = some ())
      (hfarm : s.farms.lookup accs.targetFarmer.1 = some farm)
      (hchecked : Checked s accs.sourceFarmer s.slot f f₁)
      (hg : s.farmers.lookup accs.targetFarmer = some g) (hsame : f.authority = g.authority)
      (hfind : f₁.findHarvest farm.stakeMint = some h)
      (hstaked : g.addToVested s.slot h.tokens = .ok g')
      (htransfer : Transferred s.ledger l' (.harvestVault accs.sourceFarmer.1 farm.stakeMint)
        (.stakeVault accs.targetFarmer.1) (.farmSigner accs.sourceFarmer.1) h.tokens) :
      Outcome env s (.compoundAcrossFarms accs)
        (((s.setLedger l').setFarmer accs.sourceFarmer
          (f₁.setHarvestTokens farm.stakeMint 0)).setFarmer accs.targetFarmer g')
  | airdrop {accs n m f h t l'} (hf : s.farmers.lookup accs.farmer = some f)
      (hfind : f.findHarvest m = some h) (ht : t.val = h.tokens.val + n.val)
      (htransfer : Transferred s.ledger l' accs.harvestWallet (.harvestVault accs.farmer.1 m)
        (.key accs.walletAuthority) n) :
      Outcome env s (.airdrop accs n)
        ((s.setLedger l').setFarmer accs.farmer (f.setHarvestTokens m t))
  | tick {slot} (hle : s.slot ≤ slot) : Outcome env s (.tick slot) { s with slot }
  | token {op l'} (hsign : op.signer.all Address.isKey = true)
      (hop : op.apply env.tokenProgram s.ledger = some l') :
      Outcome env s (.token op) (s.setLedger l')

variable {env : Env} {s s' : FarmingState} {F m : Pubkey} {k : FarmerKey} {i : Instr}

open FarmingState

/-! ## The inversion -/

section Endpoints

theorem addHarvest_outcome (hp : env.tokenProgram.Lawful) {admin : Pubkey}
    (h : addHarvest env s admin F m = .ok s') : Outcome env s (.addHarvest admin F m) s' := by
  simp only [addHarvest, farm, bind_eq_ok, ensure_eq_ok, okOr_eq_ok, pure_eq_ok] at h
  obtain ⟨_, -, -, -, farm, hfarm, -, hadmin, farm', hadd, l', hinit, rfl⟩ := h
  exact .addHarvest ⟨hfarm, hadmin⟩ hadd (hp.initializeAccount_ok hinit)

theorem removeHarvest_outcome (hp : env.tokenProgram.Lawful) {admin : Pubkey}
    (h : removeHarvest env s admin F m = .ok s') :
    Outcome env s (.removeHarvest admin F m) s' := by
  simp only [removeHarvest, farm, bind_eq_ok, ensure_eq_ok, okOr_eq_ok, pure_eq_ok] at h
  obtain ⟨_, -, -, -, farm, hfarm, -, hadmin, harvest, hfind, l', hclose, rfl⟩ := h
  exact .removeHarvest ⟨hfarm, hadmin⟩ hfind (hp.closeAccount_ok hclose)

theorem newHarvestPeriod_outcome (hp : env.tokenProgram.Lawful) {accs : NewHarvestPeriod}
    {startsAt : Slot} {len : U64} {tps : TokenAmount}
    (h : newHarvestPeriod env s accs m startsAt len tps = .ok s') :
    Outcome env s (.newHarvestPeriod accs m startsAt len tps) s' := by
  rw [newHarvestPeriod_eq_traced] at h
  cases htraced : newHarvestPeriodTraced env s accs m startsAt len tps with
  | error err =>
      rw [htraced] at h
      cases h
  | ok result =>
      obtain ⟨s₁, c⟩ := result
      rw [htraced] at h
      cases h
      simp only [newHarvestPeriodTraced, farm, tokenAccount, bind_eq_ok, ensure_eq_ok,
        okOr_eq_ok, pure_eq_ok, Prod.exists, Prod.mk.injEq] at htraced
      obtain ⟨wallet, -, vault, -, farm, hfarm, -, hadmin, -, -, start, hstart, _, -, stop, -,
        farm', old, hnew, cost, hcost, paid, hpaid, l', funding, hsettle, rfl, rfl⟩ := htraced
      obtain ⟨harvest, harvest', hfind, rfl, hsched⟩ :=
        farmNewHarvestPeriod_ok (periodStart_ok hstart) hnew
      obtain ⟨hfunded, hnet⟩ := settlePeriodTraced_ok hp hsettle
      rw [totalTokensEmittedPerPeriod_ok (p := ⟨tps, start, stop⟩) hcost,
        depositedForScheduledLaunch_ok hpaid] at hnet
      exact .newHarvestPeriod (c := ⟨⟨tps, start, stop⟩, old, funding⟩) ⟨hfarm, hadmin⟩ hfind
        hsched hfunded hnet

/-- What a farm gives a new farmer. -/
theorem fresh_setHarvests {authority : Pubkey} {farm : Farm} :
    Fresh (F, authority) ({ (default : Farmer) with authority, farm := F }.setHarvests
      (farm.harvests.map (fun h : Harvest => (h.mint, 0)))) := by
  refine ⟨rfl, rfl, rfl, fun m => Farmer.unclaimed_eq_zero (fun a ha => ?_)⟩
  rcases List.mem_append.mp (List.mem_of_mem_take ha) with ha | ha
  · rw [List.map_map] at ha
    obtain ⟨h, -, rfl⟩ := List.mem_map.mp ha
    rfl
  · rw [List.eq_of_mem_replicate ha]
    rfl

theorem createFarmer_outcome {authority : Pubkey} (h : createFarmer s authority F = .ok s') :
    Outcome env s (.createFarmer authority F) s' := by
  simp only [createFarmer, farm, bind_eq_ok, ensure_eq_ok, okOr_eq_ok, pure_eq_ok,
    Option.isNone_iff_eq_none] at h
  obtain ⟨-, hnew, farm, hfarm, rfl⟩ := h
  exact .createFarmer hnew hfarm fresh_setHarvests rfl

theorem closeFarmer_outcome {authority : Pubkey} (h : closeFarmer s authority k = .ok s') :
    Outcome env s (.closeFarmer authority k) s' := by
  simp only [closeFarmer, farmer, bind_eq_ok, ensure_eq_ok, okOr_eq_ok, pure_eq_ok,
    Farmer.totalDeposited_eq_ok] at h
  obtain ⟨f, hf, -, hauthority, total, htotal, -, rfl, -, hclaimed, rfl⟩ := h
  refine .closeFarmer hf hauthority (by rw [← htotal, Word.val_zero]) (fun m => ?_)
  refine Farmer.unclaimed_eq_zero (fun a ha => ?_)
  by_contra hne
  exact hclaimed (List.any_eq_true.mpr ⟨a, ha, by simpa using hne⟩)

theorem startFarming_outcome (hp : env.tokenProgram.Lawful) (hc : Custody s)
    {accs : StartFarming} {stake : TokenAmount} (h : startFarming env s accs stake = .ok s') :
    Outcome env s (.startFarming accs stake) s' := by
  simp only [startFarming, farm, bind_eq_ok, ensure_eq_ok, okOr_eq_ok, pure_eq_ok] at h
  obtain ⟨f, hf, -, -, farm, hfarm, f₁, hcheck, f₂, hadd, l', ht, rfl⟩ := h
  obtain ⟨hf, hF⟩ := farmerOf_ok hc hf
  rw [hF] at hfarm ht
  exact .startFarming ⟨hf, farm, hfarm, hcheck⟩ hadd (transferred hp ht)

theorem stopFarming_outcome (hp : env.tokenProgram.Lawful) {accs : StopFarming}
    {unstakeMax : TokenAmount} (h : stopFarming env s accs unstakeMax = .ok s') :
    Outcome env s (.stopFarming accs unstakeMax) s' := by
  simp only [stopFarming, farm, farmer, bind_eq_ok, ensure_eq_ok, okOr_eq_ok, pure_eq_ok,
    Prod.exists] at h
  obtain ⟨f, hf, -, -, farm, hfarm, f₁, hcheck, f₂, n, hun, l', ht, rfl⟩ := h
  exact .stopFarming ⟨hf, farm, hfarm, hcheck⟩ hun (transferred hp ht)

theorem updateEligibleHarvestHandle_checked (hc : Custody s) {til : Slot}
    (h : updateEligibleHarvestHandle s F k til = .ok s') :
    ∃ f f', Checked s k til f f' ∧ s' = s.setFarmer k f' := by
  simp only [updateEligibleHarvestHandle, farm, bind_eq_ok, okOr_eq_ok, pure_eq_ok] at h
  obtain ⟨f, hof, farm, hfarm, f₁, hcheck, rfl⟩ := h
  obtain ⟨hf, rfl⟩ := farmerOf_ok hc hof
  exact ⟨f, f₁, ⟨hf, farm, hfarm, hcheck⟩, rfl⟩

theorem claimEligibleHarvest_outcome (hc : Custody s) {authority : Pubkey}
    {accounts : List Address} (h : claimEligibleHarvest env s authority k accounts = .ok s') :
    Outcome env s (.claimEligibleHarvest authority k accounts) s' := by
  simp only [claimEligibleHarvest, farmer, bind_eq_ok, ensure_eq_ok, okOr_eq_ok, pure_eq_ok,
    Prod.exists] at h
  obtain ⟨f, hf, -, hk, -, -, l', t, hfold, rfl⟩ := h
  obtain rfl : authority = k.2 := (congrArg Prod.snd hk).symm
  rw [hc.farmer k f hf] at hfold
  exact .claimEligibleHarvest hf (claimPairs_settle hfold)

theorem compoundSameFarm_outcome (hp : env.tokenProgram.Lawful) (hc : Custody s)
    {accs : CompoundSameFarm} (h : compoundSameFarm env s accs = .ok s') :
    Outcome env s (.compoundSameFarm accs) s' := by
  simp only [compoundSameFarm, farm, tokenAccount, bind_eq_ok, ensure_eq_ok, okOr_eq_ok,
    pure_eq_ok, Prod.exists] at h
  obtain ⟨_, hlisted, stakeVault, hstake, harvestVault, -, -, hmint, -, hvault, f, hf, farm,
    hfarm, f₁, hcheck, f₂, n, hclaim, f₃, hadd, l', ht, rfl⟩ := h
  obtain ⟨hf, hF⟩ := farmerOf_ok hc hf
  obtain ⟨rfl, harvest, hfind, rfl⟩ := claimHarvest_ok hclaim
  rw [hmint, hc.stakeMint hfarm hstake] at hvault
  rw [hF] at hfarm ht hvault hlisted
  rw [hvault] at ht
  exact .compoundSameFarm hlisted hfarm ⟨hf, farm, hfarm, hcheck⟩ hfind hadd
    (transferred hp ht)

theorem compoundAcrossFarms_outcome (hp : env.tokenProgram.Lawful) (hc : Custody s)
    {accs : CompoundAcrossFarms} (h : compoundAcrossFarms env s accs = .ok s') :
    Outcome env s (.compoundAcrossFarms accs) s' := by
  simp only [compoundAcrossFarms, farm, farmer, tokenAccount, bind_eq_ok, ensure_eq_ok,
    okOr_eq_ok, pure_eq_ok, Prod.exists] at h
  obtain ⟨-, hne, _, hlisted, stakeVault, hstake, harvestVault, -, -, hmint, -, hvault, f, hf, g,
    hg, -, hsame, -, hsource, -, htarget, farm, hfarm, target, htargetFarm, f₁, hcheck, f₂, n,
    hclaim, g', hadd, l', ht, rfl⟩ := h
  obtain ⟨rfl, harvest, hfind, rfl⟩ := claimHarvest_ok hclaim
  have hsource := hsource.symm.trans (hc.farmer _ f hf)
  have htarget := htarget.symm.trans (hc.farmer _ g hg)
  rw [hmint, hc.stakeMint htargetFarm hstake] at hvault
  rw [hvault, hsource, htarget] at ht
  rw [hsource] at hfarm hne hlisted
  rw [htarget] at hne hlisted htargetFarm
  exact .compoundAcrossFarms hne hlisted htargetFarm ⟨hf, farm, hfarm, hcheck⟩ hg hsame hfind
    hadd (transferred hp ht)

theorem airdrop_outcome (hp : env.tokenProgram.Lawful) (hc : Custody s) {accs : Airdrop}
    {amount : TokenAmount} (h : airdrop env s accs amount = .ok s') :
    Outcome env s (.airdrop accs amount) s' := by
  simp only [airdrop, farmer, bind_eq_ok, ensure_eq_ok, okOr_eq_ok, pure_eq_ok,
    Word.checkedAdd_eq_some] at h
  obtain ⟨f, hf, wallet, -, -, -, harvest, hfind, tokens, htokens, l', ht, rfl⟩ := h
  rw [hc.farmer _ f hf] at ht
  exact .airdrop hf hfind htokens (transferred hp ht)

end Endpoints

/-- **The inversion**: a successful step has the outcome of its instruction. -/
theorem step_outcome (hp : env.tokenProgram.Lawful) (hc : Custody s)
    (h : step env s i = .ok s') : Outcome env s i s' := by
  cases i with
  | createFarm admin F m =>
      simp only [step, createFarm, bind_eq_ok, ensure_eq_ok, okOr_eq_ok, pure_eq_ok,
        Option.isNone_iff_eq_none] at h
      obtain ⟨-, hnew, _, -, l', hinit, rfl⟩ := h
      exact .createFarm hnew (hp.initializeAccount_ok hinit)
  | addHarvest admin F m => exact addHarvest_outcome hp h
  | removeHarvest admin F m => exact removeHarvest_outcome hp h
  | setFarmOwner admin newAdmin F =>
      simp only [step, setFarmOwner, farm, bind_eq_ok, ensure_eq_ok, okOr_eq_ok, pure_eq_ok] at h
      obtain ⟨farm, hfarm, -, hadmin, rfl⟩ := h
      exact .setFarmOwner ⟨hfarm, hadmin⟩
  | newHarvestPeriod accs m startsAt len tps => exact newHarvestPeriod_outcome hp h
  | takeSnapshot F vault =>
      simp only [step, takeSnapshot, farm, tokenAccount, bind_eq_ok, ensure_eq_ok, okOr_eq_ok,
        pure_eq_ok] at h
      obtain ⟨account, haccount, farm, hfarm, -, rfl, farm', hsnap, rfl⟩ := h
      rw [(hc.farm F farm hfarm).1] at haccount
      exact .takeSnapshot hfarm (Ledger.balance_of_lookup haccount).symm hsnap
  | setMinSnapshotWindow admin F slots =>
      simp only [step, setMinSnapshotWindow, farm, bind_eq_ok, ensure_eq_ok, okOr_eq_ok,
        pure_eq_ok] at h
      obtain ⟨farm, hfarm, -, hadmin, rfl⟩ := h
      exact .setMinSnapshotWindow ⟨hfarm, hadmin⟩
  | createFarmer authority F => exact createFarmer_outcome h
  | closeFarmer authority k => exact closeFarmer_outcome h
  | startFarming accs stake => exact startFarming_outcome hp hc h
  | stopFarming accs unstakeMax => exact stopFarming_outcome hp h
  | updateEligibleHarvest F k =>
      obtain ⟨f, f', hchecked, rfl⟩ := updateEligibleHarvestHandle_checked hc h
      exact .updateEligibleHarvest hchecked
  | updateEligibleHarvestUntil F k til =>
      obtain ⟨f, f', hchecked, rfl⟩ := updateEligibleHarvestHandle_checked hc h
      exact .updateEligibleHarvestUntil hchecked
  | claimEligibleHarvest authority k accounts => exact claimEligibleHarvest_outcome hc h
  | whitelistFarmForCompounding admin F G =>
      simp only [step, whitelistFarmForCompounding, farm, bind_eq_ok, ensure_eq_ok, okOr_eq_ok,
        pure_eq_ok] at h
      obtain ⟨_, -, -, -, farm, hfarm, -, hadmin, rfl⟩ := h
      exact .whitelist ⟨hfarm, hadmin⟩
  | dewhitelistFarmForCompounding admin F G =>
      simp only [step, dewhitelistFarmForCompounding, farm, bind_eq_ok, ensure_eq_ok, okOr_eq_ok,
        pure_eq_ok] at h
      obtain ⟨_, -, _, -, farm, hfarm, -, hadmin, rfl⟩ := h
      exact .dewhitelist ⟨hfarm, hadmin⟩
  | compoundSameFarm accs => exact compoundSameFarm_outcome hp hc h
  | compoundAcrossFarms accs => exact compoundAcrossFarms_outcome hp hc h
  | airdrop accs amount => exact airdrop_outcome hp hc h
  | tick slot =>
      simp only [step, bind_eq_ok, ensure_eq_ok, pure_eq_ok] at h
      obtain ⟨-, hle, rfl⟩ := h
      exact .tick hle
  | token op =>
      simp only [step, bind_eq_ok, ensure_eq_ok, okOr_eq_ok, pure_eq_ok] at h
      obtain ⟨-, hsign, l', hop, rfl⟩ := h
      exact .token hsign hop

/-! ## Who owns a farmer -/

namespace Farmer

variable {f f' : Farmer} {farm : Farm} {til now : Slot} {n max : TokenAmount}

theorem check_authority (h : f.checkVestedPeriodAndUpdateHarvest farm til = .ok f') :
    f'.authority = f.authority := by
  have hupdate : ∀ {f f' : Farmer}, f.updateEligibleHarvest farm til = .ok f' →
      f'.authority = f.authority := by
    intro f f' h
    unfold updateEligibleHarvest at h
    split at h
    · rw [pure_eq_ok] at h
      rw [h]
    · simp only [bind_eq_ok, pure_eq_ok] at h
      obtain ⟨_, -, _, -, rfl⟩ := h
      rfl
  obtain ⟨f₁, hm, hu⟩ := check_eq_ok.mp h
  rw [hupdate hu]
  unfold MaturedIf at hm
  split at hm
  · simp only [stakeVestedFrom, bind_eq_ok, pure_eq_ok] at hm
    obtain ⟨_, -, _, -, _, -, rfl⟩ := hm
    rfl
  · rw [hm]

theorem addToVested_authority (h : f.addToVested now n = .ok f') : f'.authority = f.authority := by
  simp only [addToVested, bind_eq_ok, pure_eq_ok] at h
  obtain ⟨_, -, rfl⟩ := h
  rfl

theorem unstake_authority (h : f.unstake max = .ok (f', n)) : f'.authority = f.authority := by
  unfold unstake at h
  split at h
  · simp only [bind_eq_ok, pure_eq_ok, Prod.mk.injEq] at h
    obtain ⟨_, -, rfl, -⟩ := h
    rfl
  · rw [bind_eq_ok] at h
    obtain ⟨total, -, h⟩ := h
    split at h
    · simp only [bind_eq_ok, pure_eq_ok, Prod.mk.injEq] at h
      obtain ⟨_, -, _, -, rfl, -⟩ := h
      rfl
    · simp only [pure_eq_ok, Prod.mk.injEq] at h
      obtain ⟨rfl, -⟩ := h
      rfl

end Farmer

/-- Every farmer belongs to the authority in their address. -/
def Owned (s : FarmingState) : Prop :=
  ∀ k f, s.farmers.lookup k = some f → f.authority = k.2

theorem Checked.authority {til : Slot} {f f' : Farmer} (hs : Owned s)
    (h : Checked s k til f f') : f'.authority = k.2 := by
  obtain ⟨farm, -, hcheck⟩ := h.check
  rw [Farmer.check_authority hcheck]
  exact hs k f h.farmer

theorem Outcome.owned (ho : Outcome env s i s') (hs : Owned s) : Owned s' := by
  cases ho with
  | createFarmer hnew hfarm hfresh hauthority => exact Store.forall_insert hs hauthority
  | closeFarmer hf hauthority hdeposited hunclaimed =>
      intro k' g hg
      exact hs k' g (Store.lookup_of_erase hg)
  | startFarming hchecked hstaked htransfer =>
      refine Store.forall_insert hs ?_
      rw [Farmer.addToVested_authority hstaked]
      exact hchecked.authority hs
  | stopFarming hchecked hunstaked htransfer =>
      refine Store.forall_insert hs ?_
      rw [Farmer.unstake_authority hunstaked]
      exact hchecked.authority hs
  | updateEligibleHarvest hchecked => exact Store.forall_insert hs (hchecked.authority hs)
  | updateEligibleHarvestUntil hchecked => exact Store.forall_insert hs (hchecked.authority hs)
  | @claimEligibleHarvest k accounts f t l' hf hsettles =>
      exact Store.forall_insert hs (hs k f hf :)
  | compoundSameFarm hlisted hfarm hchecked hfind hstaked htransfer =>
      refine Store.forall_insert hs ?_
      rw [Farmer.addToVested_authority hstaked]
      exact (hchecked.authority hs :)
  | compoundAcrossFarms hne hlisted hfarm hchecked hg hsame hfind hstaked htransfer =>
      refine Store.forall_insert (Store.forall_insert hs (hchecked.authority hs :)) ?_
      rw [Farmer.addToVested_authority hstaked]
      exact hs _ _ hg
  | @airdrop accs n m f h t l' hf hfind ht htransfer =>
      exact Store.forall_insert hs (hs accs.farmer f hf :)
  | _ => exact hs

/-- What every state that is reached has in order. -/
structure Reached (s : FarmingState) : Prop extends Books s where
  owned : Owned s

theorem step_reached (hp : env.tokenProgram.Lawful) (hs : Reached s) (h : step env s i = .ok s') :
    Reached s' :=
  ⟨step_books hp hs.toBooks h, (step_outcome hp hs.custody h).owned hs.owned⟩

theorem Genesis.reached (hg : Genesis s) : Reached s := ⟨hg.books, hg.every_farmer⟩

theorem run_reached (hp : env.tokenProgram.Lawful) (hg : Genesis s) (is : List Instr) :
    Reached (run (step env) s is) :=
  run_invariant' (fun _ _ _ hI h => step_reached hp hI h) hg.reached is

/-- **The rule for events**: what every outcome of a reached state satisfies
holds of every step in the history of a run. -/
theorem events_outcome (hp : env.tokenProgram.Lawful) (hg : Genesis s) (is : List Instr)
    {P : Event FarmingState Instr → Prop}
    (hstep : ∀ s i s', Reached s → Outcome env s i s' → P ⟨s, i, s'⟩) :
    ∀ e ∈ (run (traced (step env)) (s, []) is).2, P e := by
  refine history_invariant (I := Reached) (fun s i s' hs h => ?_) hg.reached is
  exact ⟨step_reached hp hs h, hstep s i s' hs (step_outcome hp hs.custody h)⟩

end SolanaAmm.Farming
