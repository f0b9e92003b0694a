import SolanaAmm.Farming.Entries

/-!
# Farming — Bookkeeping

The entries of the farmers over whole runs. Every initialised harvest of a
farm has a mint of its own and no farm has a vault for the default mint,
so a new farmer starts with tidy entries, and every endpoint keeps them
tidy. An update then loses and doubles nothing, in whatever order mints
were added and removed since the last one.
-/

namespace SolanaAmm.Farming

open Result Token Slots Machine

variable {env : Env} {s s₁ s' : FarmingState} {act : Act} {F m : Pubkey} {k : FarmerKey}
  {v : Address} {farm farm' : Farm} {f f' : Farmer} {til : Slot}

/-! ## The mints of a farm -/

/-- The initialised harvests of every farm have mints of their own. -/
def MintsDistinct (s : FarmingState) : Prop :=
  ∀ F farm, s.farms.lookup F = some farm → Distinct Harvest.mint default farm.harvests

theorem Acts.mintsDistinct (ha : Acts act s s') (hs : MintsDistinct s) : MintsDistinct s' := by
  refine ha.everyFarm ?hnew ?hsettings ?hadd ?hremove ?hperiod ?hsnap hs
  case hnew =>
    refine .of_free (fun h hh => ?_)
    rw [List.eq_of_mem_replicate hh]
    rfl
  case hsettings =>
    intro farm farm' hfarm same
    rwa [same.harvests]
  case hadd =>
    intro farm farm' m v hfarm hadd
    obtain ⟨hall, -, old, hfind, rfl⟩ := addHarvest_cases hadd
    exact hfarm.setFirst hfind (.inr (.inr hall))
  case hremove => exact fun hfarm hfind => hfarm.setFirst hfind (.inr (.inl rfl))
  case hperiod => exact fun hfarm hfind hsched => hfarm.setFirst hfind (.inl hsched.mint)
  case hsnap =>
    intro farm farm' now n hfarm hsnap
    rw [hsnap.pushed]
    exact hfarm

theorem Harvests.mintsDistinct {h : Option (FarmerKey × Slot)} (hh : Harvests s h s₁)
    (hs : MintsDistinct s) : MintsDistinct s₁ := fun F farm hfarm =>
  hs F farm (hh.farms_eq ▸ hfarm)

/-- No farm has a harvest vault for the default mint. -/
def NoDefaultVault (s : FarmingState) : Prop :=
  ∀ F, s.ledger.accounts.lookup (.harvestVault F default) = none

theorem NoDefaultVault.flow {l' : Ledger Address Pubkey} {inflow outflow : Address → ℕ}
    (hs : NoDefaultVault s) (hflow : Flow s.ledger l' inflow outflow) :
    NoDefaultVault (s.setLedger l') := fun F => hflow.absent _ rfl (hs F)

theorem Acts.noDefaultVault (ha : Acts act s s') (hs : NoDefaultVault s) :
    NoDefaultVault s' := by
  cases ha with
  | tick _ => exact hs
  | whitelist => exact hs
  | token hflow => exact hs.flow hflow
  | settings _ _ => exact hs
  | createFarm hnew hinit =>
      exact fun G => (hinit.others _ (by intro he; cases he)).trans (hs G)
  | addHarvest hfarm hadd hinit =>
      obtain ⟨-, hne, -⟩ := addHarvest_cases hadd
      exact fun G => (hinit.others _ (by rintro ⟨⟩; exact hne rfl)).trans (hs G)
  | @removeHarvest _ F farm m h l' hfarm hfind hclosed =>
      intro G
      by_cases he : Address.harvestVault G default = .harvestVault F m
      · exact he ▸ hclosed.removed
      · exact (hclosed.others _ he).trans (hs G)
  | period _ _ _ hflow => exact hs.flow hflow
  | snapshot _ _ _ => exact hs
  | createFarmer _ _ => exact hs
  | closeFarmer _ _ _ => exact hs
  | stake _ _ hflow => exact hs.flow hflow
  | unstake _ _ hflow => exact hs.flow hflow
  | claim _ _ _ _ hflow => exact hs.flow hflow
  | compound _ _ _ _ hflow => exact hs.flow hflow
  | airdrop _ _ _ hflow => exact hs.flow hflow

theorem Harvests.noDefaultVault {h : Option (FarmerKey × Slot)} (hh : Harvests s h s₁)
    (hs : NoDefaultVault s) : NoDefaultVault s₁ := by
  cases hh with
  | none => exact hs
  | check _ _ _ _ => exact hs

/-! ## The entries of a farmer -/

/-- A new farmer has an entry for every mint of the farm. -/
theorem tidy_of_farm (hslots : farm.harvests.length = MAX_HARVEST_MINTS)
    (hmints : Distinct Harvest.mint default farm.harvests) :
    Tidy (f.setHarvests (farm.harvests.map (fun h : Harvest => (h.mint, 0)))).harvests := by
  have hlen : (farm.harvests.map (fun h => AvailableHarvest.mk h.mint 0)).length
      = MAX_HARVEST_MINTS := (List.length_map _).trans hslots
  have hall : (f.setHarvests (farm.harvests.map (fun h : Harvest => (h.mint, 0)))).harvests
      = farm.harvests.map (fun h => AvailableHarvest.mk h.mint 0) := by
    show List.take _ (List.map _ (List.map _ _) ++ _) = _
    rw [List.map_map]
    exact List.take_left' hlen
  rw [hall]
  refine ⟨hlen, distinct_map.mpr hmints, fun a ha _ => ?_⟩
  obtain ⟨h, -, rfl⟩ := List.mem_map.mp ha
  rfl

section Claims

variable {pairs : List (Address × Address)} {l l' : Ledger Address Pubkey} {t : Harvested}

theorem Settles.size_le (h : Settles env F pairs l l' f.harvestsMap t) (hf : Tidy f.harvests) :
    t.size ≤ MAX_HARVEST_MINTS :=
  (Maps.size_le_size (fun _ hk => h.contains.symm.trans hk)).trans
    (Farmer.size_harvestsMap_le.trans hf.slots.le)

/-- A claim keeps the entries and zeroes some. -/
theorem Settles.tidy (h : Settles env F pairs l l' f.harvestsMap t) (hf : Tidy f.harvests) :
    Tidy (f.setHarvests t.toList).harvests := by
  refine Farmer.tidy_setHarvests (h.size_le hf) ?_
  rw [h.tokensOf, hf.tokensOf_default, ite_self]

end Claims

theorem tidy_claimHarvest {n : TokenAmount} (hf : Tidy f.harvests)
    (h : f.claimHarvest m = .ok (f', n)) : Tidy f'.harvests := by
  obtain ⟨rfl, _, hfind, -⟩ := claimHarvest_ok h
  exact hf.write hfind (fun _ => rfl)

theorem tidy_addToVested {now : Slot} {n : TokenAmount} (hf : Tidy f.harvests)
    (h : f.addToVested now n = .ok f') : Tidy f'.harvests := by
  rw [(Farmer.addToVested_ok h).harvests]
  exact hf

/-! ## The books of a state -/

/-- The entries of every farmer are tidy. -/
def FarmersTidy (s : FarmingState) : Prop :=
  ∀ k f, s.farmers.lookup k = some f → Tidy f.harvests

/-- What keeps the entries of all farmers in order. -/
structure Books (s : FarmingState) : Prop where
  custody : Custody s
  farms : FarmsKept s
  mints : MintsDistinct s
  vaults : NoDefaultVault s
  farmers : FarmersTidy s

theorem FarmersTidy.setFarmer (hs : FarmersTidy s) (hf : Tidy f.harvests) :
    FarmersTidy (s.setFarmer k f) :=
  Store.forall_insert hs hf

section Endpoints

variable (hs : Books s)

include hs

/-- A check of a farmer of the state. -/
theorem Books.check (hf : s.farmers.lookup k = some f) (hfarm : s.farms.lookup F = some farm)
    (h : f.checkVestedPeriodAndUpdateHarvest farm til = .ok f') :
    Kept farm f.harvests f'.harvests :=
  Farmer.check_kept (hs.farmers k f hf) (hs.farms F farm hfarm).2 h

theorem createFarmer_tidy {authority : Pubkey} (h : createFarmer s authority F = .ok s') :
    FarmersTidy s' := by
  simp only [createFarmer, FarmingState.farm, bind_eq_ok, okOr_eq_ok, pure_eq_ok] at h
  obtain ⟨-, -, farm, hfarm, rfl⟩ := h
  exact hs.farmers.setFarmer (tidy_of_farm (hs.farms F farm hfarm).2 (hs.mints F farm hfarm))

theorem closeFarmer_tidy {authority : Pubkey} (h : closeFarmer s authority k = .ok s') :
    FarmersTidy s' := by
  simp only [closeFarmer, bind_eq_ok, pure_eq_ok] at h
  obtain ⟨_, -, -, -, _, -, -, -, -, -, rfl⟩ := h
  exact fun k' g hg => hs.farmers k' g (Store.lookup_of_erase hg)

theorem startFarming_tidy {accs : StartFarming} {stake : TokenAmount}
    (h : startFarming env s accs stake = .ok s') : FarmersTidy s' := by
  simp only [startFarming, FarmingState.farm, bind_eq_ok, okOr_eq_ok, pure_eq_ok] at h
  obtain ⟨f, hf, -, -, farm, hfarm, f₁, hcheck, f₂, hadd, l', -, rfl⟩ := h
  have hkept := hs.check (farmerOf_ok hs.custody hf).1 hfarm hcheck
  exact FarmersTidy.setFarmer (s := s.setLedger l') hs.farmers (tidy_addToVested hkept.tidy hadd)

theorem stopFarming_tidy {accs : StopFarming} {unstakeMax : TokenAmount}
    (h : stopFarming env s accs unstakeMax = .ok s') : FarmersTidy s' := by
  simp only [stopFarming, FarmingState.farm, FarmingState.farmer, bind_eq_ok, okOr_eq_ok,
    pure_eq_ok, Prod.exists] at h
  obtain ⟨f, hf, -, -, farm, hfarm, f₁, hcheck, f₂, n, hun, l', -, rfl⟩ := h
  refine FarmersTidy.setFarmer (s := s.setLedger l') hs.farmers ?_
  rw [(Farmer.unstake_ok hun).harvests]
  exact (hs.check hf hfarm hcheck).tidy

theorem updateEligibleHarvestHandle_tidy (h : updateEligibleHarvestHandle s F k til = .ok s') :
    FarmersTidy s' := by
  simp only [updateEligibleHarvestHandle, FarmingState.farm, bind_eq_ok, okOr_eq_ok,
    pure_eq_ok] at h
  obtain ⟨f, hf, farm, hfarm, f₁, hcheck, rfl⟩ := h
  exact hs.farmers.setFarmer (hs.check (farmerOf_ok hs.custody hf).1 hfarm hcheck).tidy

theorem claimEligibleHarvest_tidy {authority : Pubkey} {accounts : List Address}
    (h : claimEligibleHarvest env s authority k accounts = .ok s') : FarmersTidy s' := by
  simp only [claimEligibleHarvest, FarmingState.farmer, bind_eq_ok, okOr_eq_ok, pure_eq_ok,
    Prod.exists] at h
  obtain ⟨f, hf, -, -, -, -, l', t, hfold, rfl⟩ := h
  exact FarmersTidy.setFarmer (s := s.setLedger l') hs.farmers
    ((claimPairs_settle hfold).tidy (hs.farmers k f hf))

theorem compoundSameFarm_tidy {accs : CompoundSameFarm}
    (h : compoundSameFarm env s accs = .ok s') : FarmersTidy s' := by
  simp only [compoundSameFarm, FarmingState.farm, FarmingState.tokenAccount, bind_eq_ok,
    okOr_eq_ok, pure_eq_ok, Prod.exists] at h
  obtain ⟨_, -, _, -, _, -, -, -, -, -, f, hf, farm, hfarm, f₁, hcheck, f₂, n, hclaim, f₃, hadd,
    l', -, rfl⟩ := h
  have hkept := hs.check (farmerOf_ok hs.custody hf).1 hfarm hcheck
  exact FarmersTidy.setFarmer (s := s.setLedger l') hs.farmers
    (tidy_addToVested (tidy_claimHarvest hkept.tidy hclaim) hadd)

theorem compoundAcrossFarms_tidy {accs : CompoundAcrossFarms}
    (h : compoundAcrossFarms env s accs = .ok s') : FarmersTidy s' := by
  simp only [compoundAcrossFarms, FarmingState.farm, FarmingState.farmer,
    FarmingState.tokenAccount, bind_eq_ok, okOr_eq_ok, pure_eq_ok, Prod.exists] at h
  obtain ⟨-, -, _, -, _, -, _, -, -, -, -, -, f, hf, g, hg, -, -, -, -, -, -, farm, hfarm, _, -,
    f₁, hcheck, f₂, n, hclaim, g', hadd, l', -, rfl⟩ := h
  have hkept := hs.check hf hfarm hcheck
  exact (FarmersTidy.setFarmer (s := s.setLedger l') hs.farmers
    (tidy_claimHarvest hkept.tidy hclaim)).setFarmer (tidy_addToVested (hs.farmers _ g hg) hadd)

/-- Nothing can be airdropped under the default mint: it has no vault. -/
theorem airdrop_tidy (hp : env.tokenProgram.Lawful) {accs : Airdrop} {amount : TokenAmount}
    (h : airdrop env s accs amount = .ok s') : FarmersTidy s' := by
  simp only [airdrop, FarmingState.farmer, bind_eq_ok, okOr_eq_ok, pure_eq_ok] at h
  obtain ⟨f, hf, wallet, -, -, -, _, hfind, tokens, -, l', ht, rfl⟩ := h
  refine FarmersTidy.setFarmer (s := s.setLedger l') hs.farmers
    ((hs.farmers _ f hf).write hfind (fun hm => ?_))
  have ht := transferred hp ht
  obtain ⟨a, ha, -⟩ := ht.source
  have hdst := ht.destination
  rw [hm, Ledger.kind_of_lookup ha, Ledger.kind, hs.vaults f.farm] at hdst
  cases hdst

end Endpoints

/-- Whatever an instruction does to the farmers, their entries stay tidy. -/
theorem step_farmersTidy (hp : env.tokenProgram.Lawful) (hs : Books s) {i : Instr}
    (h : step env s i = .ok s') : FarmersTidy s' := by
  cases i with
  | createFarmer authority F => exact createFarmer_tidy hs h
  | closeFarmer authority k => exact closeFarmer_tidy hs h
  | startFarming accs stake => exact startFarming_tidy hs h
  | stopFarming accs unstakeMax => exact stopFarming_tidy hs h
  | updateEligibleHarvest F k => exact updateEligibleHarvestHandle_tidy hs h
  | updateEligibleHarvestUntil F k til => exact updateEligibleHarvestHandle_tidy hs h
  | claimEligibleHarvest authority k accounts => exact claimEligibleHarvest_tidy hs h
  | compoundSameFarm accs => exact compoundSameFarm_tidy hs h
  | compoundAcrossFarms accs => exact compoundAcrossFarms_tidy hs h
  | airdrop accs amount => exact airdrop_tidy hs hp h
  | createFarm admin F m =>
      simp only [step, createFarm, bind_eq_ok, pure_eq_ok] at h
      obtain ⟨_, -, _, -, _, -, rfl⟩ := h
      exact hs.farmers
  | addHarvest admin F m =>
      simp only [step, addHarvest, bind_eq_ok, pure_eq_ok] at h
      obtain ⟨_, -, _, -, _, -, _, -, _, -, _, -, rfl⟩ := h
      exact hs.farmers
  | removeHarvest admin F m =>
      simp only [step, removeHarvest, bind_eq_ok, pure_eq_ok] at h
      obtain ⟨_, -, _, -, _, -, _, -, _, -, _, -, rfl⟩ := h
      exact hs.farmers
  | setFarmOwner admin newAdmin F =>
      simp only [step, setFarmOwner, bind_eq_ok, pure_eq_ok] at h
      obtain ⟨_, -, _, -, rfl⟩ := h
      exact hs.farmers
  | newHarvestPeriod accs m startsAt len tps =>
      simp only [step, newHarvestPeriod, bind_eq_ok, pure_eq_ok] at h
      obtain ⟨_, -, _, -, _, -, _, -, _, -, _, -, _, -, _, -, _, -, _, -, _, -, _, -, rfl⟩ := h
      exact hs.farmers
  | takeSnapshot F vault =>
      simp only [step, takeSnapshot, bind_eq_ok, pure_eq_ok] at h
      obtain ⟨_, -, _, -, _, -, _, -, rfl⟩ := h
      exact hs.farmers
  | setMinSnapshotWindow admin F n =>
      simp only [step, setMinSnapshotWindow, bind_eq_ok, pure_eq_ok] at h
      obtain ⟨_, -, _, -, rfl⟩ := h
      exact hs.farmers
  | whitelistFarmForCompounding admin F G =>
      simp only [step, whitelistFarmForCompounding, bind_eq_ok, pure_eq_ok] at h
      obtain ⟨_, -, _, -, _, -, _, -, rfl⟩ := h
      exact hs.farmers
  | dewhitelistFarmForCompounding admin F G =>
      simp only [step, dewhitelistFarmForCompounding, bind_eq_ok, pure_eq_ok] at h
      obtain ⟨_, -, _, -, _, -, _, -, rfl⟩ := h
      exact hs.farmers
  | tick slot =>
      simp only [step, bind_eq_ok, pure_eq_ok] at h
      obtain ⟨_, -, rfl⟩ := h
      exact hs.farmers
  | token op =>
      simp only [step, bind_eq_ok, pure_eq_ok] at h
      obtain ⟨_, -, _, -, rfl⟩ := h
      exact hs.farmers

/-- **Every step** keeps the books. -/
theorem step_books (hp : env.tokenProgram.Lawful) (hs : Books s) {i : Instr}
    (h : step env s i = .ok s') : Books s' := by
  obtain ⟨s₁, hh, ha⟩ := step_ok hp hs.custody h
  exact ⟨step_custody hp hs.custody h, ha.farmsKept (hh.farmsKept hs.farms),
    ha.mintsDistinct (hh.mintsDistinct hs.mints), ha.noDefaultVault (hh.noDefaultVault hs.vaults),
    step_farmersTidy hp hs h⟩

theorem Genesis.books (hg : Genesis s) : Books s where
  custody := hg.custody
  farms := hg.every_farm
  mints := hg.every_farm
  vaults _ := hg.vaults _ rfl
  farmers := hg.every_farmer

/-- Every state that is reached has its books in order. -/
theorem run_books (hp : env.tokenProgram.Lawful) (hg : Genesis s) (is : List Instr) :
    Books (run (step env) s is) :=
  run_invariant' (fun _ _ _ hI h => step_books hp hI h) hg.books is

/-! ## What an update leaves -/

/-- **Updates lose and double nothing.** In every state that is reached, for
every farm and farmer: a calculation up to any slot, written back, leaves
one entry for every initialised mint of the farm, none for any other, and
no tokens in the rest; an entry whose mint is still there has at least the
tokens it had; and all that was calculated is in the entries. The same goes
for a whole check, unless there was nothing to calculate. -/
theorem update_keeps_entries (hp : env.tokenProgram.Lawful) (hg : Genesis s) (is : List Instr)
    (hfarm : (run (step env) s is).farms.lookup F = some farm)
    (hf : (run (step env) s is).farmers.lookup k = some f) (til : Slot) :
    (∀ u, f.eligibleHarvestUntil farm til = .ok u →
      InSync farm f.harvests (f.setHarvests u.toList).harvests
      ∧ ∀ m n, u[m]? = some n → ⟨m, n⟩ ∈ (f.setHarvests u.toList).harvests)
    ∧ ∀ f', f.checkVestedPeriodAndUpdateHarvest farm til = .ok f' →
      f'.harvests = f.harvests ∨ InSync farm f.harvests f'.harvests := by
  have hbooks := run_books hp hg is
  have htidy := hbooks.farmers k f hf
  have hslots := (hbooks.farms F farm hfarm).2
  refine ⟨fun u hu => ?_, fun f' h => (Farmer.check_kept htidy hslots h).entries⟩
  have hrefreshes := Farmer.eligibleHarvestUntil_refreshes hu
  exact ⟨hrefreshes.inSync htidy hslots,
    fun m n hn => (Farmer.mem_setHarvests (hrefreshes.size_le hslots)).mpr (.inl hn)⟩

/-- Since a farmer was credited the mint 200, the mint 100 was taken out and
the mint 300 added. -/
def mintsExchanged : List Instr :=
  openFarm ++ [.addHarvest 2 1 100, .tick 5, stakeOf 10 20 10, .tick 10, snapshotNow,
    schedule 11 100 2, .tick 20, updateOf 10, .removeHarvest 2 1 100,
    .token (.openMint 300 ⟨0, none, none⟩), .addHarvest 2 1 300, .tick 25]

def exchangedFarm : Farm :=
  ((run (step sampleEnv) sampleGenesis mintsExchanged).farms.lookup 1).getD default

def exchangedFarmer : Farmer :=
  ((run (step sampleEnv) sampleGenesis mintsExchanged).farmers.lookup (1, 10)).getD default

theorem lookup_exchangedFarm :
    (run (step sampleEnv) sampleGenesis mintsExchanged).farms.lookup 1 = some exchangedFarm := by
  have hsome : ((run (step sampleEnv) sampleGenesis mintsExchanged).farms.lookup 1).isSome
      = true := by decide +kernel
  rw [exchangedFarm, ← Option.get_eq_getD (h := hsome), Option.some_get]

theorem lookup_exchangedFarmer :
    (run (step sampleEnv) sampleGenesis mintsExchanged).farmers.lookup (1, 10)
      = some exchangedFarmer := by
  decide +kernel

/-- The next update has the mints 200 and 300, and more of the mint 200. -/
theorem update_keeps_entries_exchanged :
    ∃ u, exchangedFarmer.eligibleHarvestUntil exchangedFarm 25 = .ok u
      ∧ u.toList = [(default, 0), (200, 30), (300, 0)]
      ∧ InSync exchangedFarm exchangedFarmer.harvests
        (exchangedFarmer.setHarvests u.toList).harvests := by
  have hlist : (exchangedFarmer.eligibleHarvestUntil exchangedFarm 25).map (fun u => u.toList)
      = .ok [(default, 0), (200, 30), (300, 0)] := by decide +kernel
  obtain ⟨u, hu, hlist⟩ : ∃ u, exchangedFarmer.eligibleHarvestUntil exchangedFarm 25 = .ok u
      ∧ u.toList = [(default, 0), (200, 30), (300, 0)] := by
    cases h : exchangedFarmer.eligibleHarvestUntil exchangedFarm 25 with
    | error e =>
        rw [h] at hlist
        cases hlist
    | ok u =>
        rw [h] at hlist
        exact ⟨u, rfl, Except.ok.inj hlist⟩
  exact ⟨u, hu, hlist, ((update_keeps_entries (k := (1, 10)) Token.Reference.lawful
    sampleGenesis_genesis _ lookup_exchangedFarm lookup_exchangedFarmer 25).1 u hu).1⟩

end SolanaAmm.Farming
