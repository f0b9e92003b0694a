import SolanaAmm.Farming.Batches
import SolanaAmm.Farming.Payouts

/-!
# Farming — Compounding

A bot that compounds a farmer's harvest in their own farm does in one call
what the farmer could do in three: update, claim to a wallet, and stake
what was claimed. Both leave the same books. A farmer is compared through
a view that forgets the order of the entries, since a claim rebuilds the
entries from a map and a compounding writes one of them in place.
-/

namespace SolanaAmm.Farming

open Result Token Machine

/-- What there is to see of a farmer. -/
structure FarmerView where
  authority : Pubkey
  farm : Pubkey
  staked : ℕ
  vested : ℕ
  vestedAt : Slot
  calculateNextHarvestFrom : Slot
  /-- What can be claimed of each mint. -/
  unclaimed : Pubkey → ℕ

def Farmer.view (f : Farmer) : FarmerView where
  authority := f.authority
  farm := f.farm
  staked := f.staked.val
  vested := f.vested.val
  vestedAt := f.vestedAt
  calculateNextHarvestFrom := f.calculateNextHarvestFrom
  unclaimed := f.unclaimed

/-- Nothing is left to claim of the mint. -/
def FarmerView.take (view : FarmerView) (m : Pubkey) : FarmerView :=
  { view with unclaimed := fun m' => if m' = m then 0 else view.unclaimed m' }

/-- So many tokens are staked. -/
def FarmerView.stake (view : FarmerView) (now : Slot) (n : ℕ) : FarmerView :=
  { view with vested := view.vested + n, vestedAt := now }

/-- Two states with the same books. -/
structure SameBooks (s t : FarmingState) : Prop where
  farms : t.farms = s.farms
  whitelist : t.whitelist = s.whitelist
  slot : t.slot = s.slot
  farmers : ∀ k, (t.farmers.lookup k).map Farmer.view = (s.farmers.lookup k).map Farmer.view
  balances : ∀ a, t.ledger.balance a = s.ledger.balance a

/-- The credit of the mint that a farmer has, once checked, was taken and
staked. -/
structure Restaked (s : FarmingState) (k : FarmerKey) (m : Pubkey) (f : Farmer)
    (t : FarmingState) : Prop where
  farms : t.farms = s.farms
  whitelist : t.whitelist = s.whitelist
  slot : t.slot = s.slot
  farmer : (t.farmers.lookup k).map Farmer.view
    = some ((f.view.take m).stake s.slot (f.unclaimed m))
  others : ∀ k', k' ≠ k → t.farmers.lookup k' = s.farmers.lookup k'
  balances : ∀ v, t.ledger.balance v + (if v = .harvestVault k.1 m then f.unclaimed m else 0)
    = s.ledger.balance v + (if v = .stakeVault k.1 then f.unclaimed m else 0)

variable {env : Env} {s t t₁ t₂ : FarmingState} {f f' : Farmer} {farm : Farm} {k : FarmerKey}
  {m : Pubkey} {n : TokenAmount} {l l' : Ledger Address Pubkey} {now : Slot}

/-- There is one way to restake. -/
theorem Restaked.unique (h : Restaked s k m f t₁) (h' : Restaked s k m f t₂) :
    SameBooks t₁ t₂ := by
  refine ⟨h'.farms.trans h.farms.symm, h'.whitelist.trans h.whitelist.symm,
    h'.slot.trans h.slot.symm, fun k' => ?_, fun v => ?_⟩
  · by_cases hk : k' = k
    · rw [hk, h'.farmer, h.farmer]
    · rw [h'.others k' hk, h.others k' hk]
  · have hb := h.balances v
    have hb' := h'.balances v
    omega

/-! ## Views -/

/-- Staking adds to the vested tokens, and to nothing else. -/
theorem addToVested_view (h : f.addToVested now n = .ok f') :
    f'.view = f.view.stake now n.val := by
  simp only [Farmer.addToVested, bind_eq_ok, okOr_eq_ok, Word.checkedAdd_eq_some, pure_eq_ok] at h
  obtain ⟨vested, hv, rfl⟩ := h
  show { f.view with vested := vested.val, vestedAt := now } = _
  rw [hv]
  rfl

/-- Taking the credit of one mint out, at its entry. -/
theorem taken_view {h : AvailableHarvest} (hf : Tidy f.harvests)
    (hfind : f.findHarvest m = some h) : (f.setHarvestTokens m 0).view = f.view.take m := by
  have hunclaimed : (f.setHarvestTokens m 0).unclaimed
      = fun m' => if m' = m then 0 else f.unclaimed m' :=
    funext (fun m' => hf.unclaimed_taken hfind m')
  unfold Farmer.view
  rw [hunclaimed]
  rfl

/-- A claim of one mint. -/
theorem claim_one {wallet : Address} {t : Harvested} (hp : env.tokenProgram.Lawful)
    (hf : Tidy f.harvests)
    (h : Settles env k.1 (vaultWalletPairs [.harvestVault k.1 m, wallet]) l l' f.harvestsMap t) :
    (f.setHarvests t.toList).view = f.view.take m
      ∧ ∀ v, l'.balance v + (if v = .harvestVault k.1 m then f.unclaimed m else 0)
        = l.balance v + (if v = wallet then f.unclaimed m else 0) := by
  have hpays := h.paysOnce hp hf
  have hlisted : ∀ m', Listed k.1 (vaultWalletPairs [.harvestVault k.1 m, wallet]) m' ↔ m' = m := by
    intro m'
    simp [Listed, vaultWalletPairs]
  constructor
  · have hunclaimed : (f.setHarvests t.toList).unclaimed
        = fun m' => if m' = m then 0 else f.unclaimed m' := by
      funext m'
      rw [hpays.unclaimed]
      simp only [hlisted]
    unfold Farmer.view
    rw [hunclaimed]
    rfl
  · intro v
    have hbalances := hpays.balances v
    rw [hf.unclaimed_eq]
    cases hn : f.harvestsMap[m]?.filter (fun tokens => 0 < tokens) with
    | none =>
        rw [filter_pos_eq_none.mp hn, ite_self, ite_self]
        simp only [vaultWalletPairs, payouts, hn] at hbalances
        exact hbalances
    | some n =>
        rw [tokensOf_of_getElem? (filter_pos_eq_some.mp hn).1]
        simp only [vaultWalletPairs, payouts, hn, paidFrom, paidTo, paid_cons, decide_eq_true_eq,
          eq_comm (b := v)] at hbalances
        exact hbalances

/-! ## The two ways -/

/-- There is one check of a farmer up to a slot. -/
theorem Checked.unique {til : Slot} {g g' : Farmer} (h : Checked s k til f f')
    (h' : Checked s k til g g') : f' = g' := by
  obtain ⟨hf, farm, hfarm, hcheck⟩ := h
  obtain ⟨hg, farm', hfarm', hcheck'⟩ := h'
  obtain rfl := Option.some.inj (hf.symm.trans hg)
  obtain rfl := Option.some.inj (hfarm.symm.trans hfarm')
  exact Except.ok.inj (hcheck.symm.trans hcheck')

/-- A check up to the current slot of a farmer who had one, and whose
entries alone were written since. -/
theorem check_setHarvests {entries : List (Pubkey × TokenAmount)} {f₁ g : Farmer}
    (h : f.checkVestedPeriodAndUpdateHarvest farm now = .ok f₁)
    (hg : (f₁.setHarvests entries).checkVestedPeriodAndUpdateHarvest farm now = .ok g) :
    g = f₁.setHarvests entries := by
  obtain ⟨hripe, hcursor⟩ := Farmer.check_leaves h
  have hidle : (f₁.setHarvests entries).checkVestedPeriodAndUpdateHarvest farm now
      = .ok (f₁.setHarvests entries) := by
    refine Farmer.check_idle ?_ hcursor
    rw [Farmer.matureSnapshot_eq_none] at hripe ⊢
    exact hripe
  exact Except.ok.inj (hg.symm.trans hidle)

/-- **In one call.** -/
theorem compound_restakes {accs : CompoundSameFarm} (hp : env.tokenProgram.Lawful)
    (hs : Reached s) (hfarm : s.farms.lookup accs.farmer.1 = some farm)
    (hchecked : Checked s accs.farmer s.slot f f')
    (hcompound : step env s (.compoundSameFarm accs) = .ok t) :
    Restaked s accs.farmer farm.stakeMint f' t := by
  cases step_outcome hp hs.custody hcompound with
  | compoundSameFarm hlisted hfarm₁ hchecked₁ hfind hstaked htransfer =>
  obtain rfl := Option.some.inj (hfarm.symm.trans hfarm₁)
  obtain rfl := hchecked.unique hchecked₁
  obtain ⟨farm', hfarm', hcheck⟩ := hchecked.check
  have htidy : Tidy f'.harvests := (hs.check hchecked.farmer hfarm' hcheck).tidy
  have hunclaimed := htidy.unclaimed_find hfind
  refine ⟨rfl, rfl, rfl, ?_, fun k' hk' => AList.lookup_insert_ne hk', fun v => ?_⟩
  · refine (congrArg _ (AList.lookup_insert _)).trans ?_
    rw [Option.map_some, addToVested_view hstaked, taken_view htidy hfind, hunclaimed]
  · rw [hunclaimed]
    exact htransfer.balances v

/-- **In three calls**: an update, a claim to a wallet, and a deposit from it
of what was claimed. -/
theorem byHand_restakes {a b : FarmingState} {accs : StartFarming} {A : Pubkey}
    (hp : env.tokenProgram.Lawful) (hs : Reached s) (hk : accs.farmer = k)
    (hchecked : Checked s k s.slot f f')
    (hupdate : step env s (.updateEligibleHarvest k.1 k) = .ok a)
    (hclaim : step env a (.claimEligibleHarvest A k [.harvestVault k.1 m, accs.stakeWallet])
      = .ok b)
    (hn : n.val = f'.unclaimed m) (hstart : step env b (.startFarming accs n) = .ok t) :
    Restaked s k m f' t := by
  have ha := step_reached hp hs hupdate
  have hb := step_reached hp ha hclaim
  cases step_outcome hp hs.custody hupdate with
  | updateEligibleHarvest hchecked₁ =>
  obtain rfl := hchecked.unique hchecked₁
  cases step_outcome hp ha.custody hclaim with
  | @claimEligibleHarvest _ _ _ _ l₁ hf hsettles =>
  obtain rfl := Option.some.inj ((AList.lookup_insert _).symm.trans hf)
  obtain ⟨hview, hpaid⟩ := claim_one hp (ha.farmers _ _ hf) hsettles
  cases step_outcome hp hb.custody hstart with
  | @startFarming _ _ g g₁ g₂ l₂ hchecked₂ hstaked htransfer =>
  subst hk
  -- the deposit checks the farmer once more, which does nothing
  obtain ⟨farm, hfarm, hcheck⟩ := hchecked.check
  obtain ⟨farm', hfarm', hcheck'⟩ := hchecked₂.check
  obtain rfl := Option.some.inj (hfarm.symm.trans hfarm')
  obtain rfl := Option.some.inj ((AList.lookup_insert _).symm.trans hchecked₂.farmer)
  obtain rfl := check_setHarvests hcheck hcheck'
  refine ⟨rfl, rfl, rfl, ?_, fun k' hk' => ?_, fun v => ?_⟩
  · refine (congrArg _ (AList.lookup_insert _)).trans ?_
    rw [Option.map_some, addToVested_view hstaked, hview, hn]
    rfl
  · refine (AList.lookup_insert_ne hk').trans ((AList.lookup_insert_ne hk').trans ?_)
    exact AList.lookup_insert_ne hk'
  · have hclaimed : l₁.balance v + _ = s.ledger.balance v + _ := hpaid v
    have hdeposited : l₂.balance v + _ = l₁.balance v + _ := htransfer.balances v
    rw [hn] at hdeposited
    show l₂.balance v + _ = s.ledger.balance v + _
    omega

/-- **One call for three.** In every state that is reached, if a bot's
compounding of a farmer in their own farm succeeds, and an update, a claim
of the staked mint to a wallet and a deposit from that wallet of what was
claimed succeed as well, they leave the same books: every balance, the
wallet's included, every farm, the whitelist, and for every farmer the
same stake, the same vesting, the same cursor and the same credit of each
mint. -/
theorem compound_agrees (hp : env.tokenProgram.Lawful) (hg : Genesis s) (is : List Instr)
    {accs : CompoundSameFarm} {stake : StartFarming} {A : Pubkey} {a b : FarmingState}
    (hfarm : (run (step env) s is).farms.lookup accs.farmer.1 = some farm)
    (hcompound : step env (run (step env) s is) (.compoundSameFarm accs) = .ok t₁)
    (hupdate : step env (run (step env) s is)
      (.updateEligibleHarvest accs.farmer.1 accs.farmer) = .ok a)
    (hf : a.farmers.lookup accs.farmer = some f) (hn : n.val = f.unclaimed farm.stakeMint)
    (hclaim : step env a (.claimEligibleHarvest A accs.farmer
      [.harvestVault accs.farmer.1 farm.stakeMint, stake.stakeWallet]) = .ok b)
    (hfarmer : stake.farmer = accs.farmer)
    (hstart : step env b (.startFarming stake n) = .ok t₂) : SameBooks t₁ t₂ := by
  have hs : Reached (run (step env) s is) := run_reached hp hg is
  obtain ⟨g, g', hchecked, ha⟩ := updateEligibleHarvestHandle_checked hs.custody hupdate
  obtain rfl : g' = f := by
    rw [ha] at hf
    exact Option.some.inj ((AList.lookup_insert _).symm.trans hf)
  exact (compound_restakes hp hs hfarm hchecked hcompound).unique
    (byHand_restakes hp hs hfarmer hchecked hupdate hclaim hn hstart)

/-- Farm 3 harvests what it stakes, and user 10 is given 40 tokens in it. -/
def givenToCompound : FarmingState :=
  run (step sampleEnv) sampleGenesis [.createFarm 2 3 100, .addHarvest 2 3 100,
    .whitelistFarmForCompounding 2 3 3, .createFarmer 10 3, .airdrop ⟨10, (3, 10), .key 20⟩ 40]

/-- A bot's call, and the three calls of user 10. -/
def compoundCall : Instr := .compoundSameFarm ⟨3, .harvestVault 3 100, (3, 10)⟩
def updateCall : Instr := .updateEligibleHarvest 3 (3, 10)
def claimCall : Instr := .claimEligibleHarvest 10 (3, 10) [.harvestVault 3 100, .key 20]
def startCall : Instr := .startFarming ⟨10, (3, 10), .key 20, 3⟩ 40

/-- Both leave 40 tokens staked, and the wallet with what the gift left. -/
theorem compound_agrees_given :
    let byHand := exec (step sampleEnv) (exec (step sampleEnv)
      (exec (step sampleEnv) givenToCompound updateCall) claimCall) startCall
    SameBooks (exec (step sampleEnv) givenToCompound compoundCall) byHand
      ∧ byHand.deposits 3 = 40 ∧ byHand.ledger.balance (.key 20) = 960 := by
  intro byHand
  obtain ⟨farm, hfarm, hmint⟩ : ∃ farm, givenToCompound.farms.lookup 3 = some farm
      ∧ farm.stakeMint = 100 := by
    have hstakes : (givenToCompound.farms.lookup 3).map (·.stakeMint) = some 100 := by
      decide +kernel
    exact Option.map_eq_some_iff.mp hstakes
  obtain ⟨f, hf, hcredit⟩ : ∃ f, (exec (step sampleEnv) givenToCompound updateCall).farmers.lookup
      (3, 10) = some f ∧ f.unclaimed 100 = 40 := by
    have hcredited : ((exec (step sampleEnv) givenToCompound updateCall).farmers.lookup
        (3, 10)).map (fun f => f.unclaimed 100) = some 40 := by
      decide +kernel
    exact Option.map_eq_some_iff.mp hcredited
  have hcompound : step sampleEnv givenToCompound compoundCall = .ok _ :=
    step_of_isOk (by decide +kernel)
  have hupdate : step sampleEnv givenToCompound updateCall = .ok _ :=
    step_of_isOk (by decide +kernel)
  have hclaim : step sampleEnv (exec (step sampleEnv) givenToCompound updateCall) claimCall
      = .ok _ := step_of_isOk (by decide +kernel)
  have hstart : step sampleEnv (exec (step sampleEnv)
      (exec (step sampleEnv) givenToCompound updateCall) claimCall) startCall = .ok _ :=
    step_of_isOk (by decide +kernel)
  refine ⟨compound_agrees (A := 10) Token.Reference.lawful sampleGenesis_genesis _ hfarm hcompound
    hupdate hf ?_ ?_ rfl hstart, by decide +kernel, by decide +kernel⟩
  · rw [hmint, hcredit]
    rfl
  · rw [hmint]
    exact hclaim

end SolanaAmm.Farming
