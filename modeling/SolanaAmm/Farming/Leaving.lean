import SolanaAmm.Farming.Exits

/-!
# Farming — Leaving

A user leaves a farm with three calls: they unstake everything, claim what
is credited and close the farmer. The last one is refused while anything is
credited, also of a mint that the farm does not harvest any more and that
could not be claimed; but a farm cannot drop a mint whose vault holds
tokens, so there is never such a credit.
-/

namespace SolanaAmm.Farming

open Result Token Machine

variable {env : Env} {s s₁ s' : FarmingState} {l l' : Ledger Address Pubkey} {act : Act}
  {F m : Pubkey} {k : FarmerKey} {f f' : Farmer} {farm farm' : Farm}

/-! ## The mints of the vaults -/

/-- A farm harvests the mint of every harvest vault that it has. -/
def VaultsListed (s : FarmingState) : Prop :=
  ∀ F m, s.ledger.accounts.lookup (.harvestVault F m) ≠ none →
    ∃ farm, s.farms.lookup F = some farm ∧ farm.Lists m

/-- A harvest that is written over with one of a mint lists it. -/
theorem Farm.lists_setHarvest {h h' : Harvest} (hfind : farm.findHarvest m = some h)
    (hne : h'.mint ≠ default) : (farm.setHarvest m h').Lists h'.mint := by
  obtain ⟨-, l₁, l₂, -, hset⟩ := Lists.setFirst_of_find? hfind
  have hset' : (farm.setHarvest m h').harvests = l₁ ++ h' :: l₂ := hset _
  exact ⟨hne, h', by rw [hset']; exact List.mem_append_right _ List.mem_cons_self, rfl⟩

/-- The vaults stay, or some are gone, and the mints stay. -/
theorem VaultsListed.flow {l' : Ledger Address Pubkey} {inflow outflow : Address → ℕ}
    (hs : VaultsListed s) (hflow : Flow s.ledger l' inflow outflow) :
    VaultsListed (s.setLedger l') :=
  fun F m hv => hs F m (fun ha => hv (hflow.absent _ rfl ha))

/-- A farm is written that lists the mints of its vaults. -/
theorem VaultsListed.setFarm (hs : VaultsListed s)
    (h : ∀ m, s.ledger.accounts.lookup (.harvestVault F m) ≠ none → farm'.Lists m) :
    VaultsListed (s.setFarm F farm') := by
  intro G m hv
  by_cases he : G = F
  · subst he
    exact ⟨farm', AList.lookup_insert _, h m hv⟩
  · obtain ⟨farm, hfarm, hlists⟩ := hs G m hv
    exact ⟨farm, (AList.lookup_insert_ne he).trans hfarm, hlists⟩

theorem Acts.vaultsListed (ha : Acts act s s') (hs : VaultsListed s) : VaultsListed s' := by
  cases ha with
  | tick _ => exact hs
  | whitelist => exact hs
  | token hflow => exact hs.flow hflow
  | @settings _ F farm farm' hfarm same =>
      refine hs.setFarm (fun m hv => ?_)
      obtain ⟨g, hg, hm, hlists⟩ := hs F m hv
      obtain rfl : g = farm := Option.some.inj (hg.symm.trans hfarm)
      exact ⟨hm, same.harvests ▸ hlists⟩
  | @createFarm _ F mint admin l' hnew hinit =>
      intro G m hv
      rw [show (FarmingState.setFarm _ _ _).ledger = l' from rfl,
        hinit.others _ (fun he => by cases he)] at hv
      obtain ⟨farm, hfarm, hlists⟩ := hs G m hv
      refine ⟨farm, (AList.lookup_insert_ne ?_).trans hfarm, hlists⟩
      rintro rfl
      rw [hnew] at hfarm
      cases hfarm
  | @addHarvest _ F farm farm' m l' hfarm hadd hinit =>
      obtain ⟨hall, hm, old, hfind, rfl⟩ := addHarvest_cases hadd
      intro G m' hv
      by_cases he : Address.harvestVault G m' = .harvestVault F m
      · cases he
        exact ⟨_, AList.lookup_insert _, Farm.lists_setHarvest hfind hm⟩
      · rw [show (FarmingState.setFarm _ _ _).ledger = l' from rfl, hinit.others _ he] at hv
        obtain ⟨g, hg, hlists⟩ := hs G m' hv
        by_cases hG : G = F
        · subst hG
          obtain rfl : g = farm := Option.some.inj (hg.symm.trans hfarm)
          exact ⟨_, AList.lookup_insert _,
            hlists.setHarvest hfind (fun hd => absurd hd.symm hlists.1)⟩
        · exact ⟨g, (AList.lookup_insert_ne hG).trans hg, hlists⟩
  | @removeHarvest _ F farm m h l' hfarm hfind hclosed =>
      intro G m' hv
      have hne : Address.harvestVault G m' ≠ .harvestVault F m := fun he =>
        hv (he ▸ hclosed.removed)
      rw [show (FarmingState.setFarm _ _ _).ledger = l' from rfl, hclosed.others _ hne] at hv
      obtain ⟨g, hg, hlists⟩ := hs G m' hv
      by_cases hG : G = F
      · subst hG
        obtain rfl : g = farm := Option.some.inj (hg.symm.trans hfarm)
        refine ⟨_, AList.lookup_insert _, hlists.setHarvest hfind (fun he => ?_)⟩
        exact absurd (congrArg (Address.harvestVault G) he.symm) hne
      · exact ⟨g, (AList.lookup_insert_ne hG).trans hg, hlists⟩
  | @period _ F farm m h h' q old l' hfarm hfind hsched hflow =>
      refine (hs.flow hflow).setFarm (fun m' hv => ?_)
      obtain ⟨g, hg, hlists⟩ := (hs.flow hflow) F m' hv
      obtain rfl : g = farm := Option.some.inj (hg.symm.trans hfarm)
      refine hlists.setHarvest hfind (fun he => ?_)
      obtain ⟨hmint, -⟩ := Lists.setFirst_of_find? hfind
      rw [hsched.mint, ← he]
      exact of_decide_eq_true hmint
  | @snapshot _ F farm farm' n hfarm hvault hsnap =>
      refine hs.setFarm (fun m hv => ?_)
      obtain ⟨g, hg, hlists⟩ := hs F m hv
      obtain rfl : g = farm := Option.some.inj (hg.symm.trans hfarm)
      rw [hsnap.pushed]
      exact hlists
  | createFarmer _ _ => exact hs
  | closeFarmer _ _ _ => exact hs
  | stake _ _ hflow => exact hs.flow hflow
  | unstake _ _ hflow => exact hs.flow hflow
  | claim _ _ _ _ hflow => exact hs.flow hflow
  | compound _ _ _ _ hflow => exact hs.flow hflow
  | airdrop _ _ _ hflow => exact hs.flow hflow

theorem Harvests.vaultsListed {h : Option (FarmerKey × Slot)} (hh : Harvests s h s₁)
    (hs : VaultsListed s) : VaultsListed s₁ := by
  cases hh with
  | none => exact hs
  | check _ _ _ _ => exact hs

theorem run_vaultsListed (hp : env.tokenProgram.Lawful) (hg : Genesis s) (is : List Instr) :
    VaultsListed (run (step env) s is) := by
  have hrun : Custody (run (step env) s is) ∧ VaultsListed (run (step env) s is) := by
    refine run_invariant' (I := fun s => Custody s ∧ VaultsListed s) (fun s i s' hI h => ?_)
      ⟨hg.custody, fun F m hv => absurd (hg.vaults _ rfl) hv⟩ is
    obtain ⟨s₁, hh, ha⟩ := step_ok hp hI.1 h
    exact ⟨step_custody hp hI.1 h, ha.vaultsListed (hh.vaultsListed hI.2)⟩
  exact hrun.2

/-- What is credited of a mint that the farm does not harvest is nothing. -/
theorem unclaimed_of_not_listed (hlisted : VaultsListed s)
    (hsolvent : s.unclaimed k.1 m ≤ s.ledger.balance (.harvestVault k.1 m))
    (hfarm : s.farms.lookup k.1 = some farm) (hf : s.farmers.lookup k = some f)
    (hm : ¬ farm.Lists m) : f.unclaimed m = 0 := by
  have habsent : s.ledger.accounts.lookup (.harvestVault k.1 m) = none := by
    by_contra hv
    obtain ⟨g, hg, hlists⟩ := hlisted k.1 m hv
    obtain rfl : g = farm := Option.some.inj (hg.symm.trans hfarm)
    exact hm hlists
  have hle := Store.le_total (g := ofFarm k.1 (fun f => f.unclaimed m)) hf
  rw [ofFarm, if_pos rfl] at hle
  have hzero : s.ledger.balance (.harvestVault k.1 m) = 0 := by
    rw [Ledger.balance, habsent]
  exact Nat.le_zero.mp (hle.trans (hsolvent.trans hzero.le))

/-! ## Three calls -/

/-- A farmer with nothing staked, vested or credited is closed. -/
theorem closeFarmer_isOk (hf : s.farmers.lookup k = some f) (hauthority : f.authority = k.2)
    (hdeposited : f.deposited = 0) (hclaimed : ∀ m, f.unclaimed m = 0) :
    step env s (.closeFarmer k.2 k) = .ok { s with farmers := s.farmers.erase k } := by
  have hf' : s.farmer k = .ok f := okOr_eq_ok.mpr hf
  have htotal : f.totalDeposited = .ok 0 := Farmer.totalDeposited_eq_ok.mpr hdeposited.symm
  have hnothing : ¬ f.harvests.any (fun h => h.tokens ≠ 0) := by
    intro hany
    obtain ⟨a, ha, hne⟩ := List.any_eq_true.mp hany
    have hle : a.tokens.val ≤ f.unclaimed a.mint :=
      List.le_sum_of_mem (List.mem_map.mpr ⟨a, List.mem_filter.mpr ⟨ha, decide_eq_true rfl⟩, rfl⟩)
    rw [hclaimed] at hle
    exact of_decide_eq_true hne (Word.val_eq_zero.mp (Nat.le_zero.mp hle))
  show closeFarmer s k.2 k = _
  unfold closeFarmer
  rw [hf', ok_bind, (ensure_eq_ok (u := ())).mpr hauthority, ok_bind, htotal, ok_bind,
    (ensure_eq_ok (u := ())).mpr rfl, ok_bind, (ensure_eq_ok (u := ())).mpr hnothing]
  rfl

/-- The wallets are still there after the vault has paid. -/
theorem pairs_paid {pairs : List (Address × Address)} {src dst authority : Address}
    {n : TokenAmount} (ht : Transferred l l' src dst authority n)
    (hfrozen : ∀ v, l'.isFrozen v = l.isFrozen v)
    (h : ∀ pair ∈ pairs, ∃ m, farm.Lists m ∧ pair.1 = .harvestVault F m
      ∧ l.isFrozen pair.1 = false ∧ l.Receives m pair.2) :
    ∀ pair ∈ pairs, ∃ m, farm.Lists m ∧ pair.1 = .harvestVault F m
      ∧ l'.isFrozen pair.1 = false ∧ l'.Receives m pair.2 := by
  intro pair hmem
  obtain ⟨m, hlists, hvault, hthawed, hwallet⟩ := h pair hmem
  exact ⟨m, hlists, hvault, (hfrozen _).trans hthawed, hwallet.frame ht.toFrame hfrozen⟩

/-- Nothing listed, nothing paid. -/
theorem PaysOnce.nil (hf : Tidy f.harvests) : PaysOnce env F [] l l f f where
  own := fun _ h => nomatch h
  transfers := rfl
  total := fun _ => rfl
  others := fun _ _ => rfl
  balances := fun _ => rfl
  unclaimed := fun _ => rfl
  entries := fun _ h => h
  tidy := hf

/-- What the calls rely on. -/
structure Solid (s : FarmingState) : Prop extends Reached s where
  vaultsMade : HarvestVaults s
  vaultsListed : VaultsListed s
  supplied : s.ledger.Backed
  funded : ∀ F m, s.unclaimed F m ≤ s.ledger.balance (.harvestVault F m)

theorem run_solid (hp : env.tokenProgram.Lawful) (hg : Genesis s) (hl : s.ledger.Backed)
    {is : List Instr} (hG : Guarded (traced (step env)) KeepsShares (s, []) is) :
    Solid (run (step env) s is) where
  toReached := run_reached hp hg is
  vaultsMade := run_harvestVaults hp hg is
  vaultsListed := run_vaultsListed hp hg is
  supplied := run_backed hp hg hl is
  funded := run_unclaimed_le hp hg hG

/-- **Claiming and closing**, once nothing is staked. -/
theorem claim_and_close (hp : env.tokenProgram.Lawful) (hlive : env.tokenProgram.Live)
    (hs : Solid s) (hfarm : s.farms.lookup k.1 = some farm) (hf : s.farmers.lookup k = some f)
    (hdeposited : f.deposited = 0) {accounts : List Address} (heven : accounts.length % 2 = 0)
    (hpairs : ∀ pair ∈ vaultWalletPairs accounts, ∃ m, farm.Lists m
      ∧ pair.1 = .harvestVault k.1 m ∧ s.ledger.isFrozen pair.1 = false
      ∧ s.ledger.Receives m pair.2)
    (hall : ∀ m, farm.Lists m → Listed k.1 (vaultWalletPairs accounts) m) :
    ∃ t t' f', (if accounts = [] then t = s
        else step env s (.claimEligibleHarvest k.2 k accounts) = .ok t)
      ∧ step env t (.closeFarmer k.2 k) = .ok t' ∧ t'.farmers.lookup k = none
      ∧ PaysOnce env k.1 (vaultWalletPairs accounts) s.ledger t'.ledger f f' := by
  -- what is left to claim is nothing, so that the farmer can be closed
  have hclose : ∀ {t : FarmingState} {f' : Farmer}, t.farmers.lookup k = some f' →
      f'.authority = f.authority → f'.deposited = f.deposited →
      PaysOnce env k.1 (vaultWalletPairs accounts) s.ledger t.ledger f f' →
      step env t (.closeFarmer k.2 k) = .ok { t with farmers := t.farmers.erase k } := by
    intro t f' hf' hauthority hsame hpays
    refine closeFarmer_isOk hf' (hauthority.trans (hs.owned k f hf)) (hsame.trans hdeposited)
      (fun m => ?_)
    rw [hpays.unclaimed]
    split
    · rfl
    · rename_i hm
      exact unclaimed_of_not_listed hs.vaultsListed (hs.funded k.1 m) hfarm hf
        (fun hlists => hm (hall m hlists))
  by_cases hempty : accounts = []
  · subst hempty
    have hpays : PaysOnce env k.1 (vaultWalletPairs []) s.ledger s.ledger f f :=
      .nil (hs.farmers k f hf)
    exact ⟨s, _, f, (if_pos rfl).mpr rfl, hclose hf rfl rfl hpays, AList.lookup_erase k _, hpays⟩
  · obtain ⟨l', f', hstep, hauthority, hsame, hpays⟩ := claimEligibleHarvest_isOk hp hlive
      hs.toReached hs.vaultsMade hs.supplied (hs.funded k.1) hfarm hf hempty heven hpairs
    refine ⟨_, _, f', (if_neg hempty).mpr hstep,
      hclose (AList.lookup_insert _) hauthority hsame hpays, AList.lookup_erase k _, hpays⟩

/-- **Leaving.** In every run in which no farm takes a snapshot in a slot
that it releases tokens in and has credited a farmer for, a farmer with
room for what the farm releases can unstake all, claim the credit of all
mints that the farm harvests, if there are any, and be closed: the calls
succeed, the wallet gets the whole deposit, every credit is paid, and
nothing is left behind. -/
theorem farmer_can_leave (hp : env.tokenProgram.Lawful) (hlive : env.tokenProgram.Live)
    (hg : Genesis s) (hl : s.ledger.Backed) {is : List Instr}
    (hG : Guarded (traced (step env)) KeepsShares (s, []) is)
    (hfarm : (run (step env) s is).farms.lookup k.1 = some farm)
    (hf : (run (step env) s is).farmers.lookup k = some f)
    (hlast : (run (step env) s is).slot.val + 1 < 2 ^ 64)
    (hroom : ∀ h ∈ farm.harvests, h.mint ≠ default → f.unclaimed h.mint + h.emission < 2 ^ 64)
    {wallet : Address} (hwallet : (run (step env) s is).ledger.Receives farm.stakeMint wallet)
    (hthawed : (run (step env) s is).ledger.isFrozen (.stakeVault k.1) = false)
    {accounts : List Address} (heven : accounts.length % 2 = 0)
    (hpairs : ∀ pair ∈ vaultWalletPairs accounts, ∃ m, farm.Lists m
      ∧ pair.1 = .harvestVault k.1 m ∧ (run (step env) s is).ledger.isFrozen pair.1 = false
      ∧ (run (step env) s is).ledger.Receives m pair.2)
    (hall : ∀ m, farm.Lists m → Listed k.1 (vaultWalletPairs accounts) m) :
    ∃ t₁ t₂ t₃ f₁ f₂,
      step env (run (step env) s is) (.stopFarming ⟨k.2, wallet, k.1⟩ Word.maxValue) = .ok t₁
      ∧ (if accounts = [] then t₂ = t₁
        else step env t₁ (.claimEligibleHarvest k.2 k accounts) = .ok t₂)
      ∧ step env t₂ (.closeFarmer k.2 k) = .ok t₃
      ∧ t₃.farmers.lookup k = none
      ∧ (∀ v, t₁.ledger.balance v + (if v = .stakeVault k.1 then f.deposited else 0)
        = (run (step env) s is).ledger.balance v + (if v = wallet then f.deposited else 0))
      ∧ (∀ m, farm.Lists m → f.unclaimed m ≤ f₁.unclaimed m)
      ∧ PaysOnce env k.1 (vaultWalletPairs accounts) t₁.ledger t₃.ledger f₁ f₂ := by
  obtain ⟨fc, f₁, l', n, hw, hfrozen, hstop⟩ := stopFarming_isOk hp hlive
    (run_shared hp hg.shared is) (run_wellKept hp hg is hfarm) (run_backed hp hg hl is) hfarm hf
    hlast hroom hwallet hthawed (show (Word.maxValue : TokenAmount) ≠ 0 by decide)
  have hdeposit := (run_shared hp hg.shared is).toSound.deposited_lt hf
  have hmin : min (Word.maxValue : TokenAmount).val f.deposited = f.deposited :=
    Nat.min_eq_right (Nat.le_pred_of_lt hdeposit)
  have hpaid := hw.paid
  rw [hmin] at hpaid
  have hdeposited : f₁.deposited = 0 := by
    have hsum := hw.unstaked.deposited
    rw [(Farmer.check_deposited hw.checked).1] at hsum
    omega
  have hrun : run (step env) s (is ++ [.stopFarming ⟨k.2, wallet, k.1⟩ Word.maxValue])
      = ((run (step env) s is).setLedger l').setFarmer k f₁ := by
    rw [run_append, run_cons, run_nil, exec_ok hstop]
  have hG₁ : Guarded (traced (step env)) KeepsShares (s, [])
      (is ++ [.stopFarming ⟨k.2, wallet, k.1⟩ Word.maxValue]) :=
    hG.append (show Guarded _ _ _ [Instr.stopFarming ⟨k.2, wallet, k.1⟩ Word.maxValue] from
      ⟨fun _ hF => (nomatch hF), trivial⟩)
  have hsolid : Solid (((run (step env) s is).setLedger l').setFarmer k f₁) :=
    hrun ▸ run_solid hp hg hl hG₁
  obtain ⟨t₂, t₃, f₂, hclaim, hclose, hgone, hpays⟩ := claim_and_close hp hlive hsolid
    hfarm (AList.lookup_insert _) hdeposited heven (pairs_paid hw.transferred hfrozen hpairs) hall
  refine ⟨_, t₂, t₃, f₁, f₂, hstop, hclaim, hclose, hgone, fun v => ?_, fun m hlists => ?_, hpays⟩
  · rw [← hpaid]
    exact hw.transferred.balances v
  · have htidy := (run_reached hp hg is).farmers k f hf
    have hkept := Farmer.check_kept htidy (run_wellKept hp hg is hfarm).slots hw.checked
    rw [Farmer.unclaimed_congr hw.unstaked.harvests]
    exact hkept.unclaimed_le htidy hlists

/-- The farmer of a farm that releases a harvest takes 10 tokens back, claims
what is credited and is closed. -/
theorem farmer_can_leave_sample :
    ∃ t₁ t₂ t₃, step sampleEnv (run (step sampleEnv) backedGenesis updatedInPeriod)
        (.stopFarming ⟨10, .key 20, 1⟩ Word.maxValue) = .ok t₁
      ∧ step sampleEnv t₁ (.claimEligibleHarvest 10 (1, 10) [.harvestVault 1 200, .key 22]) = .ok t₂
      ∧ step sampleEnv t₂ (.closeFarmer 10 (1, 10)) = .ok t₃
      ∧ t₃.farmers.lookup (1, 10) = none
      ∧ t₁.ledger.balance (.key 20)
        = (run (step sampleEnv) backedGenesis updatedInPeriod).ledger.balance (.key 20) + 10 := by
  obtain ⟨farm, hfarm, hpairs⟩ := updatedInPeriod_claimable
  obtain ⟨f, hf, -⟩ := updatedInPeriod_credit
  have hten : ∀ f ∈ (run (step sampleEnv) backedGenesis updatedInPeriod).farmers.lookup (1, 10),
      f.deposited = 10 := by decide +kernel
  have hlists : ∀ farm ∈ (run (step sampleEnv) backedGenesis updatedInPeriod).farms.lookup 1,
      farm.Lists 200 ∧ ∀ h ∈ farm.harvests, h.mint ≠ default → h.mint = 200 := by decide +kernel
  have hroom : ∀ farm ∈ (run (step sampleEnv) backedGenesis updatedInPeriod).farms.lookup 1,
      ∀ f ∈ (run (step sampleEnv) backedGenesis updatedInPeriod).farmers.lookup (1, 10),
      ∀ h ∈ farm.harvests, h.mint ≠ default → f.unclaimed h.mint + h.emission < 2 ^ 64 := by
    decide +kernel
  have hwallet : ∀ farm ∈ (run (step sampleEnv) backedGenesis updatedInPeriod).farms.lookup 1,
      (run (step sampleEnv) backedGenesis updatedInPeriod).ledger.Of farm.stakeMint (.key 20) := by
    decide +kernel
  have hall : ∀ m, farm.Lists m → Listed 1 (vaultWalletPairs [.harvestVault 1 200, .key 22]) m := by
    rintro m ⟨hm, h, hh, rfl⟩
    rw [(hlists farm hfarm).2 h hh hm]
    decide
  obtain ⟨t₁, t₂, t₃, f₁, -, hstop, hclaim, hclose, hgone, hback, -⟩ :=
    farmer_can_leave (k := (1, 10)) Token.Reference.lawful Token.Reference.live
      backedGenesis_genesis backedGenesis_backed (by decide +kernel) hfarm hf (by decide +kernel)
      (hroom farm hfarm f hf) ⟨hwallet farm hfarm, by decide +kernel⟩ (by decide +kernel) rfl hpairs
      hall
  rw [if_neg (List.cons_ne_nil _ _)] at hclaim
  have hwon := hback (.key 20)
  rw [if_neg (fun he => by cases he), if_pos rfl, hten f hf] at hwon
  exact ⟨t₁, t₂, t₃, hstop, hclaim, hclose, hgone, hwon⟩

end SolanaAmm.Farming
