import SolanaAmm.Farming.Moves

/-!
# Farming — StakeVault

The stake vault of a farm holds at least what its farmers have deposited.
Tokens come in through three endpoints, each of which adds to a farmer
what it transfers; they leave only when a farmer unstakes them; and while
they mature they move from one field to the other.
-/

namespace SolanaAmm.Farming

open Result Token

/-- The sum of the farmers' staked and vested tokens. -/
def FarmingState.deposits (s : FarmingState) (F : Pubkey) : ℕ := s.sumOf F Farmer.deposited

/-- Every stake vault covers the deposits. -/
def Backed (s : FarmingState) : Prop :=
  ∀ F, s.deposits F ≤ s.ledger.balance (.stakeVault F)

variable {env : Env} {s s₁ s' : FarmingState} {act : Act} {F : Pubkey} {k : FarmerKey}
  {f f' : Farmer}

/-! ## Deposits -/

/-- What a farmer counts for a farm, as an amount at its stake vault. -/
theorem ofFarm_eq_only {g : Farmer → ℕ} :
    ofFarm F g k f = only (.stakeVault k.1) (g f) (.stakeVault F) := by
  unfold ofFarm
  by_cases he : k.1 = F
  · rw [if_pos he, he, only_self]
  · rw [if_neg he, only_ne (fun h => he (by cases h; rfl))]

theorem deposits_setFarmer (f' : Farmer) (hf : s.farmers.lookup k = some f) :
    (s.setFarmer k f').deposits F + only (.stakeVault k.1) f.deposited (.stakeVault F)
      = s.deposits F + only (.stakeVault k.1) f'.deposited (.stakeVault F) := by
  have h := Store.total_insert (g := ofFarm F Farmer.deposited) (w := f') hf
  rwa [ofFarm_eq_only, ofFarm_eq_only] at h

/-- Rewriting a farmer with the same deposit. -/
theorem deposits_setFarmer_same (hf : s.farmers.lookup k = some f)
    (hd : f'.deposited = f.deposited) : (s.setFarmer k f').deposits F = s.deposits F := by
  have h := deposits_setFarmer (F := F) f' hf
  rw [hd] at h
  omega

theorem Harvests.deposits {h : Option (FarmerKey × Slot)} (hh : Harvests s h s₁) :
    s₁.deposits F = s.deposits F := by
  cases hh with
  | none => rfl
  | check hf _ _ hcheck => exact deposits_setFarmer_same hf (Farmer.check_deposited hcheck).1

/-! ## The invariant -/

theorem Harvests.backed {h : Option (FarmerKey × Slot)} (hb : Backed s)
    (hh : Harvests s h s₁) : Backed s₁ := by
  intro F
  rw [hh.deposits]
  cases hh with
  | none => exact hb F
  | check _ _ _ _ => exact hb F

/-- A flow that takes nothing from the stake vaults. -/
theorem Backed.flow (hb : Backed s) {l' : Ledger Address Pubkey} {inflow outflow : Address → ℕ}
    (hflow : Flow s.ledger l' inflow outflow) (hout : ∀ F, outflow (.stakeVault F) = 0) :
    ∀ F, s.deposits F + inflow (.stakeVault F) ≤ l'.balance (.stakeVault F) := by
  intro F
  have hbal := hflow.balance (.stakeVault F) rfl
  have := hb F
  rw [hout F] at hbal
  omega

/-- A new account covers the deposits of a farm that had no vault. -/
theorem Backed.init (hb : Backed s) {l' : Ledger Address Pubkey} {v owner : Address} {m : Pubkey}
    (hinit : Initialized s.ledger l' v m owner) : Backed (s.setLedger l') := by
  intro F
  rw [FarmingState.setLedger_ledger, hinit.balance]
  exact hb F

/-- **The act**: what the vault loses was taken from a farmer's deposit. -/
theorem Acts.backed (hb : Backed s) (ha : Acts act s s') : Backed s' := by
  intro F
  have hF := hb F
  cases ha with
  | tick _ => exact hF
  | whitelist => exact hF
  | token hflow => exact (Nat.le_add_right _ _).trans (hb.flow hflow (fun _ => rfl) F)
  | settings _ _ => exact hF
  | createFarm _ hinit => exact hb.init hinit F
  | addHarvest _ _ hinit => exact hb.init hinit F
  | removeHarvest _ _ hclosed =>
      rw [FarmingState.setFarm_ledger, FarmingState.setLedger_ledger, hclosed.balance]
      exact hF
  | period _ _ _ hflow =>
      exact (Nat.le_add_right _ _).trans
        (hb.flow hflow (fun _ => only_ne (by intro he; cases he)) F)
  | snapshot _ _ _ => exact hF
  | createFarmer hnew hfresh =>
      show Store.total (ofFarm F Farmer.deposited) (s.farmers.insert _ _) ≤ _
      rw [Store.total_insert_new hnew, ofFarm, hfresh.deposited, ite_self]
      exact hF
  | closeFarmer hf _ _ =>
      show Store.total (ofFarm F Farmer.deposited) (s.farmers.erase _) ≤ _
      have := Store.total_erase (g := ofFarm F Farmer.deposited) hf
      unfold FarmingState.deposits FarmingState.sumOf at hF
      show _ ≤ s.ledger.balance (.stakeVault F)
      omega
  | @stake _ k f f' n _ hf hstaked hflow =>
      have htotal := deposits_setFarmer (s := s) (F := F) f' hf
      have hbal := hb.flow hflow (fun _ => rfl) F
      show (s.setFarmer k f').deposits F ≤ _
      rw [FarmingState.setFarmer_ledger, FarmingState.setLedger_ledger]
      rw [hstaked.deposited, only_add] at htotal
      omega
  | @unstake _ k f f' max n _ hf hunstaked hflow =>
      have htotal := deposits_setFarmer (s := s) (F := F) f' hf
      have hbal := hflow.balance (.stakeVault F) rfl
      show (s.setFarmer k f').deposits F ≤ _
      rw [FarmingState.setFarmer_ledger, FarmingState.setLedger_ledger]
      rw [nothing, Nat.add_zero] at hbal
      rw [← hunstaked.deposited, only_add] at htotal
      omega
  | claim hf same _ hothers hflow =>
      have hbal := hb.flow hflow (fun _ => hothers _ (by intro _ he; cases he)) F
      have htotal := deposits_setFarmer_same (s := s) (F := F) hf same.deposited
      exact htotal.le.trans ((Nat.le_add_right _ _).trans hbal)
  | @compound _ k₁ f₁ m n k₂ f₂ f₂' _ hf₁ _ hf₂ hstaked hflow =>
      have hclaimed : (s.setFarmer k₁ (f₁.setHarvestTokens m 0)).deposits F = s.deposits F :=
        deposits_setFarmer_same hf₁ rfl
      have htotal := deposits_setFarmer (F := F) f₂' hf₂
      have hbal := hb.flow hflow (fun _ => only_ne (by intro he; cases he)) F
      show ((s.setFarmer k₁ (f₁.setHarvestTokens m 0)).setFarmer k₂ f₂').deposits F ≤ _
      rw [FarmingState.setFarmer_ledger, FarmingState.setFarmer_ledger,
        FarmingState.setLedger_ledger]
      rw [hstaked.deposited, only_add] at htotal
      omega
  | @airdrop _ k f m _ t _ _ hf _ _ hflow =>
      have hbal := hb.flow hflow (fun _ => rfl) F
      have htotal : (s.setFarmer k (f.setHarvestTokens m t)).deposits F = s.deposits F :=
        deposits_setFarmer_same hf rfl
      exact htotal.le.trans ((Nat.le_add_right _ _).trans hbal)

/-- The vaults are in custody and cover the deposits. -/
structure Sound (s : FarmingState) : Prop where
  custody : Custody s
  backed : Backed s

theorem step_sound (hp : env.tokenProgram.Lawful) (hs : Sound s) {i : Instr}
    (h : step env s i = .ok s') : Sound s' := by
  obtain ⟨s₁, hh, ha⟩ := step_ok hp hs.custody h
  exact ⟨ha.custody (hh.custody hs.custody), ha.backed (hh.backed hs.backed)⟩

theorem Genesis.sound (hg : Genesis s) : Sound s where
  custody := hg.custody
  backed F := by
    rw [FarmingState.deposits, FarmingState.sumOf, hg.farmers]
    exact Nat.zero_le _

theorem run_sound (hp : env.tokenProgram.Lawful) (hs : Sound s) (is : List Instr) :
    Sound (Machine.run (step env) s is) :=
  Machine.run_invariant' (fun _ _ _ hI h => step_sound hp hI h) hs is

/-! ## Unstaking -/

/-- What a successful `stop_farming` did: it paid `n` tokens out of the
stake vault and took as many off the farmer's deposit. -/
structure Stopped (s s' : FarmingState) (accs : StopFarming) (unstakeMax : TokenAmount)
    (f f' : Farmer) (n : TokenAmount) : Prop where
  before : s.farmers.lookup accs.farmer = some f
  after : s'.farmers.lookup accs.farmer = some f'
  amount : n.val = min unstakeMax.val f.deposited
  deposited : f'.deposited + n.val = f.deposited
  paid : Transferred s.ledger s'.ledger (.stakeVault accs.farm) accs.stakeWallet
    (.farmSigner accs.farm) n

theorem stopFarming_stopped (hp : env.tokenProgram.Lawful) {accs : StopFarming}
    {unstakeMax : TokenAmount} (h : stopFarming env s accs unstakeMax = .ok s') :
    ∃ f f' n, Stopped s s' accs unstakeMax f f' n := by
  simp only [stopFarming, FarmingState.farm, FarmingState.farmer, bind_eq_ok, ensure_eq_ok,
    okOr_eq_ok, pure_eq_ok, Prod.exists] at h
  obtain ⟨f, hf, -, -, farm, hfarm, f₁, hcheck, f₂, n, hun, l', ht, rfl⟩ := h
  have hsame := (Farmer.check_deposited hcheck).1
  have hun := Farmer.unstake_ok hun
  exact ⟨f, f₂, n,
    { before := hf
      after := AList.lookup_insert _
      amount := hsame ▸ hun.paid
      deposited := hun.deposited.trans hsame
      paid := transferred hp ht }⟩

/-- **Stake vault solvency.** In every state that a run of the program
reaches, every stake vault holds at least the staked and vested tokens of
its farm's farmers; whenever a farmer stops farming, the vault pays
exactly what the farmer's deposit drops by, the smaller one of the limit
and the deposit; and no update or maturation changes a deposit. -/
theorem stake_vault_solvent (hp : env.tokenProgram.Lawful) :
    (∀ s is, Genesis s → ∀ F, (Machine.run (step env) s is).deposits F
      ≤ (Machine.run (step env) s is).ledger.balance (.stakeVault F))
    ∧ (∀ s accs unstakeMax s', step env s (.stopFarming accs unstakeMax) = .ok s' →
      ∃ f f' n, Stopped s s' accs unstakeMax f f' n)
    ∧ (∀ (f f' : Farmer) farm til, f.checkVestedPeriodAndUpdateHarvest farm til = .ok f' →
      f'.deposited = f.deposited)
    ∧ ∀ s F k til s', updateEligibleHarvestHandle s F k til = .ok s' →
      ∀ G, s'.deposits G = s.deposits G := by
  refine ⟨fun s is hg => (run_sound hp hg.sound is).backed,
    fun s accs unstakeMax s' h => stopFarming_stopped hp h,
    fun f f' farm til h => (Farmer.check_deposited h).1, fun s F k til s' h G => ?_⟩
  simp only [updateEligibleHarvestHandle, farmerOf, FarmingState.farm, FarmingState.farmer,
    bind_eq_ok, ensure_eq_ok, okOr_eq_ok, pure_eq_ok] at h
  obtain ⟨_, ⟨f, hf, -, -, rfl⟩, farm, hfarm, f₁, hcheck, rfl⟩ := h
  exact deposits_setFarmer_same hf (Farmer.check_deposited hcheck).1

/-! ## One farm, two farmers -/

/-- A token program that does what it is asked to, and a build without the
`prod` feature. -/
def sampleEnv : Env where
  tokenProgram := Token.Reference.tokenProgram
  prodFeature := false
  addressBytes _ := default

def wallet (mint owner : Pubkey) (amount : TokenAmount) : TokenAccount Address Pubkey :=
  ⟨mint, .key owner, amount, none, none, false⟩

/-- Users 10 and 11 hold 1000 stake tokens each in the wallets 20 and 21;
user 2 holds harvest tokens in the wallet 22. -/
def sampleGenesis : FarmingState where
  farms := ∅
  farmers := ∅
  whitelist := ∅
  ledger :=
    { accounts := List.toAList [⟨.key 20, wallet 100 10 1000⟩, ⟨.key 21, wallet 100 11 1000⟩,
        ⟨.key 22, wallet 200 2 1000000⟩]
      mints := List.toAList [⟨100, ⟨0, none, none⟩⟩, ⟨200, ⟨0, none, none⟩⟩] }
  slot := 1

theorem sampleGenesis_genesis : Genesis sampleGenesis where
  farms := rfl
  farmers := rfl
  vaults v hv := by
    cases v with
    | key k => cases hv
    | farmSigner F => rfl
    | stakeVault F => rfl
    | harvestVault F m => rfl

/-- Farm 1 of admin 2 with the stake mint 100 and the harvest mint 200, a
snapshot window of one slot, and farmers for the users 10 and 11. -/
def openFarm : List Instr :=
  [.createFarm 2 1 100, .addHarvest 2 1 200, .setMinSnapshotWindow 2 1 1, .createFarmer 10 1,
    .createFarmer 11 1]

def stakeOf (user : Pubkey) (walletKey : Pubkey) (stake : TokenAmount) : Instr :=
  .startFarming ⟨user, (1, user), .key walletKey, 1⟩ stake

def unstakeOf (user : Pubkey) (walletKey : Pubkey) (unstakeMax : TokenAmount) : Instr :=
  .stopFarming ⟨user, .key walletKey, 1⟩ unstakeMax

def snapshotNow : Instr := .takeSnapshot 1 (.stakeVault 1)

def updateOf (user : Pubkey) : Instr := .updateEligibleHarvest 1 (1, user)

def schedule (startsAt : Slot) (len : U64) (tps : TokenAmount) : Instr :=
  .newHarvestPeriod ⟨2, 1, .key 22⟩ 200 startsAt len tps

/-- Two farmers stake 50 and 30 tokens, of which 20 are unstaked after a
snapshot. -/
theorem stake_vault_solvent_two :
    (Machine.run (step sampleEnv) sampleGenesis (openFarm ++ [.tick 5, stakeOf 10 20 50,
        stakeOf 11 21 30, .tick 10, snapshotNow, .tick 20, unstakeOf 10 20 20])).deposits 1
      ≤ (Machine.run (step sampleEnv) sampleGenesis (openFarm ++ [.tick 5, stakeOf 10 20 50,
        stakeOf 11 21 30, .tick 10, snapshotNow, .tick 20, unstakeOf 10 20 20])).ledger.balance
          (.stakeVault 1)
    ∧ (Machine.run (step sampleEnv) sampleGenesis (openFarm ++ [.tick 5, stakeOf 10 20 50,
        stakeOf 11 21 30, .tick 10, snapshotNow, .tick 20, unstakeOf 10 20 20])).deposits 1
      = 60 :=
  ⟨(stake_vault_solvent Token.Reference.lawful).1 sampleGenesis _ sampleGenesis_genesis 1,
    by decide +kernel⟩

end SolanaAmm.Farming
