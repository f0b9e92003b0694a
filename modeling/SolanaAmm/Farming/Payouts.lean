import SolanaAmm.Farming.Bookkeeping

/-!
# Farming — Payouts

A claim pays each credited amount once. Whatever accounts the caller lists,
in whatever order and however often, every harvest vault that is listed
pays all that the farmer was credited of its mint, and these entries go to
zero; all others stay as they are.
-/

namespace SolanaAmm.Farming

open Result Token Machine

variable {env : Env} {s s' : FarmingState} {F : Pubkey} {k : FarmerKey} {f f' : Farmer}
  {pairs : List (Address × Address)} {l l' : Ledger Address Pubkey} {t : Harvested}

/-- What a claim of a farmer of the farm `F` over the pairs did. -/
structure PaysOnce (env : Env) (F : Pubkey) (pairs : List (Address × Address))
    (l l' : Ledger Address Pubkey) (f f' : Farmer) : Prop where
  /-- Only vaults of the farm are listed. -/
  own : ∀ pair ∈ pairs, ∃ m, pair.1 = .harvestVault F m
  /-- The payouts were made, one after the other. -/
  transfers : (payouts f.harvestsMap pairs).foldlM (pay env F) l = .ok l'
  /-- A listed vault paid what was credited of its mint. -/
  total : ∀ m, paidFrom (payouts f.harvestsMap pairs) (.harvestVault F m)
    = if Listed F pairs m then f.unclaimed m else 0
  /-- Nothing else paid. -/
  others : ∀ v, (∀ m, v ≠ .harvestVault F m) → paidFrom (payouts f.harvestsMap pairs) v = 0
  balances : ∀ v, l'.balance v + paidFrom (payouts f.harvestsMap pairs) v
    = l.balance v + paidTo (payouts f.harvestsMap pairs) v
  unclaimed : ∀ m, f'.unclaimed m = if Listed F pairs m then 0 else f.unclaimed m
  /-- Every entry is still there, with nothing or what it had. -/
  entries : ∀ a ∈ f.harvests,
    ⟨a.mint, if Listed F pairs a.mint then 0 else a.tokens⟩ ∈ f'.harvests
  tidy : Tidy f'.harvests

theorem Settles.paysOnce (hp : env.tokenProgram.Lawful) (hf : Tidy f.harvests)
    (h : Settles env F pairs l l' f.harvestsMap t) :
    PaysOnce env F pairs l l' f (f.setHarvests t.toList) where
  own := h.own
  transfers := h.transfers
  total m := by rw [paidFrom_payouts h.own, hf.unclaimed_eq]
  others v hv := by
    refine paidFrom_eq_zero (fun p hp he => ?_)
    obtain ⟨m, hm⟩ := vault_of_mem_payouts h.own hp
    exact hv m (he.symm.trans hm)
  balances v := balance_pays hp h.transfers
  unclaimed m := by
    rw [Farmer.unclaimed_setHarvests (h.size_le hf), h.tokensOf, hf.unclaimed_eq]
  entries a ha := by
    refine (Farmer.mem_setHarvests (h.size_le hf)).mpr (.inl ?_)
    rw [h.tokens, hf.getElem?_harvestsMap ha]
    split <;> rfl
  tidy := h.tidy hf

/-- **A claim pays once.** In every state that is reached, a successful claim
over any accounts made exactly the payouts of its pairs: in total, every
harvest vault of the farm that is listed pays the credited tokens of its
mint, no other account pays anything, the entries of the listed mints are
zero and all others are unchanged. -/
theorem claim_pays_once (hp : env.tokenProgram.Lawful) (hg : Genesis s) (is : List Instr)
    {authority : Pubkey} {accounts : List Address}
    (h : claimEligibleHarvest env (run (step env) s is) authority k accounts = .ok s') :
    ∃ f f', (run (step env) s is).farmers.lookup k = some f ∧ s'.farmers.lookup k = some f'
      ∧ PaysOnce env k.1 (vaultWalletPairs accounts) (run (step env) s is).ledger s'.ledger
        f f' := by
  have hbooks := run_books hp hg is
  simp only [claimEligibleHarvest, FarmingState.farmer, bind_eq_ok, okOr_eq_ok, pure_eq_ok,
    Prod.exists] at h
  obtain ⟨f, hf, -, -, -, -, l', t, hfold, rfl⟩ := h
  rw [hbooks.custody.farmer k f hf] at hfold
  exact ⟨f, _, hf, AList.lookup_insert _,
    (claimPairs_settle hfold).paysOnce hp (hbooks.farmers k f hf)⟩

/-- A farmer with 30 tokens of the mint 200 lists its vault twice. -/
def updatedAgain : FarmingState :=
  run (step sampleEnv) sampleGenesis (mintsExchanged ++ [updateOf 10])

def listedTwice : List Address :=
  [.harvestVault 1 200, .key 22, .harvestVault 1 200, .key 22]

/-- They are paid the 30 tokens once. -/
theorem claim_pays_once_listed_twice :
    ∃ s' f f', claimEligibleHarvest sampleEnv updatedAgain 10 (1, 10) listedTwice = .ok s'
      ∧ f.unclaimed 200 = 30
      ∧ PaysOnce sampleEnv 1 (vaultWalletPairs listedTwice) updatedAgain.ledger s'.ledger f f' := by
  have hok : (claimEligibleHarvest sampleEnv updatedAgain 10 (1, 10) listedTwice).isOk = true := by
    decide +kernel
  have hcredited : (updatedAgain.farmers.lookup (1, 10)).map (fun f => f.unclaimed 200)
      = some 30 := by
    decide +kernel
  cases h : claimEligibleHarvest sampleEnv updatedAgain 10 (1, 10) listedTwice with
  | error e =>
      rw [h] at hok
      cases hok
  | ok s' =>
      obtain ⟨f, f', hf, -, hpays⟩ := claim_pays_once Token.Reference.lawful
        sampleGenesis_genesis _ h
      have hf : updatedAgain.farmers.lookup (1, 10) = some f := hf
      rw [hf] at hcredited
      exact ⟨s', f, f', rfl, Option.some.inj hcredited, hpays⟩

end SolanaAmm.Farming
