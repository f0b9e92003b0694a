import SolanaAmm.Farming.Outcomes

/-!
# Farming — Outflows

By what right tokens leave a vault. Everybody may call the endpoints with
accounts of their choice and may ask the token program directly; still a
vault only pays a farmer's own deposit or credited harvest on the farmer's
signature, moves what a farmer was credited into the stake vault of the
same user's farmer, or returns the price of a period that had yet to start
to the farm's admin.
-/

namespace SolanaAmm.Farming

open Result Token Machine

/-- The farmers whose harvest is compounded, and into whose stake. -/
def Instr.compounds : Instr → Option (FarmerKey × FarmerKey)
  | .compoundSameFarm accs => some (accs.farmer, accs.farmer)
  | .compoundAcrossFarms accs => some (accs.sourceFarmer, accs.targetFarmer)
  | _ => none

/-- By what right a step took tokens out of a vault, and how many. -/
inductive Withdrawal (e : Event FarmingState Instr) : Address → Prop
  /-- The authority of a farmer took out of the farmer's deposit. -/
  | unstaked {accs max f f'} (hinstr : e.instr = .stopFarming accs max)
      (hf : e.before.farmers.lookup accs.farmer = some f)
      (hf' : e.after.farmers.lookup accs.farmer = some f')
      (hdeposited : f'.deposited + min max.val f.deposited = f.deposited)
      (hpaid : e.after.ledger.balance (.stakeVault accs.farm) + min max.val f.deposited
        = e.before.ledger.balance (.stakeVault accs.farm)) :
      Withdrawal e (.stakeVault accs.farm)
  /-- The authority of a farmer took what was credited of the mint. -/
  | claimed {k accounts m f f'} (hinstr : e.instr = .claimEligibleHarvest k.2 k accounts)
      (hf : e.before.farmers.lookup k = some f) (hf' : e.after.farmers.lookup k = some f')
      (hclaimed : f'.unclaimed m = 0)
      (hpaid : e.before.ledger.balance (.harvestVault k.1 m)
        ≤ e.after.ledger.balance (.harvestVault k.1 m) + f.unclaimed m) :
      Withdrawal e (.harvestVault k.1 m)
  /-- What a checked farmer was credited of the mint, and nothing else, became
  a deposit of the same user. -/
  | compounded {k₁ k₂ farm f f₁ f' g g' n} (hinstr : e.instr.compounds = some (k₁, k₂))
      (hsame : k₂.2 = k₁.2) (hlisted : e.before.whitelist.lookup (k₁.1, k₂.1) = some ())
      (hfarm : e.before.farms.lookup k₂.1 = some farm)
      (hchecked : Checked e.before k₁ e.before.slot f f₁)
      (hcredit : f₁.unclaimed farm.stakeMint = n)
      (hf' : e.after.farmers.lookup k₁ = some f')
      (hcleared : ∀ m, f'.unclaimed m = if m = farm.stakeMint then 0 else f₁.unclaimed m)
      (hg : e.before.farmers.lookup k₂ = some g) (hg' : e.after.farmers.lookup k₂ = some g')
      (hdeposited : g'.deposited = g.deposited + n)
      (hstaked : e.after.ledger.balance (.stakeVault k₂.1)
        = e.before.ledger.balance (.stakeVault k₂.1) + n)
      (hpaid : e.after.ledger.balance (.harvestVault k₁.1 farm.stakeMint) + n
        = e.before.ledger.balance (.harvestVault k₁.1 farm.stakeMint)) :
      Withdrawal e (.harvestVault k₁.1 farm.stakeMint)
  /-- The admin got back what a period had cost before it started. -/
  | refunded {accs m startsAt len tps farm h}
      (hinstr : e.instr = .newHarvestPeriod accs m startsAt len tps)
      (hadmin : AdminOf e.before accs.farm accs.admin farm) (hfind : farm.findHarvest m = some h)
      (hlater : e.before.slot < h.periods.head.startsAt)
      (hpaid : e.before.ledger.balance (.harvestVault accs.farm m)
        ≤ e.after.ledger.balance (.harvestVault accs.farm m) + h.periods.head.cost) :
      Withdrawal e (.harvestVault accs.farm m)

variable {env : Env} {s s' : FarmingState} {v : Address} {k : FarmerKey} {i : Instr}
  {f f' : Farmer} {l l' : Ledger Address Pubkey} {n : TokenAmount}

/-! ## The transfers -/

theorem Checked.deposited {til : Slot} (h : Checked s k til f f') :
    f'.deposited = f.deposited := by
  obtain ⟨farm, -, hcheck⟩ := h.check
  exact (Farmer.check_deposited hcheck).1

theorem Checked.tidy {til : Slot} (h : Checked s k til f f') (hs : Reached s) :
    Tidy f'.harvests := by
  obtain ⟨farm, hfarm, hcheck⟩ := h.check
  exact (hs.check h.farmer hfarm hcheck).tidy

/-- What a user signs takes nothing from a vault. -/
theorem Custody.not_lost (hc : Custody s) (hv : v.isKey = false) {src dst : Address} {key : Pubkey}
    (ht : Transferred s.ledger l' src dst (.key key) n) :
    ¬ l'.balance v < s.ledger.balance v := by
  have hflow := (flow_of_user hc.vaults ht).balance v hv
  unfold nothing at hflow
  omega

/-- A transfer from one account to another one. -/
theorem transferred_both {src dst authority : Address} (hne : src ≠ dst)
    (ht : Transferred l l' src dst authority n) :
    l'.balance src + n.val = l.balance src ∧ l'.balance dst = l.balance dst + n.val := by
  have hsrc := ht.balances src
  have hdst := ht.balances dst
  rw [if_pos rfl, if_neg hne] at hsrc
  rw [if_neg (Ne.symm hne), if_pos rfl] at hdst
  exact ⟨hsrc, hdst⟩

/-! ## The step -/

/-- **One step** that took tokens out of a vault had one of the rights. -/
theorem Outcome.withdrawal (hp : env.tokenProgram.Lawful) (hs : Reached s)
    (ho : Outcome env s i s') (hv : v.isKey = false)
    (hlt : s'.ledger.balance v < s.ledger.balance v) : Withdrawal ⟨s, i, s'⟩ v := by
  cases ho with
  | createFarm hnew hinit => exact absurd (hinit.balance v) (Nat.ne_of_lt hlt)
  | addHarvest hadmin hadd hinit => exact absurd (hinit.balance v) (Nat.ne_of_lt hlt)
  | removeHarvest hadmin hfind hclosed => exact absurd (hclosed.balance v) (Nat.ne_of_lt hlt)
  | setFarmOwner hadmin => exact absurd hlt (Nat.lt_irrefl _)
  | setMinSnapshotWindow hadmin => exact absurd hlt (Nat.lt_irrefl _)
  | @newHarvestPeriod accs m startsAt len tps farm h h' l' c hadmin hfind hsched hfunded hnet =>
      -- only a refund takes tokens out, and it is covered by the overwritten period
      cases hfunding : c.funding with
      | none =>
          rw [hfunding] at hfunded
          obtain rfl : l' = s.ledger := hfunded
          exact absurd hlt (Nat.lt_irrefl _)
      | some funding =>
          rw [hfunding] at hfunded hnet
          cases funding with
          | deposit tokens => exact absurd hlt (hs.custody.not_lost hv hfunded)
          | refund tokens =>
              obtain ⟨rfl, hpaid⟩ := Transferred.lost hfunded hlt
              have hpaid : l'.balance _ + tokens.val = s.ledger.balance _ := hpaid
              have hpos : 0 < tokens.val := by
                have : l'.balance (.harvestVault accs.farm m) < _ := hlt
                omega
              rw [netFunding] at hnet
              obtain ⟨p, hp⟩ : ∃ p, c.overwritten = some p := by
                rw [← Option.ne_none_iff_exists']
                intro hnone
                rw [PeriodCall.credit, hnone, Option.map_none, Option.getD_none] at hnet
                omega
              rw [PeriodCall.credit, hp, Option.map_some, Option.getD_some] at hnet
              rw [hp] at hsched
              obtain ⟨rfl, hlater⟩ := hsched.old_eq
              refine .refunded rfl hadmin hfind hlater ?_
              show s.ledger.balance _ ≤ l'.balance _ + _
              omega
  | takeSnapshot hfarm hvault hsnap => exact absurd hlt (Nat.lt_irrefl _)
  | createFarmer hnew hfarm hfresh hauthority => exact absurd hlt (Nat.lt_irrefl _)
  | closeFarmer hf hauthority hdeposited hunclaimed => exact absurd hlt (Nat.lt_irrefl _)
  | startFarming hchecked hstaked htransfer =>
      exact absurd hlt (hs.custody.not_lost hv htransfer)
  | @stopFarming accs max n f f₁ f₂ l' hchecked hunstaked htransfer =>
      obtain ⟨rfl, hpaid⟩ := htransfer.lost hlt
      have hun := Farmer.unstake_ok hunstaked
      have hamount : n.val = min max.val f.deposited := hchecked.deposited ▸ hun.paid
      refine .unstaked rfl hchecked.farmer (AList.lookup_insert _) ?_ ?_
      · rw [← hamount, hun.deposited, hchecked.deposited]
      · rw [← hamount]
        exact hpaid
  | updateEligibleHarvest hchecked => exact absurd hlt (Nat.lt_irrefl _)
  | updateEligibleHarvestUntil hchecked => exact absurd hlt (Nat.lt_irrefl _)
  | @claimEligibleHarvest k accounts f t l' hf hsettles =>
      have hpays := hsettles.paysOnce hp (hs.farmers k f hf)
      have hb : l'.balance v + _ = s.ledger.balance v + _ := hpays.balances v
      have hlt : l'.balance v < s.ledger.balance v := hlt
      -- a vault that pays is one of the farm that is listed
      obtain ⟨m, rfl⟩ : ∃ m, v = .harvestVault k.1 m := by
        by_contra hne
        rw [hpays.others v (fun m hm => hne ⟨m, hm⟩)] at hb
        omega
      have htotal := hpays.total m
      have hlisted : Listed k.1 (vaultWalletPairs accounts) m := by
        by_contra hnot
        rw [if_neg hnot] at htotal
        omega
      rw [if_pos hlisted] at htotal
      refine .claimed rfl hf (AList.lookup_insert _) ((hpays.unclaimed m).trans (if_pos hlisted)) ?_
      show s.ledger.balance _ ≤ l'.balance _ + _
      omega
  | whitelist hadmin => exact absurd hlt (Nat.lt_irrefl _)
  | dewhitelist hadmin => exact absurd hlt (Nat.lt_irrefl _)
  | compoundSameFarm hlisted hfarm hchecked hfind hstaked htransfer =>
      obtain ⟨rfl, -⟩ := htransfer.lost hlt
      obtain ⟨hpaid, hstake⟩ := transferred_both (by intro he; cases he) htransfer
      have htidy := hchecked.tidy hs
      refine .compounded rfl rfl hlisted hfarm hchecked (htidy.unclaimed_find hfind)
        (AList.lookup_insert _) (fun m => ?_) hchecked.farmer (AList.lookup_insert _) ?_ hstake
        hpaid
      · rw [Farmer.unclaimed_congr (Farmer.addToVested_ok hstaked).harvests,
          htidy.unclaimed_taken hfind]
      · rw [(Farmer.addToVested_ok hstaked).deposited,
          Farmer.sameStake_setHarvestTokens.deposited, hchecked.deposited]
  | compoundAcrossFarms hne hlisted hfarm hchecked hg hsame hfind hstaked htransfer =>
      obtain ⟨rfl, -⟩ := htransfer.lost hlt
      obtain ⟨hpaid, hstake⟩ := transferred_both (by intro he; cases he) htransfer
      have htidy := hchecked.tidy hs
      refine .compounded rfl ?_ hlisted hfarm hchecked (htidy.unclaimed_find hfind)
        ((AList.lookup_insert_ne (fun he => hne (congrArg Prod.fst he.symm))).trans
          (AList.lookup_insert _))
        (htidy.unclaimed_taken hfind) hg (AList.lookup_insert _)
        (Farmer.addToVested_ok hstaked).deposited hstake hpaid
      rw [← hs.owned _ _ hg, ← hsame]
      exact hs.owned _ _ hchecked.farmer
  | airdrop hf hfind ht htransfer => exact absurd hlt (hs.custody.not_lost hv htransfer)
  | tick hle => exact absurd hlt (Nat.lt_irrefl _)
  | token hsign hop =>
      have hflow := (flow_of_tokenOp hp hs.custody.vaults hsign hop).balance v hv
      have hlt : _ < _ := hlt
      unfold nothing at hflow
      exact absurd hlt (by simpa using hflow)

/-- **Withdrawals are authorised.** In every run from a genesis state,
whoever calls what with whichever accounts, a step that leaves a vault with
fewer tokens is a farmer's authority unstaking or claiming what is the
farmer's, a compounding that turns what a farmer was credited of the mint
into a deposit of the same user, or the farm's admin taking back the price
of a period that had yet to start. -/
theorem vault_withdrawals (hp : env.tokenProgram.Lawful) (hg : Genesis s) (is : List Instr) :
    ∀ e ∈ (run (traced (step env)) (s, []) is).2, ∀ v : Address, v.isKey = false →
      e.after.ledger.balance v < e.before.ledger.balance v → Withdrawal e v :=
  events_outcome hp hg is (fun _ _ _ hs ho _ hv hlt => ho.withdrawal hp hs hv hlt)

/-- User 10 stakes 50 tokens and takes 20 of them back. -/
def stakedAndBack : List Instr :=
  openFarm ++ [.tick 5, stakeOf 10 20 50, .tick 10, snapshotNow, unstakeOf 10 20 20]

theorem vault_withdrawals_staked_and_back :
    ∃ e ∈ (run (traced (step sampleEnv)) (sampleGenesis, []) stakedAndBack).2,
      e.after.ledger.balance (.stakeVault 1) + 20 = e.before.ledger.balance (.stakeVault 1)
        ∧ Withdrawal e (.stakeVault 1) := by
  have hany : (run (traced (step sampleEnv)) (sampleGenesis, []) stakedAndBack).2.any (fun e =>
      e.after.ledger.balance (.stakeVault 1) + 20 = e.before.ledger.balance (.stakeVault 1))
        = true := by
    decide +kernel
  obtain ⟨e, he, hpaid⟩ := List.any_eq_true.mp hany
  have hpaid := of_decide_eq_true hpaid
  refine ⟨e, he, hpaid, vault_withdrawals Token.Reference.lawful sampleGenesis_genesis _ e he _
    rfl ?_⟩
  omega

end SolanaAmm.Farming
