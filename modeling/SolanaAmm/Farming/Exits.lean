import SolanaAmm.Farming.Solvency
import SolanaAmm.Farming.Wealth
import SolanaAmm.Farming.Withdrawal
import SolanaAmm.Lib.Circulation
import Mathlib.Logic.Relation

/-!
# Farming — Exits

What a user is owed they can have. That nothing but the token transfer
stands in the way of unstaking is known; here the transfer succeeds too:
the vaults of a farm hold enough and keep the mint they were made for, and
the token program has no other reason to refuse.
-/

namespace SolanaAmm.Farming

open Result Token Machine

variable {env : Env} {s s' : FarmingState} {l l' : Ledger Address Pubkey} {v : Address}
  {F m : Pubkey} {i : Instr} {k : FarmerKey} {f f' : Farmer} {farm farm' : Farm}

/-! ## What a step does to the ledger -/

def Moves (l l' : Ledger Address Pubkey) : Prop :=
  ∃ src dst authority n, Transferred l l' src dst authority n

/-- A vault was opened or closed, tokens were moved, or a user asked the
token program for something. -/
inductive LedgerStep (env : Env) (i : Instr) (l l' : Ledger Address Pubkey) : Prop
  | opened {v : Address} {m : Pubkey} (hinit : Initialized l l' v m v.signer)
  | closed {admin F m : Pubkey} (hinstr : i = .removeHarvest admin F m)
      (hclosed : Closed l l' (.harvestVault F m) (.farmSigner F))
  | moved (hmoved : Relation.ReflTransGen Moves l l')
  | asked {op : TokenOp Address Pubkey} (hsign : op.signer.all Address.isKey = true)
      (hop : op.apply env.tokenProgram l = some l')

theorem LedgerStep.of_transfer {src dst authority : Address} {n : TokenAmount}
    (h : Transferred l l' src dst authority n) : LedgerStep env i l l' :=
  .moved (.single ⟨src, dst, authority, n, h⟩)

theorem LedgerStep.refl : LedgerStep env i l l := .moved .refl

theorem pays_moves (hp : env.tokenProgram.Lawful) {ps : List Payout}
    (h : ps.foldlM (pay env F) l = .ok l') : Relation.ReflTransGen Moves l l' := by
  induction ps generalizing l with
  | nil =>
      rw [List.foldlM_nil, pure_eq_ok] at h
      rw [h]
  | cons p ps ih =>
      rw [List.foldlM_cons, bind_eq_ok] at h
      obtain ⟨l₁, h₁, h₂⟩ := h
      exact .head ⟨_, _, _, _, transferred hp h₁⟩ (ih h₂)

theorem Outcome.ledgerStep (hp : env.tokenProgram.Lawful) (ho : Outcome env s i s') :
    LedgerStep env i s.ledger s'.ledger := by
  cases ho with
  | @createFarm admin F m l' hnew hinit => exact .opened (v := .stakeVault F) hinit
  | @addHarvest admin F m farm farm' l' hadmin hadd hinit =>
      exact .opened (v := .harvestVault F m) hinit
  | removeHarvest hadmin hfind hclosed => exact .closed rfl hclosed
  | @newHarvestPeriod accs m startsAt len tps farm h h' l' c hadmin hfind hsched hfunded hnet =>
      cases hfunding : c.funding with
      | none =>
          rw [hfunding] at hfunded
          obtain rfl : l' = s.ledger := hfunded
          exact .refl
      | some funding =>
          rw [hfunding] at hfunded
          cases funding with
          | deposit tokens => exact .of_transfer hfunded
          | refund tokens => exact .of_transfer hfunded
  | startFarming hchecked hstaked htransfer => exact .of_transfer htransfer
  | stopFarming hchecked hunstaked htransfer => exact .of_transfer htransfer
  | claimEligibleHarvest hf hsettles => exact .moved (pays_moves hp hsettles.transfers)
  | compoundSameFarm hlisted hfarm hchecked hfind hstaked htransfer => exact .of_transfer htransfer
  | compoundAcrossFarms hne hlisted hfarm hchecked hg hsame hfind hstaked htransfer =>
      exact .of_transfer htransfer
  | airdrop hf hfind ht htransfer => exact .of_transfer htransfer
  | token hsign hop => exact .asked hsign hop
  | _ => exact .refl

theorem LedgerStep.backed (hp : env.tokenProgram.Lawful) (h : LedgerStep env i l l')
    (hl : l.Backed) : l'.Backed := by
  cases h with
  | opened hinit => exact hinit.backed hl
  | closed hinstr hclosed => exact hclosed.backed hl
  | moved hmoved =>
      induction hmoved with
      | refl => exact hl
      | tail _ hmove ih =>
          obtain ⟨_, _, _, _, ht⟩ := hmove
          exact ht.backed ih
  | asked hsign hop => exact TokenOp.apply_backed hp hop hl

/-- A vault stays what it is until it is closed. -/
theorem LedgerStep.held (hp : env.tokenProgram.Lawful) (h : LedgerStep env i l l')
    (hv : v.isKey = false) (hheld : Held l v m v.signer)
    (hi : ∀ admin F m', i = .removeHarvest admin F m' → v ≠ .harvestVault F m') :
    Held l' v m v.signer := by
  cases h with
  | opened hinit =>
      refine hheld.congr (hinit.others v ?_)
      rintro rfl
      obtain ⟨a, ha, -⟩ := hheld
      rw [hinit.absent] at ha
      cases ha
  | closed hinstr hclosed => exact hheld.congr (hclosed.others v (hi _ _ _ hinstr))
  | moved hmoved =>
      induction hmoved with
      | refl => exact hheld
      | tail _ hmove ih =>
          obtain ⟨_, _, _, _, ht⟩ := hmove
          exact ih.frame ht.toFrame
  | @asked op hsign hop =>
      refine (op.apply_held hp hop hheld (fun he => ?_)).1
      rw [he, Option.all_some, Address.signer_isKey hv] at hsign
      cases hsign

theorem run_backed (hp : env.tokenProgram.Lawful) (hg : Genesis s) (hl : s.ledger.Backed)
    (is : List Instr) : (run (step env) s is).ledger.Backed := by
  have hrun : Reached (run (step env) s is) ∧ (run (step env) s is).ledger.Backed :=
    run_invariant' (I := fun s => Reached s ∧ s.ledger.Backed)
      (fun s i s' hI h => ⟨step_reached hp hI.1 h,
        ((step_outcome hp hI.1.custody h).ledgerStep hp).backed hp hI.2⟩) ⟨hg.reached, hl⟩ is
  exact hrun.2

/-! ## The vaults of the mints -/

/-- Every mint that a farm harvests has its vault. -/
def HarvestVaults (s : FarmingState) : Prop :=
  ∀ F farm m, s.farms.lookup F = some farm → farm.Lists m →
    Held s.ledger (.harvestVault F m) m (.farmSigner F)

/-- The mints after a harvest was written over. -/
theorem Farm.lists_of_setHarvest {h h' : Harvest} {M : Pubkey}
    (hfind : farm.findHarvest m = some h) (hlists : (farm.setHarvest m h').Lists M) :
    h'.mint = M ∨ farm.Lists M := by
  obtain ⟨hM, a, ha, rfl⟩ := hlists
  obtain ⟨-, l₁, l₂, hl, hset⟩ := Lists.setFirst_of_find? hfind
  have hset' : (farm.setHarvest m h').harvests = l₁ ++ h' :: l₂ := hset _
  rw [hset'] at ha
  rcases List.mem_append.mp ha with ha | ha
  · exact .inr ⟨hM, a, hl ▸ List.mem_append_left _ ha, rfl⟩
  · rcases List.mem_cons.mp ha with rfl | ha
    · exact .inl rfl
    · exact .inr ⟨hM, a, hl ▸ List.mem_append_right _ (List.mem_cons_of_mem _ ha), rfl⟩

/-- A mint that was dropped is not harvested any more. -/
theorem Farm.not_lists_dropped {h : Harvest}
    (hmints : Slots.Distinct Harvest.mint default farm.harvests)
    (hfind : farm.findHarvest m = some h) : ¬ (farm.setHarvest m default).Lists m := by
  rintro ⟨hm, a, ha, rfl⟩
  obtain ⟨hmint, l₁, l₂, hl, hset⟩ := Lists.setFirst_of_find? hfind
  have hmint : h.mint = a.mint := of_decide_eq_true hmint
  have hset' : (farm.setHarvest a.mint default).harvests = l₁ ++ default :: l₂ := hset _
  rw [hset'] at ha
  rw [hl] at hmints
  have hne := hmints.key_ne (by rw [hmint]; exact hm)
  rcases List.mem_append.mp ha with ha | ha
  · exact hne a (List.mem_append_left _ ha) hmint.symm
  · rcases List.mem_cons.mp ha with rfl | ha
    · exact hm rfl
    · exact hne a (List.mem_append_right _ ha) hmint.symm

/-- A mint that a farm harvests has a new vault, or was harvested before and
is not dropped. -/
theorem Outcome.listed (ho : Outcome env s i s') (hmints : MintsDistinct s)
    (hfarm : s'.farms.lookup F = some farm') (hlists : farm'.Lists m) :
    Held s'.ledger (.harvestVault F m) m (.farmSigner F)
      ∨ (∃ farm, s.farms.lookup F = some farm ∧ farm.Lists m)
        ∧ ∀ admin, i ≠ .removeHarvest admin F m := by
  cases ho with
  | createFarm hnew hinit =>
      rcases Store.lookup_insert_cases hfarm with ⟨-, rfl⟩ | ⟨-, hfarm⟩
      · obtain ⟨hm, a, ha, rfl⟩ := hlists
        rw [List.eq_of_mem_replicate ha] at hm
        exact absurd rfl hm
      · exact .inr ⟨⟨farm', hfarm, hlists⟩, fun _ he => by cases he⟩
  | addHarvest hadmin hadd hinit =>
      rcases Store.lookup_insert_cases hfarm with ⟨rfl, rfl⟩ | ⟨-, hfarm⟩
      · obtain ⟨-, -, old, hfind, rfl⟩ := addHarvest_cases hadd
        rcases Farm.lists_of_setHarvest hfind hlists with rfl | hlists
        · exact .inl ⟨_, hinit.created, rfl, rfl, rfl, rfl⟩
        · exact .inr ⟨⟨_, hadmin.known, hlists⟩, fun _ he => by cases he⟩
      · exact .inr ⟨⟨farm', hfarm, hlists⟩, fun _ he => by cases he⟩
  | @removeHarvest admin F₁ m₁ farm h l' hadmin hfind hclosed =>
      refine .inr ?_
      rcases Store.lookup_insert_cases hfarm with ⟨rfl, rfl⟩ | ⟨hne, hfarm⟩
      · have hkept : m ≠ m₁ := by
          rintro rfl
          exact Farm.not_lists_dropped (hmints _ _ hadmin.known) hfind hlists
        rcases Farm.lists_of_setHarvest hfind hlists with he | hlists
        · exact absurd he.symm hlists.1
        · refine ⟨⟨_, hadmin.known, hlists⟩, fun _ he => ?_⟩
          cases he
          exact hkept rfl
      · refine ⟨⟨farm', hfarm, hlists⟩, fun _ he => ?_⟩
        cases he
        exact hne rfl
  | setFarmOwner hadmin =>
      refine .inr ⟨?_, fun _ he => by cases he⟩
      rcases Store.lookup_insert_cases hfarm with ⟨rfl, rfl⟩ | ⟨-, hfarm⟩
      · exact ⟨_, hadmin.known, hlists⟩
      · exact ⟨farm', hfarm, hlists⟩
  | setMinSnapshotWindow hadmin =>
      refine .inr ⟨?_, fun _ he => by cases he⟩
      rcases Store.lookup_insert_cases hfarm with ⟨rfl, rfl⟩ | ⟨-, hfarm⟩
      · exact ⟨_, hadmin.known, hlists⟩
      · exact ⟨farm', hfarm, hlists⟩
  | newHarvestPeriod hadmin hfind hsched hfunded hnet =>
      refine .inr ⟨?_, fun _ he => by cases he⟩
      rcases Store.lookup_insert_cases hfarm with ⟨rfl, rfl⟩ | ⟨-, hfarm⟩
      · refine ⟨_, hadmin.known, ?_⟩
        rcases Farm.lists_of_setHarvest hfind hlists with he | hlists'
        · exact ⟨hlists.1, _, List.mem_of_find?_eq_some hfind, hsched.mint.symm.trans he⟩
        · exact hlists'
      · exact ⟨farm', hfarm, hlists⟩
  | takeSnapshot hknown hvault hsnap =>
      refine .inr ⟨?_, fun _ he => by cases he⟩
      rcases Store.lookup_insert_cases hfarm with ⟨rfl, rfl⟩ | ⟨-, hfarm⟩
      · rw [(Farm.snapped hsnap).pushed] at hlists
        exact ⟨_, hknown, hlists⟩
      · exact ⟨farm', hfarm, hlists⟩
  | _ => exact .inr ⟨⟨farm', hfarm, hlists⟩, fun _ he => by cases he⟩

theorem run_harvestVaults (hp : env.tokenProgram.Lawful) (hg : Genesis s) (is : List Instr) :
    HarvestVaults (run (step env) s is) := by
  refine And.right (run_invariant' (I := fun s => Reached s ∧ HarvestVaults s)
    (fun s i s' hI h => ⟨step_reached hp hI.1 h, fun F farm' m hfarm' hlists => ?_⟩)
    ⟨hg.reached, fun F farm m hfarm => ?_⟩ is)
  · have ho := step_outcome hp hI.1.custody h
    rcases ho.listed hI.1.mints hfarm' hlists with hnew | ⟨⟨farm, hfarm, hlists⟩, hkept⟩
    · exact hnew
    · refine (ho.ledgerStep hp).held hp rfl (hI.2 F farm m hfarm hlists)
        (fun admin F₁ m₁ hi he => ?_)
      cases he
      exact hkept admin hi
  · rw [hg.farms] at hfarm
    cases hfarm

/-! ## Unstaking -/

/-- The deposit of a farmer is in the stake vault. -/
theorem Sound.deposited_le (hs : Sound s) (hf : s.farmers.lookup k = some f) :
    f.deposited ≤ s.ledger.balance (.stakeVault k.1) := by
  refine le_trans ?_ (hs.backed k.1)
  have := Store.le_total (g := ofFarm k.1 Farmer.deposited) hf
  rwa [ofFarm, if_pos rfl] at this

/-- What unstaking did: the farmer was credited, and paid from the stake
vault. -/
structure Withdrawn (s : FarmingState) (k : FarmerKey) (wallet : Address) (max : TokenAmount)
    (farm : Farm) (f f₁ f' : Farmer) (l' : Ledger Address Pubkey) (n : TokenAmount) : Prop where
  checked : f.checkVestedPeriodAndUpdateHarvest farm s.slot = .ok f₁
  unstaked : f₁.Unstaked f' max n
  paid : n.val = min max.val f.deposited
  transferred : Transferred s.ledger l' (.stakeVault k.1) wallet (.farmSigner k.1) n

/-- **Unstaking** goes through. -/
theorem stopFarming_isOk (hp : env.tokenProgram.Lawful) (hlive : env.tokenProgram.Live)
    (hshared : Shared s) (hkept : farm.WellKept) (hbacked : s.ledger.Backed)
    (hfarm : s.farms.lookup k.1 = some farm) (hf : s.farmers.lookup k = some f)
    (hlast : s.slot.val + 1 < 2 ^ 64)
    (hroom : ∀ h ∈ farm.harvests, h.mint ≠ default → f.unclaimed h.mint + h.emission < 2 ^ 64)
    {wallet : Address} (hwallet : s.ledger.Receives farm.stakeMint wallet)
    (hthawed : s.ledger.isFrozen (.stakeVault k.1) = false) {unstakeMax : TokenAmount}
    (hmax : unstakeMax ≠ 0) :
    ∃ f₁ f' l' n, Withdrawn s k wallet unstakeMax farm f f₁ f' l' n
      ∧ (∀ v, l'.isFrozen v = s.ledger.isFrozen v)
      ∧ step env s (.stopFarming ⟨k.2, wallet, k.1⟩ unstakeMax)
        = .ok ((s.setLedger l').setFarmer k f') := by
  have hc := hshared.covers k.1 farm hfarm
  have hdeposit := hshared.toSound.deposited_lt hf
  obtain ⟨f₁, hcheck⟩ := Farmer.check_isOk hkept hc hf hdeposit hc.latest_le hlast hroom
  have hdeposited := (Farmer.check_deposited hcheck).1
  obtain ⟨f', n, hun⟩ : ∃ f' n, f₁.unstake unstakeMax = .ok (f', n) :=
    Farmer.unstake_isOk (hdeposited.trans_lt hdeposit)
  have hpaid : n.val = min unstakeMax.val f.deposited := hdeposited ▸ (Farmer.unstake_ok hun).paid
  obtain ⟨-, hvault⟩ := hshared.custody.farm k.1 farm hfarm
  obtain ⟨l', hl'⟩ := hvault.pays hlive hbacked hthawed hwallet
    (hpaid.trans_le ((Nat.min_le_right _ _).trans (hshared.toSound.deposited_le hf)))
  refine ⟨f₁, f', l', n, ⟨hcheck, Farmer.unstake_ok hun, hpaid, hp.transfer_ok hl'⟩,
    hlive.transfer_isFrozen hl', ?_⟩
  have hfarm' : s.farm k.1 = .ok farm := okOr_eq_ok.mpr hfarm
  have hf' : s.farmer k = .ok f := okOr_eq_ok.mpr hf
  have hpay : transfer env s.ledger (.stakeVault k.1) wallet (.farmSigner k.1) n = .ok l' :=
    okOr_eq_ok.mpr hl'
  show stopFarming env s ⟨k.2, wallet, k.1⟩ unstakeMax = _
  unfold stopFarming StopFarming.farmer
  rw [hf', ok_bind, (ensure_eq_ok (u := ())).mpr hmax, ok_bind, hfarm', ok_bind, hcheck, ok_bind,
    hun, ok_bind]
  dsimp only
  rw [hpay]
  rfl

/-- **A stake can be withdrawn.** In every state that is reached, the last
slot of all excepted, a farmer with room for all that the periods of the
farm release can unstake what they like to any wallet of the staked mint,
and gets it: the smaller one of the limit and the deposit. -/
theorem stake_withdrawable (hp : env.tokenProgram.Lawful) (hlive : env.tokenProgram.Live)
    (hg : Genesis s) (hl : s.ledger.Backed) (is : List Instr)
    (hfarm : (run (step env) s is).farms.lookup k.1 = some farm)
    (hf : (run (step env) s is).farmers.lookup k = some f)
    (hlast : (run (step env) s is).slot.val + 1 < 2 ^ 64)
    (hroom : ∀ h ∈ farm.harvests, h.mint ≠ default → f.unclaimed h.mint + h.emission < 2 ^ 64)
    {wallet : Address} (hwallet : (run (step env) s is).ledger.Receives farm.stakeMint wallet)
    (hthawed : (run (step env) s is).ledger.isFrozen (.stakeVault k.1) = false)
    {unstakeMax : TokenAmount} (hmax : unstakeMax ≠ 0) :
    ∃ t f', step env (run (step env) s is) (.stopFarming ⟨k.2, wallet, k.1⟩ unstakeMax) = .ok t
      ∧ t.farmers.lookup k = some f'
      ∧ f'.deposited + min unstakeMax.val f.deposited = f.deposited
      ∧ ∀ v, t.ledger.balance v
          + (if v = .stakeVault k.1 then min unstakeMax.val f.deposited else 0)
        = (run (step env) s is).ledger.balance v
          + (if v = wallet then min unstakeMax.val f.deposited else 0) := by
  obtain ⟨f₁, f', l', n, hw, -, hstep⟩ := stopFarming_isOk hp hlive (run_shared hp hg.shared is)
    (run_wellKept hp hg is hfarm) (run_backed hp hg hl is) hfarm hf hlast hroom hwallet hthawed hmax
  refine ⟨_, f', hstep, AList.lookup_insert _, ?_, fun v => ?_⟩
  · rw [← hw.paid, hw.unstaked.deposited, (Farmer.check_deposited hw.checked).1]
  · rw [← hw.paid]
    exact hw.transferred.balances v

/-- The mints of the sample issued what is in the wallets. -/
def backedGenesis : FarmingState :=
  { sampleGenesis with ledger := { sampleGenesis.ledger with
      mints := List.toAList [⟨100, ⟨2000, none, none⟩⟩, ⟨200, ⟨1000000, none, none⟩⟩] } }

theorem backedGenesis_genesis : Genesis backedGenesis :=
  ⟨rfl, rfl, sampleGenesis_genesis.vaults⟩

theorem backedGenesis_backed : backedGenesis.ledger.Backed := by decide +kernel

/-- A farmer with 10 tokens in a farm that releases a harvest takes 4 of
them back. -/
theorem stake_withdrawable_sample :
    ∃ t f', step sampleEnv (run (step sampleEnv) backedGenesis stakedInPeriod)
        (.stopFarming ⟨10, .key 20, 1⟩ 4) = .ok t
      ∧ t.farmers.lookup (1, 10) = some f' ∧ f'.deposited = 6 := by
  have hten : ∀ f ∈ (run (step sampleEnv) backedGenesis stakedInPeriod).farmers.lookup (1, 10),
      f.deposited = 10 := by decide +kernel
  have hroom : ∀ farm ∈ (run (step sampleEnv) backedGenesis stakedInPeriod).farms.lookup 1,
      ∀ f ∈ (run (step sampleEnv) backedGenesis stakedInPeriod).farmers.lookup (1, 10),
      ∀ h ∈ farm.harvests, h.mint ≠ default → f.unclaimed h.mint + h.emission < 2 ^ 64 := by
    decide +kernel
  have hwallet : ∀ farm ∈ (run (step sampleEnv) backedGenesis stakedInPeriod).farms.lookup 1,
      (run (step sampleEnv) backedGenesis stakedInPeriod).ledger.Of farm.stakeMint (.key 20) := by
    decide +kernel
  obtain ⟨farm, hfarm⟩ := Option.isSome_iff_exists.mp (show ((run (step sampleEnv) backedGenesis
    stakedInPeriod).farms.lookup 1).isSome = true by decide +kernel)
  obtain ⟨f, hf⟩ := Option.isSome_iff_exists.mp (show ((run (step sampleEnv) backedGenesis
    stakedInPeriod).farmers.lookup (1, 10)).isSome = true by decide +kernel)
  obtain ⟨t, f', hstep, hf', hdeposited, -⟩ := stake_withdrawable (k := (1, 10))
    Token.Reference.lawful Token.Reference.live backedGenesis_genesis backedGenesis_backed
    stakedInPeriod hfarm hf (by decide +kernel) (hroom farm hfarm f hf)
    ⟨hwallet farm hfarm, by decide +kernel⟩ (by decide +kernel)
    (show (4 : TokenAmount) ≠ 0 by decide)
  rw [hten f hf] at hdeposited
  have hmin : min (4 : TokenAmount).val 10 = 4 := by decide
  exact ⟨t, f', hstep, hf', by omega⟩

/-! ## Claiming -/

/-- A vault of the farm and a wallet that can be sent what it holds. -/
structure Claimable (l : Ledger Address Pubkey) (F : Pubkey) (pair : Address × Address) : Prop where
  vault : ∃ m, pair.1 = .harvestVault F m ∧ Held l pair.1 m (.farmSigner F)
    ∧ l.Receives m pair.2
  thawed : l.isFrozen pair.1 = false

/-- What a claim relies on as it goes. -/
structure Payable (l : Ledger Address Pubkey) (F : Pubkey) (t : Harvested)
    (pairs : List (Address × Address)) : Prop where
  backed : l.Backed
  pairs : ∀ pair ∈ pairs, Claimable l F pair
  funds : ∀ m, tokensOf t m ≤ l.balance (.harvestVault F m)

/-- **One pair** is paid, and the others can still be. -/
theorem claimPair_isOk (hp : env.tokenProgram.Lawful) (hlive : env.tokenProgram.Live)
    {pair : Address × Address} {pairs : List (Address × Address)} {t : Harvested}
    (h : Payable l F t (pair :: pairs)) :
    ∃ l' t', claimPair env F (l, t) pair = .ok (l', t') ∧ Payable l' F t' pairs := by
  obtain ⟨vault, wallet⟩ := pair
  obtain ⟨⟨m, hvault, hheld, hwallet⟩, hthawed⟩ := h.pairs _ List.mem_cons_self
  obtain rfl : vault = .harvestVault F m := hvault
  have hrest : ∀ pair ∈ pairs, Claimable l F pair :=
    fun pair hmem => h.pairs pair (List.mem_cons_of_mem _ hmem)
  obtain ⟨a, ha, hmint, -⟩ := id hheld
  have hload : okOr (l.accounts.lookup (Address.harvestVault F m)) FarmingError.anchor = .ok a :=
    okOr_eq_ok.mpr ha
  unfold claimPair
  dsimp only
  rw [hload, ok_bind, hmint, (ensure_eq_ok (u := ())).mpr rfl, ok_bind]
  cases hn : t[m]?.filter (fun tokens => 0 < tokens) with
  | none => exact ⟨l, t, rfl, h.backed, hrest, h.funds⟩
  | some n =>
      have htokens : tokensOf t m = n.val := tokensOf_of_getElem? (filter_pos_eq_some.mp hn).1
      obtain ⟨l', hl'⟩ := hheld.pays hlive h.backed hthawed hwallet (htokens.ge.trans (h.funds m))
      have hpay : transfer env l (.harvestVault F m) wallet (.farmSigner F) n = .ok l' :=
        okOr_eq_ok.mpr hl'
      have ht := hp.transfer_ok hl'
      have hfrozen := hlive.transfer_isFrozen hl'
      refine ⟨l', t.insert m 0, ?_, ht.backed h.backed, fun pair hmem => ?_, fun m' => ?_⟩
      · dsimp only
        rw [hpay]
        rfl
      · obtain ⟨⟨m', he, hheld', hwallet'⟩, hthawed'⟩ := hrest pair hmem
        exact ⟨⟨m', he, hheld'.frame ht.toFrame, hwallet'.frame ht.toFrame hfrozen⟩,
          (hfrozen _).trans hthawed'⟩
      · rw [tokensOf_insert]
        by_cases hm : m = m'
        · rw [if_pos hm, Word.val_zero]
          exact Nat.zero_le _
        · rw [if_neg hm]
          refine (h.funds m').trans (ht.balance_le (fun he => hm ?_))
          cases he
          rfl

/-- **The loop** of a claim goes through. -/
theorem claimPairs_isOk (hp : env.tokenProgram.Lawful) (hlive : env.tokenProgram.Live)
    {pairs : List (Address × Address)} {t : Harvested} (h : Payable l F t pairs) :
    ∃ l' t', pairs.foldlM (claimPair env F) (l, t) = .ok (l', t') := by
  induction pairs generalizing l t with
  | nil => exact ⟨l, t, rfl⟩
  | cons pair pairs ih =>
      obtain ⟨l₁, t₁, hpair, h₁⟩ := claimPair_isOk hp hlive h
      obtain ⟨l', t', hrest⟩ := ih h₁
      exact ⟨l', t', by rw [List.foldlM_cons, hpair, ok_bind, hrest]⟩

/-- **A claim** goes through where the vaults are solvent. -/
theorem claimEligibleHarvest_isOk (hp : env.tokenProgram.Lawful) (hlive : env.tokenProgram.Live)
    (hs : Reached s) (hvaults : HarvestVaults s) (hbacked : s.ledger.Backed)
    (hsolvent : ∀ m, s.unclaimed k.1 m ≤ s.ledger.balance (.harvestVault k.1 m))
    (hfarm : s.farms.lookup k.1 = some farm) (hf : s.farmers.lookup k = some f)
    {accounts : List Address} (hne : accounts ≠ []) (heven : accounts.length % 2 = 0)
    (hpairs : ∀ pair ∈ vaultWalletPairs accounts, ∃ m, farm.Lists m
      ∧ pair.1 = .harvestVault k.1 m ∧ s.ledger.isFrozen pair.1 = false
      ∧ s.ledger.Receives m pair.2) :
    ∃ l' f', step env s (.claimEligibleHarvest k.2 k accounts)
        = .ok ((s.setLedger l').setFarmer k f')
      ∧ f'.authority = f.authority ∧ f'.deposited = f.deposited
      ∧ PaysOnce env k.1 (vaultWalletPairs accounts) s.ledger l' f f' := by
  have hown := hs.custody.farmer k f hf
  have htidy := hs.farmers k f hf
  have hpayable : Payable s.ledger k.1 f.harvestsMap (vaultWalletPairs accounts) := by
    refine ⟨hbacked, fun pair hmem => ?_, fun m => ?_⟩
    · obtain ⟨m, hlists, hvault, hthawed, hwallet⟩ := hpairs pair hmem
      exact ⟨⟨m, hvault, hvault ▸ hvaults k.1 farm m hfarm hlists, hwallet⟩, hthawed⟩
    · have hle := Store.le_total (g := ofFarm k.1 (fun f => f.unclaimed m)) hf
      rw [ofFarm, if_pos rfl, htidy.unclaimed_eq] at hle
      exact hle.trans (hsolvent m)
  obtain ⟨l', t', hfold⟩ := claimPairs_isOk hp hlive hpayable
  have hsettles := claimPairs_settle hfold
  refine ⟨l', f.setHarvests t'.toList, ?_, rfl, rfl, hsettles.paysOnce hp htidy⟩
  have hf' : s.farmer k = .ok f := okOr_eq_ok.mpr hf
  have hkey : k = (f.farm, k.2) := by rw [hown]
  show claimEligibleHarvest env s k.2 k accounts = _
  unfold claimEligibleHarvest
  rw [hf', ok_bind, (ensure_eq_ok (u := ())).mpr hkey, ok_bind,
    (ensure_eq_ok (u := ())).mpr (by rw [not_or, not_not]; exact ⟨hne, heven⟩), ok_bind, hown,
    hfold]
  rfl

theorem run_unclaimed_le (hp : env.tokenProgram.Lawful) (hg : Genesis s) {is : List Instr}
    (hG : Guarded (traced (step env)) KeepsShares (s, []) is) (F m : Pubkey) :
    (run (step env) s is).unclaimed F m
      ≤ (run (step env) s is).ledger.balance (.harvestVault F m) := by
  have hcovered := (run_solvent hp hg hG).unclaimed_le F m
  rwa [run_traced_fst] at hcovered

/-- **What is credited can be claimed.** In every run in which no farm takes
a snapshot in a slot that it releases tokens in and has credited a farmer
for, a farmer can claim the credit of any mints that the farm harvests, to
any wallets of these mints, in any order and with repetitions: the claim
succeeds and pays the credit of every mint that is listed once. -/
theorem credits_claimable (hp : env.tokenProgram.Lawful) (hlive : env.tokenProgram.Live)
    (hg : Genesis s) (hl : s.ledger.Backed) {is : List Instr}
    (hG : Guarded (traced (step env)) KeepsShares (s, []) is)
    (hfarm : (run (step env) s is).farms.lookup k.1 = some farm)
    (hf : (run (step env) s is).farmers.lookup k = some f) {accounts : List Address}
    (hne : accounts ≠ []) (heven : accounts.length % 2 = 0)
    (hpairs : ∀ pair ∈ vaultWalletPairs accounts, ∃ m, farm.Lists m
      ∧ pair.1 = .harvestVault k.1 m ∧ (run (step env) s is).ledger.isFrozen pair.1 = false
      ∧ (run (step env) s is).ledger.Receives m pair.2) :
    ∃ t f', step env (run (step env) s is) (.claimEligibleHarvest k.2 k accounts) = .ok t
      ∧ t.farmers.lookup k = some f'
      ∧ PaysOnce env k.1 (vaultWalletPairs accounts) (run (step env) s is).ledger t.ledger
        f f' := by
  obtain ⟨l', f', hstep, -, -, hpays⟩ := claimEligibleHarvest_isOk hp hlive (run_reached hp hg is)
    (run_harvestVaults hp hg is) (run_backed hp hg hl is) (run_unclaimed_le hp hg hG k.1) hfarm hf
    hne heven hpairs
  exact ⟨_, f', hstep, AList.lookup_insert _, hpays⟩

/-- The farmer of that farm, updated, claims what the period released. -/
def updatedInPeriod : List Instr := stakedInPeriod ++ [updateOf 10]

/-- The accounts that this takes. -/
theorem updatedInPeriod_claimable :
    ∃ farm, (run (step sampleEnv) backedGenesis updatedInPeriod).farms.lookup 1 = some farm
      ∧ ∀ pair ∈ vaultWalletPairs [.harvestVault 1 200, .key 22], ∃ m, farm.Lists m
        ∧ pair.1 = .harvestVault 1 m
        ∧ (run (step sampleEnv) backedGenesis updatedInPeriod).ledger.isFrozen pair.1 = false
        ∧ (run (step sampleEnv) backedGenesis updatedInPeriod).ledger.Receives m pair.2 := by
  have hlists : ∀ farm ∈ (run (step sampleEnv) backedGenesis updatedInPeriod).farms.lookup 1,
      farm.Lists 200 := by decide +kernel
  obtain ⟨farm, hfarm⟩ := Option.isSome_iff_exists.mp (show ((run (step sampleEnv) backedGenesis
    updatedInPeriod).farms.lookup 1).isSome = true by decide +kernel)
  refine ⟨farm, hfarm, fun pair hmem => ?_⟩
  obtain rfl := List.mem_singleton.mp hmem
  exact ⟨200, hlists farm hfarm, rfl, by decide +kernel, by decide +kernel, by decide +kernel⟩

theorem updatedInPeriod_credit :
    ∃ f, (run (step sampleEnv) backedGenesis updatedInPeriod).farmers.lookup (1, 10) = some f
      ∧ f.unclaimed 200 = 20 := by
  have hcredit : ((run (step sampleEnv) backedGenesis updatedInPeriod).farmers.lookup
      (1, 10)).map (fun f => f.unclaimed 200) = some 20 := by decide +kernel
  exact Option.map_eq_some_iff.mp hcredit

theorem credits_claimable_sample :
    ∃ f t f', (run (step sampleEnv) backedGenesis updatedInPeriod).farmers.lookup (1, 10) = some f
      ∧ f.unclaimed 200 = 20
      ∧ step sampleEnv (run (step sampleEnv) backedGenesis updatedInPeriod)
        (.claimEligibleHarvest 10 (1, 10) [.harvestVault 1 200, .key 22]) = .ok t
      ∧ t.farmers.lookup (1, 10) = some f' ∧ f'.unclaimed 200 = 0 := by
  obtain ⟨farm, hfarm, hpairs⟩ := updatedInPeriod_claimable
  obtain ⟨f, hf, hcredit⟩ := updatedInPeriod_credit
  obtain ⟨t, f', hstep, hf', hpays⟩ := credits_claimable (k := (1, 10))
    Token.Reference.lawful Token.Reference.live backedGenesis_genesis backedGenesis_backed
    (by decide +kernel) hfarm hf (List.cons_ne_nil _ _) rfl hpairs
  exact ⟨f, t, f', hf, hcredit, hstep, hf',
    (hpays.unclaimed 200).trans (if_pos (List.mem_singleton.mpr rfl))⟩

end SolanaAmm.Farming
