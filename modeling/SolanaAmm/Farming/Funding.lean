import SolanaAmm.Farming.Bookkeeping
import SolanaAmm.Farming.Retention

/-!
# Farming — Funding

What the periods of a harvest cost their admin. A call that schedules a
period is run here with a record of what it did: the period it added, the
scheduled one it overwrote, and the transfer it made between the admin's
wallet and the harvest vault. Over a whole run the transfers of a mint add
up to the cost of the periods that were added and not overwritten, since a
period that is overwritten was added, and paid for, by an earlier call.
-/

namespace SolanaAmm.Farming

open Result Token Slots Machine

/-! ## Calls and their records -/

/-- A transfer from the admin's wallet to the harvest vault, or back. -/
inductive Funding
  | deposit (tokens : TokenAmount)
  | refund (tokens : TokenAmount)
deriving DecidableEq

/-- What a successful call to `new_harvest_period` did. -/
structure PeriodCall where
  added : HarvestPeriod
  overwritten : Option HarvestPeriod
  funding : Option Funding
deriving DecidableEq

section Traced

variable (env : Env)

/-- `settlePeriod` with the transfer that it makes. -/
def settlePeriodTraced (ledger : Ledger Address Pubkey) (admin farmKey harvestMint : Pubkey)
    (harvestWallet : Address) (walletAmount newTokens depositedTokens : TokenAmount) :
    Except FarmingError (Ledger Address Pubkey × Option Funding) :=
  match compare newTokens.val depositedTokens.val with
  | .eq => pure (ledger, none)
  | .lt => do
      let amount ← okOr (depositedTokens.checkedSub newTokens) .panicked
      let ledger ← transfer env ledger (.harvestVault farmKey harvestMint) harvestWallet
        (.farmSigner farmKey) amount
      pure (ledger, some (.refund amount))
  | .gt => do
      let depositAmount ← okOr (newTokens.checkedSub depositedTokens) .panicked
      ensure (¬ walletAmount < depositAmount)
        (acc ("Insufficient tokens in harvest wallet, must deposit "
          ++ toString depositAmount.val))
      let ledger ← transfer env ledger harvestWallet (.harvestVault farmKey harvestMint)
        (.key admin) depositAmount
      pure (ledger, some (.deposit depositAmount))

/-- `newHarvestPeriod` with the record of the call. -/
def newHarvestPeriodTraced (s : FarmingState) (accs : NewHarvestPeriod) (harvestMint : Pubkey)
    (startsAt : Slot) (periodLengthInSlots : U64) (tps : TokenAmount) :
    Except FarmingError (FarmingState × PeriodCall) := do
  let harvestWallet ← s.tokenAccount accs.harvestWallet
  let _ ← s.tokenAccount (.harvestVault accs.farm harvestMint)
  let farm ← s.farm accs.farm
  ensure (farm.admin = accs.admin) .farmAdminMismatch
  ensure (periodLengthInSlots ≠ 0) (.harvestPeriodMustBeAtLeastOneSlot
    "Cannot create a harvest period with 0 length")
  let startsAt ← periodStart s.slot startsAt
  let endsAt ← okOr (startsAt.checkedAdd periodLengthInSlots) .mathOverflow
  let endsAt ← Slot.pred endsAt
  let (farm, scheduledLaunch) ← farm.newHarvestPeriod env.prodFeature s.slot harvestMint
    (startsAt, endsAt) tps
  let newPeriodTotalTokens ← totalTokensEmittedPerPeriod (startsAt, endsAt) tps
  let deposited ← depositedForScheduledLaunch scheduledLaunch
  let (ledger, funding) ← settlePeriodTraced env s.ledger accs.admin accs.farm harvestMint
    accs.harvestWallet harvestWallet.amount newPeriodTotalTokens deposited
  pure ((s.setLedger ledger).setFarm accs.farm farm,
    ⟨⟨tps, startsAt, endsAt⟩, scheduledLaunch, funding⟩)

end Traced

variable {env : Env} {s s' : FarmingState} {F m : Pubkey} {accs : NewHarvestPeriod}
  {startsAt : Slot} {len : U64} {tps : TokenAmount} {c : PeriodCall}

/-! ## The record changes nothing -/

theorem settlePeriod_eq_traced {l : Ledger Address Pubkey} {admin : Pubkey} {wallet : Address}
    {walletAmount new deposited : TokenAmount} :
    settlePeriod env l admin F m wallet walletAmount new deposited
      = Prod.fst <$> settlePeriodTraced env l admin F m wallet walletAmount new deposited := by
  unfold settlePeriod settlePeriodTraced
  cases compare new.val deposited.val with
  | eq => rfl
  | lt => simp only [map_bind, map_pure, bind_pure]
  | gt => simp only [map_bind, map_pure, bind_pure]

theorem newHarvestPeriod_eq_traced :
    newHarvestPeriod env s accs m startsAt len tps
      = Prod.fst <$> newHarvestPeriodTraced env s accs m startsAt len tps := by
  unfold newHarvestPeriod newHarvestPeriodTraced
  simp only [map_bind, map_pure, settlePeriod_eq_traced, bind_map_left]

/-! ## One call -/

/-- The tokens that went from the wallet to the vault, on balance. -/
def netFunding : Option Funding → ℤ
  | none => 0
  | some (.deposit tokens) => tokens.val
  | some (.refund tokens) => -tokens.val

/-- The transfer was made, and nothing else. -/
def Funded (l l' : Ledger Address Pubkey) (accs : NewHarvestPeriod) (m : Pubkey) :
    Option Funding → Prop
  | none => l' = l
  | some (.deposit tokens) => Transferred l l' accs.harvestWallet (.harvestVault accs.farm m)
      (.key accs.admin) tokens
  | some (.refund tokens) => Transferred l l' (.harvestVault accs.farm m) accs.harvestWallet
      (.farmSigner accs.farm) tokens

theorem settlePeriodTraced_ok (hp : env.tokenProgram.Lawful) {l l' : Ledger Address Pubkey}
    {walletAmount new deposited : TokenAmount} {funding : Option Funding}
    (h : settlePeriodTraced env l accs.admin accs.farm m accs.harvestWallet walletAmount new
      deposited = .ok (l', funding)) :
    Funded l l' accs m funding ∧ netFunding funding = new.val - deposited.val := by
  unfold settlePeriodTraced at h
  split at h
  · rename_i heq
    rw [Nat.compare_eq_eq] at heq
    simp only [pure_eq_ok, Prod.mk.injEq] at h
    obtain ⟨rfl, rfl⟩ := h
    refine ⟨rfl, ?_⟩
    rw [heq, netFunding, sub_self]
  · simp only [bind_eq_ok, okOr_eq_ok, Word.checkedSub_eq_some, pure_eq_ok, Prod.mk.injEq] at h
    obtain ⟨amount, ⟨hle, ha⟩, l₁, ht, rfl, rfl⟩ := h
    refine ⟨transferred hp ht, ?_⟩
    rw [netFunding, ha, Nat.cast_sub hle, neg_sub]
  · simp only [bind_eq_ok, okOr_eq_ok, Word.checkedSub_eq_some, ensure_eq_ok, pure_eq_ok,
      Prod.mk.injEq] at h
    obtain ⟨amount, ⟨hle, ha⟩, -, -, l₁, ht, rfl, rfl⟩ := h
    refine ⟨transferred hp ht, ?_⟩
    rw [netFunding, ha, Nat.cast_sub hle]

/-- What the overwritten period had cost. -/
def PeriodCall.credit (c : PeriodCall) : ℕ := (c.overwritten.map HarvestPeriod.cost).getD 0

/-- What a recorded call did. -/
structure Called (s s' : FarmingState) (accs : NewHarvestPeriod) (m : Pubkey) (c : PeriodCall) :
    Prop where
  vault : s.ledger.accounts.lookup (.harvestVault accs.farm m) ≠ none
  scheduled : ∃ farm old new, s.farms.lookup accs.farm = some farm
    ∧ farm.findHarvest m = some old ∧ Scheduled s.slot old new c.added c.overwritten
    ∧ s'.farms = s.farms.insert accs.farm (farm.setHarvest m new)
  slot : s'.slot = s.slot
  funded : Funded s.ledger s'.ledger accs m c.funding
  net : netFunding c.funding = c.added.cost - c.credit

theorem newHarvestPeriodTraced_ok (hp : env.tokenProgram.Lawful)
    (h : newHarvestPeriodTraced env s accs m startsAt len tps = .ok (s', c)) :
    Called s s' accs m c := by
  simp only [newHarvestPeriodTraced, FarmingState.farm, FarmingState.tokenAccount, bind_eq_ok,
    ensure_eq_ok, okOr_eq_ok, pure_eq_ok, Prod.exists, Prod.mk.injEq] at h
  obtain ⟨wallet, -, vault, hvault, farm, hfarm, -, -, -, -, start, hstart, _, -, stop, -, farm',
    old, hnew, cost, hcost, paid, hpaid, l', funding, hsettle, rfl, rfl⟩ := h
  obtain ⟨harvest, harvest', hfind, rfl, hsched⟩ :=
    farmNewHarvestPeriod_ok (periodStart_ok hstart) hnew
  obtain ⟨hfunded, hnet⟩ := settlePeriodTraced_ok hp hsettle
  refine ⟨?_, ⟨farm, harvest, harvest', hfarm, hfind, hsched, rfl⟩, rfl, hfunded, ?_⟩
  · rw [hvault]
    exact Option.some_ne_none vault
  · rw [hnet, totalTokensEmittedPerPeriod_ok (p := ⟨tps, start, stop⟩) hcost,
      depositedForScheduledLaunch_ok hpaid]
    rfl

/-! ## All other instructions -/

/-- No harvest got a period: each one has none, or was there before. -/
def HarvestsFrom (s s' : FarmingState) : Prop :=
  ∀ F farm', s'.farms.lookup F = some farm' → ∀ h ∈ farm'.harvests,
    h.periods.head = default ∨ ∃ farm, s.farms.lookup F = some farm ∧ h ∈ farm.harvests

theorem HarvestsFrom.of_farms (h : s'.farms = s.farms) : HarvestsFrom s s' :=
  fun _ farm hfarm _ hh => .inr ⟨farm, h ▸ hfarm, hh⟩

/-- One farm was written. -/
theorem HarvestsFrom.of_insert {farm : Farm} (h : s'.farms = s.farms.insert F farm)
    (hall : ∀ h ∈ farm.harvests, h.periods.head = default
      ∨ ∃ farm, s.farms.lookup F = some farm ∧ h ∈ farm.harvests) : HarvestsFrom s s' := by
  intro G farm' hfarm' harvest hh
  rw [h] at hfarm'
  rcases Store.lookup_insert_cases hfarm' with ⟨rfl, rfl⟩ | ⟨-, hfarm'⟩
  · exact hall harvest hh
  · exact .inr ⟨farm', hfarm', hh⟩

/-- One harvest of a farm was emptied. -/
theorem HarvestsFrom.of_setHarvest {farm : Farm} {old : Harvest} {m' : Pubkey} {vault : Address}
    (hfarm : s.farms.lookup F = some farm) (hfind : farm.findHarvest m = some old)
    (h : s'.farms = s.farms.insert F (farm.setHarvest m ⟨m', vault, .replicate _ default⟩)) :
    HarvestsFrom s s' := by
  refine .of_insert h ?_
  exact every_setHarvest (fun h hh => .inr ⟨farm, hfarm, hh⟩) hfind (.inl rfl)

/-- Whether an instruction schedules a period. -/
def Instr.schedules : Instr → Bool
  | .newHarvestPeriod .. => true
  | _ => false

/-- Whether an instruction writes a farm. -/
def Instr.writesFarm : Instr → Bool
  | .createFarm .. | .addHarvest .. | .removeHarvest .. | .setFarmOwner ..
  | .setMinSnapshotWindow .. | .takeSnapshot .. | .newHarvestPeriod .. => true
  | _ => false

theorem step_farms {i : Instr} (hi : i.writesFarm = false) (h : step env s i = .ok s') :
    s'.farms = s.farms := by
  cases i with
  | createFarmer authority F =>
      simp only [step, createFarmer, bind_eq_ok, pure_eq_ok] at h
      obtain ⟨-, -, _, -, rfl⟩ := h
      rfl
  | closeFarmer authority k =>
      simp only [step, closeFarmer, bind_eq_ok, pure_eq_ok] at h
      obtain ⟨_, -, -, -, _, -, -, -, -, -, rfl⟩ := h
      rfl
  | startFarming accs stake =>
      simp only [step, startFarming, bind_eq_ok, pure_eq_ok] at h
      obtain ⟨_, -, -, -, _, -, _, -, _, -, _, -, rfl⟩ := h
      rfl
  | stopFarming accs unstakeMax =>
      simp only [step, stopFarming, bind_eq_ok, pure_eq_ok, Prod.exists] at h
      obtain ⟨_, -, -, -, _, -, _, -, _, _, -, _, -, rfl⟩ := h
      rfl
  | updateEligibleHarvest F k =>
      simp only [step, updateEligibleHarvest, updateEligibleHarvestHandle, bind_eq_ok,
        pure_eq_ok] at h
      obtain ⟨_, -, _, -, _, -, rfl⟩ := h
      rfl
  | updateEligibleHarvestUntil F k til =>
      simp only [step, updateEligibleHarvestUntil, updateEligibleHarvestHandle, bind_eq_ok,
        pure_eq_ok] at h
      obtain ⟨_, -, _, -, _, -, rfl⟩ := h
      rfl
  | claimEligibleHarvest authority k accounts =>
      simp only [step, claimEligibleHarvest, bind_eq_ok, pure_eq_ok, Prod.exists] at h
      obtain ⟨_, -, -, -, -, -, _, _, -, rfl⟩ := h
      rfl
  | whitelistFarmForCompounding admin F G =>
      simp only [step, whitelistFarmForCompounding, bind_eq_ok, pure_eq_ok] at h
      obtain ⟨_, -, _, -, _, -, _, -, rfl⟩ := h
      rfl
  | dewhitelistFarmForCompounding admin F G =>
      simp only [step, dewhitelistFarmForCompounding, bind_eq_ok, pure_eq_ok] at h
      obtain ⟨_, -, _, -, _, -, _, -, rfl⟩ := h
      rfl
  | compoundSameFarm accs =>
      simp only [step, compoundSameFarm, bind_eq_ok, pure_eq_ok, Prod.exists] at h
      obtain ⟨_, -, _, -, _, -, -, -, -, -, _, -, _, -, _, -, _, _, -, _, -, _, -, rfl⟩ := h
      rfl
  | compoundAcrossFarms accs =>
      simp only [step, compoundAcrossFarms, bind_eq_ok, pure_eq_ok, Prod.exists] at h
      obtain ⟨-, -, _, -, _, -, _, -, -, -, -, -, _, -, _, -, -, -, -, -, -, -, _, -, _, -,
        _, -, _, _, -, _, -, _, -, rfl⟩ := h
      rfl
  | airdrop accs amount =>
      simp only [step, airdrop, bind_eq_ok, pure_eq_ok] at h
      obtain ⟨_, -, _, -, -, -, _, -, _, -, _, -, rfl⟩ := h
      rfl
  | tick slot =>
      simp only [step, bind_eq_ok, pure_eq_ok] at h
      obtain ⟨_, -, rfl⟩ := h
      rfl
  | token op =>
      simp only [step, bind_eq_ok, pure_eq_ok] at h
      obtain ⟨_, -, _, -, rfl⟩ := h
      rfl
  | _ => cases hi

/-- **All other instructions** leave the harvests of the farms as they are,
empty one, or add an empty one. -/
theorem step_harvestsFrom {i : Instr} (hi : i.schedules = false) (h : step env s i = .ok s') :
    HarvestsFrom s s' := by
  by_cases hw : i.writesFarm = false
  · exact .of_farms (step_farms hw h)
  · cases i with
    | newHarvestPeriod accs m startsAt len tps => cases hi
    | createFarm admin F m =>
        simp only [step, createFarm, bind_eq_ok, pure_eq_ok] at h
        obtain ⟨_, -, _, -, _, -, rfl⟩ := h
        refine .of_insert rfl (fun h hh => .inl ?_)
        rw [List.eq_of_mem_replicate hh]
        rfl
    | addHarvest admin F m =>
        simp only [step, addHarvest, FarmingState.farm, bind_eq_ok, okOr_eq_ok, pure_eq_ok] at h
        obtain ⟨_, -, _, -, farm, hfarm, -, -, farm', hadd, _, -, rfl⟩ := h
        obtain ⟨-, -, old, hfind, rfl⟩ := addHarvest_cases hadd
        exact .of_setHarvest hfarm hfind rfl
    | removeHarvest admin F m =>
        simp only [step, removeHarvest, FarmingState.farm, bind_eq_ok, okOr_eq_ok, pure_eq_ok] at h
        obtain ⟨_, -, _, -, farm, hfarm, -, -, old, hfind, _, -, rfl⟩ := h
        exact .of_setHarvest hfarm hfind rfl
    | setFarmOwner admin newAdmin F =>
        simp only [step, setFarmOwner, FarmingState.farm, bind_eq_ok, okOr_eq_ok, pure_eq_ok] at h
        obtain ⟨farm, hfarm, -, -, rfl⟩ := h
        exact .of_insert rfl (fun h hh => .inr ⟨farm, hfarm, hh⟩)
    | setMinSnapshotWindow admin F n =>
        simp only [step, setMinSnapshotWindow, FarmingState.farm, bind_eq_ok, okOr_eq_ok,
          pure_eq_ok] at h
        obtain ⟨farm, hfarm, -, -, rfl⟩ := h
        exact .of_insert rfl (fun h hh => .inr ⟨farm, hfarm, hh⟩)
    | takeSnapshot F vault =>
        simp only [step, takeSnapshot, FarmingState.farm, bind_eq_ok, okOr_eq_ok, pure_eq_ok] at h
        obtain ⟨_, -, farm, hfarm, -, -, farm', hsnap, rfl⟩ := h
        refine .of_insert rfl (fun h hh => .inr ⟨farm, hfarm, ?_⟩)
        rwa [(Farm.snapped hsnap).pushed] at hh
    | _ => exact absurd rfl hw

/-! ## The calls of a run -/

/-- The record of a step that scheduled a period of the mint in the farm. -/
def periodCallOf (env : Env) (F m : Pubkey) (e : Event FarmingState Instr) : Option PeriodCall :=
  match e.instr with
  | .newHarvestPeriod accs harvestMint startsAt len tps =>
      if accs.farm = F ∧ harvestMint = m then
        (newHarvestPeriodTraced env e.before accs harvestMint startsAt len tps).toOption.map
          Prod.snd
      else none
  | _ => none

/-- All calls for a mint of a farm, newest first. -/
def periodCalls (env : Env) (F m : Pubkey) (h : History FarmingState Instr) : List PeriodCall :=
  h.filterMap (periodCallOf env F m)

/-- The periods that were added and not overwritten. -/
def standing : List PeriodCall → List HarvestPeriod
  | [] => []
  | c :: cs => c.added :: c.overwritten.elim (standing cs) (fun p => (standing cs).erase p)

/-- The tokens that the calls moved from the wallets to the vault, on
balance. -/
def totalFunding (cs : List PeriodCall) : ℤ := (cs.map (fun c => netFunding c.funding)).sum

def totalCost (ps : List HarvestPeriod) : ℕ := (ps.map HarvestPeriod.cost).sum

variable {i : Instr} {h : History FarmingState Instr} {cs : List PeriodCall}

theorem added_mem_standing : c.added ∈ standing (c :: cs) := by
  rw [standing]
  exact List.mem_cons_self

/-- **One more call** costs what it adds, less what it overwrites. -/
theorem totalCost_standing_cons (hover : ∀ p, c.overwritten = some p → p ∈ standing cs) :
    (totalCost (standing (c :: cs)) : ℤ) = totalCost (standing cs) + c.added.cost - c.credit := by
  rw [standing, totalCost, List.map_cons, List.sum_cons, ← totalCost, PeriodCall.credit]
  cases hp : c.overwritten with
  | none =>
      rw [Option.elim_none, Option.map_none, Option.getD_none]
      push_cast
      ring
  | some p =>
      have herase : p.cost + totalCost ((standing cs).erase p) = totalCost (standing cs) :=
        List.sum_map_erase HarvestPeriod.cost (hover p hp)
      rw [Option.elim_some, Option.map_some, Option.getD_some, ← herase]
      push_cast
      ring

theorem periodCalls_cons_of_ne {e : Event FarmingState Instr}
    (hne : periodCallOf env F m e = none) :
    periodCalls env F m (e :: h) = periodCalls env F m h :=
  List.filterMap_cons_none hne

theorem periodCallOf_of_not_schedules (hi : i.schedules = false) :
    periodCallOf env F m ⟨s, i, s'⟩ = none := by
  cases i with
  | newHarvestPeriod accs m startsAt len tps => cases hi
  | _ => rfl

/-- A call that succeeded has a record. -/
theorem exists_periodCall (hp : env.tokenProgram.Lawful)
    (h : newHarvestPeriod env s accs m startsAt len tps = .ok s') :
    ∃ c, periodCallOf env accs.farm m ⟨s, .newHarvestPeriod accs m startsAt len tps, s'⟩ = some c
      ∧ Called s s' accs m c := by
  rw [newHarvestPeriod_eq_traced] at h
  cases htraced : newHarvestPeriodTraced env s accs m startsAt len tps with
  | error err =>
      rw [htraced] at h
      cases h
  | ok result =>
      obtain ⟨s₁, c⟩ := result
      rw [htraced] at h
      cases h
      refine ⟨c, ?_, newHarvestPeriodTraced_ok hp htraced⟩
      show (if _ then _ else _) = _
      rw [if_pos ⟨rfl, rfl⟩, htraced]
      rfl

theorem Called.head_added (hcalled : Called s s' accs m c) :
    ∃ farm old new l₁ l₂, s.farms.lookup accs.farm = some farm
      ∧ farm.harvests = l₁ ++ old :: l₂ ∧ (farm.setHarvest m new).harvests = l₁ ++ new :: l₂
      ∧ s'.farms = s.farms.insert accs.farm (farm.setHarvest m new) ∧ old.mint = m ∧ new.mint = m
      ∧ new.periods.head = c.added
      ∧ ∀ p, c.overwritten = some p →
        p = old.periods.head ∧ s.slot < old.periods.head.startsAt := by
  obtain ⟨farm, old, new, hfarm, hfind, hsched, hfarms⟩ := hcalled.scheduled
  obtain ⟨-, l₁, l₂, hl, hset⟩ := Lists.setFirst_of_find? hfind
  have hmint : old.mint = m := by simpa using List.find?_some hfind
  refine ⟨farm, old, new, l₁, l₂, hfarm, hl, hset _, hfarms, hmint, hsched.mint.trans hmint,
    hsched.head_eq, fun p hp => ?_⟩
  rw [hp] at hsched
  obtain ⟨rfl, hlater⟩ := hsched.old_eq
  exact ⟨rfl, hlater⟩

/-! ## All runs -/

/-- What is known of a state and the calls before it. -/
structure FundedRun (env : Env) (p : FarmingState × History FarmingState Instr) : Prop where
  books : Books p.1
  total : ∀ F m, totalFunding (periodCalls env F m p.2)
    = totalCost (standing (periodCalls env F m p.2))
  /-- What can be overwritten was added. -/
  scheduled : ∀ F farm, p.1.farms.lookup F = some farm → ∀ h ∈ farm.harvests,
    p.1.slot < h.periods.head.startsAt →
      h.periods.head ∈ standing (periodCalls env F h.mint p.2)

/-- An instruction that schedules nothing adds no call. -/
theorem FundedRun.other (hI : FundedRun env (s, h)) (hp : env.tokenProgram.Lawful)
    (hi : i.schedules = false) (hs : step env s i = .ok s') :
    FundedRun env (s', ⟨s, i, s'⟩ :: h) := by
  have hcalls : ∀ F m, periodCalls env F m (⟨s, i, s'⟩ :: h) = periodCalls env F m h :=
    fun F m => periodCalls_cons_of_ne (periodCallOf_of_not_schedules hi)
  refine ⟨step_books hp hI.books hs, fun F m => ?_, fun F farm hfarm harvest hmem hlater => ?_⟩
  · rw [hcalls]
    exact hI.total F m
  · rw [hcalls]
    rcases step_harvestsFrom hi hs F farm hfarm harvest hmem with hdefault | ⟨farm', hfarm', hmem'⟩
    · rw [hdefault] at hlater
      exact absurd hlater (Nat.not_lt_zero _)
    · exact hI.scheduled F farm' hfarm' harvest hmem'
        ((step_slot_le hp hI.books.custody hs).trans_lt hlater)

/-- The harvests after a call: the one with the new period, and the others. -/
theorem Called.harvests (hcalled : Called s s' accs m c) (hb : Books s) {farm' : Farm}
    (hfarm' : s'.farms.lookup F = some farm') {harvest : Harvest}
    (hmem : harvest ∈ farm'.harvests) :
    (accs.farm = F ∧ m = harvest.mint) ∧ harvest.periods.head = c.added
    ∨ ¬ (accs.farm = F ∧ m = harvest.mint)
      ∧ ∃ farm, s.farms.lookup F = some farm ∧ harvest ∈ farm.harvests := by
  obtain ⟨farm, old, new, l₁, l₂, hfarm, hl, hset, hfarms, hold, hnew, hhead, -⟩ :=
    hcalled.head_added
  rw [hfarms] at hfarm'
  rcases Store.lookup_insert_cases hfarm' with ⟨rfl, rfl⟩ | ⟨hF, hfarm'⟩
  · have hne : old.mint ≠ default := by
      rw [hold]
      rintro rfl
      exact hcalled.vault (hb.vaults accs.farm)
    have hdistinct := hb.mints accs.farm farm hfarm
    rw [hl] at hdistinct
    have hother : harvest ∈ l₁ ++ l₂ → ¬ (accs.farm = accs.farm ∧ m = harvest.mint) :=
      fun hrest he => hdistinct.key_ne hne harvest hrest (he.2.symm.trans hold.symm)
    rw [hset] at hmem
    rcases List.mem_append.mp hmem with hmem | hmem
    · exact .inr ⟨hother (List.mem_append_left _ hmem), farm, hfarm,
        hl ▸ List.mem_append_left _ hmem⟩
    · rcases List.mem_cons.mp hmem with rfl | hmem
      · exact .inl ⟨⟨rfl, hnew.symm⟩, hhead⟩
      · exact .inr ⟨hother (List.mem_append_right _ hmem), farm, hfarm,
          hl ▸ List.mem_append_right _ (List.mem_cons_of_mem _ hmem)⟩
  · exact .inr ⟨fun he => hF he.1.symm, farm', hfarm', hmem⟩

/-- A call overwrites only what was added before. -/
theorem FundedRun.overwritten_mem (hI : FundedRun env (s, h)) (hcalled : Called s s' accs m c) :
    ∀ p, c.overwritten = some p → p ∈ standing (periodCalls env accs.farm m h) := by
  obtain ⟨farm, old, new, l₁, l₂, hfarm, hl, -, -, hold, -, -, hover⟩ := hcalled.head_added
  intro p hp
  obtain ⟨rfl, hlater⟩ := hover p hp
  have hmem := hI.scheduled accs.farm farm hfarm old
    (hl ▸ List.mem_append_right _ List.mem_cons_self) hlater
  rwa [hold] at hmem

/-- **A call** is paid for, and what it added can be overwritten next. -/
theorem FundedRun.call (hI : FundedRun env (s, h)) (hp : env.tokenProgram.Lawful)
    (hs : step env s (.newHarvestPeriod accs m startsAt len tps) = .ok s') :
    FundedRun env (s', ⟨s, .newHarvestPeriod accs m startsAt len tps, s'⟩ :: h) := by
  obtain ⟨c, hc, hcalled⟩ := exists_periodCall hp hs
  have hone : periodCalls env accs.farm m
      (⟨s, .newHarvestPeriod accs m startsAt len tps, s'⟩ :: h)
        = c :: periodCalls env accs.farm m h :=
    List.filterMap_cons_some hc
  have hother : ∀ {F m'}, ¬ (accs.farm = F ∧ m = m') → periodCalls env F m'
      (⟨s, .newHarvestPeriod accs m startsAt len tps, s'⟩ :: h) = periodCalls env F m' h :=
    fun hne => periodCalls_cons_of_ne (if_neg hne)
  refine ⟨step_books hp hI.books hs, fun F m' => ?_, fun F farm' hfarm' harvest hmem hlater => ?_⟩
  · by_cases he : accs.farm = F ∧ m = m'
    · obtain ⟨rfl, rfl⟩ := he
      rw [hone, totalCost_standing_cons (hI.overwritten_mem hcalled), totalFunding, List.map_cons,
        List.sum_cons, ← totalFunding, hI.total, hcalled.net]
      ring
    · rw [hother he]
      exact hI.total F m'
  · rw [hcalled.slot] at hlater
    rcases hcalled.harvests hI.books hfarm' hmem with ⟨⟨rfl, rfl⟩, hhead⟩ | ⟨hne, farm, hfarm, hmem⟩
    · rw [hone, hhead]
      exact added_mem_standing
    · rw [hother hne]
      exact hI.scheduled F farm hfarm harvest hmem hlater

theorem Genesis.fundedRun (hg : Genesis s) : FundedRun env (s, []) where
  books := hg.books
  total _ _ := rfl
  scheduled := hg.every_farm

theorem run_fundedRun (hp : env.tokenProgram.Lawful) (hg : Genesis s) (is : List Instr) :
    FundedRun env (run (traced (step env)) (s, []) is) := by
  refine run_invariant' (I := FundedRun env) (fun p i p' hI h => ?_) hg.fundedRun is
  obtain ⟨s, h'⟩ := p
  obtain ⟨s', h''⟩ := p'
  obtain ⟨hs, htrace⟩ := traced_eq_ok.mp h
  replace hs : step env s i = .ok s' := hs
  replace htrace : h'' = ⟨s, i, s'⟩ :: h' := htrace
  subst htrace
  by_cases hi : i.schedules = false
  · exact hI.other hp hi hs
  · cases i with
    | newHarvestPeriod accs m startsAt len tps => exact hI.call hp hs
    | _ => exact absurd rfl hi

/-- The transfer of a call was made, only a period that had yet to start was
overwritten, and no more than its cost came back. -/
structure PeriodPaid (s s' : FarmingState) (accs : NewHarvestPeriod) (m : Pubkey) (c : PeriodCall) :
    Prop where
  /-- The harvest of the mint has the new period in the place of the
  overwritten one, or before all others. -/
  scheduled : ∃ farm old new, s.farms.lookup accs.farm = some farm
    ∧ farm.findHarvest m = some old ∧ Scheduled s.slot old new c.added c.overwritten
    ∧ s'.farms = s.farms.insert accs.farm (farm.setHarvest m new)
  funded : Funded s.ledger s'.ledger accs m c.funding
  later : ∀ p, c.overwritten = some p → s.slot < p.startsAt
  refunded : ∀ tokens, c.funding = some (.refund tokens) → tokens.val ≤ c.credit

theorem Called.paid (hcalled : Called s s' accs m c) : PeriodPaid s s' accs m c := by
  refine ⟨hcalled.scheduled, hcalled.funded, fun p hp => ?_, fun tokens hrefund => ?_⟩
  · obtain ⟨_, old, _, _, _, _, _, _, _, _, _, _, hover⟩ := hcalled.head_added
    obtain ⟨rfl, hlater⟩ := hover p hp
    exact hlater
  · have hnet := hcalled.net
    rw [hrefund, netFunding] at hnet
    omega

/-- A step that scheduled a period has a record, by which it was paid for. -/
def CallPaid (env : Env) (e : Event FarmingState Instr) : Prop :=
  match e.instr with
  | .newHarvestPeriod accs m _ _ _ =>
      ∃ c, periodCallOf env accs.farm m e = some c ∧ PeriodPaid e.before e.after accs m c
  | _ => True

theorem calls_paid (hp : env.tokenProgram.Lawful) (is : List Instr) :
    ∀ e ∈ (run (traced (step env)) (s, []) is).2, CallPaid env e := by
  refine history_invariant (I := fun _ => True) (fun s i s' _ h => ⟨trivial, ?_⟩) trivial is
  cases i with
  | newHarvestPeriod accs m startsAt len tps =>
      obtain ⟨c, hc, hcalled⟩ := exists_periodCall hp h
      exact ⟨c, hc, hcalled.paid⟩
  | _ => trivial

/-- **Periods are funded exactly**: over every run from a genesis state, the
transfers of a mint add up to the cost of the periods that were added and not
overwritten. Each call makes its one transfer and overwrites only a period
that has yet to start, and a call that fails changes nothing. -/
theorem periods_funded (hp : env.tokenProgram.Lawful) (hg : Genesis s) (is : List Instr) :
    (∀ F m, totalFunding (periodCalls env F m (run (traced (step env)) (s, []) is).2)
      = totalCost (standing (periodCalls env F m (run (traced (step env)) (s, []) is).2)))
    ∧ (∀ e ∈ (run (traced (step env)) (s, []) is).2, CallPaid env e)
    ∧ ∀ accs m startsAt len tps err,
      newHarvestPeriod env (run (step env) s is) accs m startsAt len tps = .error err →
        exec (step env) (run (step env) s is) (.newHarvestPeriod accs m startsAt len tps)
          = run (step env) s is := by
  refine ⟨(run_fundedRun hp hg is).total, calls_paid hp is,
    fun accs m startsAt len tps err herr => ?_⟩
  exact exec_error herr

/-- The period from slot 10 costs 70 tokens. The one from slot 12 overwrites
it in slot 5 for 15, and the one from slot 20 is added for 40 when it has
started. -/
def rescheduled : List Instr :=
  openFarm ++ [.tick 5, schedule 10 10 7, schedule 12 5 3, .tick 12, schedule 20 10 4]

theorem periods_funded_rescheduled :
    totalFunding (periodCalls sampleEnv 1 200 (run (traced (step sampleEnv)) (sampleGenesis, [])
        rescheduled).2) = 55
    ∧ totalFunding (periodCalls sampleEnv 1 200 (run (traced (step sampleEnv)) (sampleGenesis, [])
        rescheduled).2)
      = totalCost (standing (periodCalls sampleEnv 1 200 (run (traced (step sampleEnv))
        (sampleGenesis, []) rescheduled).2)) :=
  ⟨by decide +kernel,
    (periods_funded Token.Reference.lawful sampleGenesis_genesis rescheduled).1 1 200⟩

end SolanaAmm.Farming
