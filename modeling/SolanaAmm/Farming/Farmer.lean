import SolanaAmm.Farming.Farm

/-!
# Farming — Farmer

The methods of a farmer: staking and unstaking, and crediting the harvest.
`eligibleHarvestUntil` walks back over the snapshot windows; in each one a
farmer earns the share of their stake in the tokens staked at the
snapshot, of every harvest of the farm (`harvestWindow`).
-/

namespace SolanaAmm.Farming

open Result Decimal Harvest

/-! ## Crediting the windows -/

/-- The slots of a range between two bounds, times the share and the
tokens per slot, on top of what was found so far. -/
def addRange (startsAt calculateUntilSlot : Slot) (farmerShare : Decimal)
    (eligibleHarvest : Decimal) (range : TpsRange) : Except FarmingError Decimal :=
  if range.tps = 0 then pure eligibleHarvest
  else do
    let slots ← okOr
      ((min range.stop calculateUntilSlot).checkedSub (max range.start startsAt)) .mathOverflow
    let slots ← Slot.succ slots
    let shareOfSlots ← tryMul (ofU64 slots) farmerShare
    let tokens ← tryMul shareOfSlots (ofU64 range.tps)
    tryAdd eligibleHarvest tokens

/-- The `while let` loop over the ranges of one harvest: what they release
to the share in the window, and the ranges left for older windows. -/
def popHistory (startsAt endsAt : Slot) (farmerShare : Decimal) :
    Slot → Decimal → List TpsRange → Except FarmingError (Decimal × List TpsRange)
  | _, eligibleHarvest, [] => pure (eligibleHarvest, [])
  | calculateUntilSlot, eligibleHarvest, range :: history =>
      if range.stop < startsAt then pure (eligibleHarvest, range :: history)
      else if endsAt < range.start then
        popHistory startsAt endsAt farmerShare calculateUntilSlot eligibleHarvest history
      else do
        let eligibleHarvest ← addRange startsAt calculateUntilSlot farmerShare eligibleHarvest range
        if startsAt ≤ range.start ∧ range.start ≠ 0 then do
          let calculateUntilSlot ← Slot.pred range.start
          popHistory startsAt endsAt farmerShare calculateUntilSlot eligibleHarvest history
        else pure (eligibleHarvest, range :: history)

abbrev TpsHistories := BTreeMap (List TpsRange)

abbrev Harvested := BTreeMap TokenAmount

/-- What one harvest of the farm adds in one window. -/
def harvestWindow (startsAt endsAt : Slot) (farmerShare : Decimal)
    (acc : TpsHistories × Harvested) (farmHarvest : Harvest) :
    Except FarmingError (TpsHistories × Harvested) := do
  let (histories, farmerHarvests) := acc
  let history ← okOr histories[farmHarvest.mint]? .panicked
  let (eligibleHarvest, history) ← popHistory startsAt endsAt farmerShare endsAt zero history
  let farmerHarvest := farmerHarvests.getD farmHarvest.mint 0
  let tokens ← tryFloor eligibleHarvest
  let farmerHarvest ← okOr (farmerHarvest.checkedAdd tokens) .mathOverflow
  pure (histories.insert farmHarvest.mint history,
    farmerHarvests.insert farmHarvest.mint farmerHarvest)

/-- What the loop over the snapshots carries. -/
structure WindowLoop where
  oldestSlotToSkip : Slot
  histories : TpsHistories
  farmerHarvests : Harvested

def harvestSnapshot (farmHarvests : List Harvest) (since : Slot) (farmerStaked : TokenAmount)
    (loop : WindowLoop) (snapshot : Snapshot) : Except FarmingError WindowLoop :=
  if snapshot.staked = 0 then pure { loop with oldestSlotToSkip := snapshot.startedAt }
  else do
    let startsAt := max snapshot.startedAt since
    let endsAt ← Slot.pred loop.oldestSlotToSkip
    let farmerShare ← tryDiv (ofU64 farmerStaked) (ofU64 snapshot.staked)
    let (histories, farmerHarvests) ← farmHarvests.foldlM
      (harvestWindow startsAt endsAt farmerShare) (loop.histories, loop.farmerHarvests)
    pure { oldestSlotToSkip := snapshot.startedAt, histories, farmerHarvests }

/-- The free function `eligible_harvest_until`: credit the slots of
`period`, both ends included, over the snapshots from the newest on. -/
def eligibleHarvestUntil (farmHarvests : BTreeMap Harvest) (snapshots : List Snapshot)
    (farmerHarvests : Harvested) (period : Slot × Slot) (farmerStaked : TokenAmount) :
    Except FarmingError Harvested :=
  if farmerStaked = 0 then pure farmerHarvests
  else do
    let (since, til) := period
    let oldestSlotToSkip ← Slot.succ til
    let histories ← farmHarvests.toList.mapM (fun h => do
      let history ← h.2.tpsHistory til
      pure (h.1, history))
    let loop ← (snapshots.filter (fun s => 0 < s.startedAt)).foldlM
      (harvestSnapshot (farmHarvests.values.filter (fun h => h.mint ≠ default)) since farmerStaked)
      { oldestSlotToSkip, histories := .ofList histories, farmerHarvests }
    pure loop.farmerHarvests

/-- Drop the mints that the farm no longer has, and add its new ones. -/
def syncHarvestMints (farmHarvests : BTreeMap Harvest) (farmerHarvests : Harvested) : Harvested :=
  farmHarvests.keys.foldl (fun m mint => if m.contains mint then m else m.insert mint 0)
    (farmerHarvests.filter (fun mint _ => farmHarvests.contains mint))

def Farm.harvestsMap (farm : Farm) : BTreeMap Harvest :=
  .ofList (farm.harvests.map (fun h => (h.mint, h)))

namespace Farmer

def harvestsMap (farmer : Farmer) : Harvested :=
  .ofList (farmer.harvests.map (fun h => (h.mint, h.tokens)))

def findHarvest (farmer : Farmer) (mint : Pubkey) : Option AvailableHarvest :=
  farmer.harvests.find? (fun h => h.mint = mint)

/-- A write through `get_harvest_mut`. -/
def setHarvestTokens (farmer : Farmer) (mint : Pubkey) (tokens : TokenAmount) : Farmer :=
  { farmer with
    harvests := Lists.setFirst (fun h => h.mint = mint) ⟨mint, tokens⟩ farmer.harvests }

/-- `Farmer::set_harvests`: ten slots, padded with uninitialised ones. -/
def setHarvests (farmer : Farmer) (harvests : List (Pubkey × TokenAmount)) : Farmer :=
  { farmer with
    harvests := (harvests.map (fun (mint, tokens) => AvailableHarvest.mk mint tokens) ++
      List.replicate MAX_HARVEST_MINTS default).take MAX_HARVEST_MINTS }

/-! ## Staking and unstaking -/

def addToVested (farmer : Farmer) (currentSlot : Slot) (tokens : TokenAmount) :
    Except FarmingError Farmer := do
  let vested ← okOr (farmer.vested.checkedAdd tokens) .mathOverflow
  pure { farmer with vestedAt := currentSlot, vested }

def totalDeposited (farmer : Farmer) : Except FarmingError TokenAmount :=
  okOr (farmer.staked.checkedAdd farmer.vested) .mathOverflow

def unstake (farmer : Farmer) (max : TokenAmount) : Except FarmingError (Farmer × TokenAmount) :=
  if max ≤ farmer.vested then do
    let vested ← okOr (farmer.vested.checkedSub max) .panicked
    pure ({ farmer with vested }, max)
  else do
    let total ← farmer.totalDeposited
    if max < total then do
      let fromStaked ← okOr (max.checkedSub farmer.vested) .panicked
      let staked ← okOr (farmer.staked.checkedSub fromStaked) .panicked
      pure ({ farmer with staked, vested := 0 }, max)
    else pure ({ farmer with staked := 0, vested := 0 }, total)

def claimHarvest (farmer : Farmer) (stakeMint : Pubkey) :
    Except FarmingError (Farmer × TokenAmount) := do
  let harvest ← okOr (farmer.findHarvest stakeMint) .cannotCompoundIfStakeMintIsNotHarvest
  pure (farmer.setHarvestTokens stakeMint 0, harvest.tokens)

/-! ## Crediting the harvest -/

/-- The method `eligible_harvest_until`: everything credited up to and
including the slot. -/
def eligibleHarvestUntil (farmer : Farmer) (farm : Farm) (til : Slot) :
    Except FarmingError Harvested :=
  Farming.eligibleHarvestUntil farm.harvestsMap
    ((farm.getWindowSnapshotsEligibleToHarvest farmer.calculateNextHarvestFrom).dropWhile
      (fun s => til < s.startedAt))
    (syncHarvestMints farm.harvestsMap farmer.harvestsMap)
    (farmer.calculateNextHarvestFrom, til) farmer.staked

def updateEligibleHarvest (farmer : Farmer) (farm : Farm) (currentSlot : Slot) :
    Except FarmingError Farmer :=
  if currentSlot ≤ farmer.calculateNextHarvestFrom then pure farmer
  else do
    let farmerHarvests ← farmer.eligibleHarvestUntil farm currentSlot
    let next ← Slot.succ currentSlot
    pure { farmer.setHarvests farmerHarvests.toList with calculateNextHarvestFrom := next }

/-- The block of `check_vested_period_and_update_harvest` that a first
snapshot after the vested tokens came triggers: credit what precedes the
snapshot and count the vested tokens as staked from it on. -/
def stakeVestedFrom (farmer : Farmer) (farm : Farm) (snapshot : Snapshot) :
    Except FarmingError Farmer := do
  let til ← Slot.pred snapshot.startedAt
  let farmerHarvests ← farmer.eligibleHarvestUntil farm til
  let staked ← okOr (farmer.staked.checkedAdd farmer.vested) .mathOverflow
  pure { farmer.setHarvests farmerHarvests.toList with
    calculateNextHarvestFrom := snapshot.startedAt
    staked
    vested := 0 }

/-- The snapshot from which on the vested tokens count as staked. -/
def matureSnapshot (farmer : Farmer) (farm : Farm) : Option Snapshot :=
  if farmer.vested ≠ 0 then farm.firstSnapshotAfter farmer.vestedAt else none

def checkVestedPeriodAndUpdateHarvest (farmer : Farmer) (farm : Farm) (currentSlot : Slot) :
    Except FarmingError Farmer := do
  let farmer ←
    match farmer.matureSnapshot farm with
    | some snapshot => farmer.stakeVestedFrom farm snapshot
    | none => pure farmer
  farmer.updateEligibleHarvest farm currentSlot

end Farmer

end SolanaAmm.Farming
