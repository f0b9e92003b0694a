import SolanaAmm.Farming.Models
import SolanaAmm.Lib.Lists

/-!
# Farming — Farm

The methods of a farm: adding a harvest mint, scheduling a period of a
harvest, taking a snapshot and looking snapshots up; and the periods of a
harvest as one history of tokens per slot.
-/

namespace SolanaAmm.Farming

open Result

namespace Harvest

/-- The slots from `start` to `stop`, both inclusive, and the tokens
released in each. -/
structure TpsRange where
  start : Slot
  stop : Slot
  tps : TokenAmount
deriving DecidableEq

/-- The closure of `tps_history`: the ranges of a period and of the gap
between it and the previous one. -/
def periodRanges (curr prev : HarvestPeriod) : Except FarmingError (List TpsRange) :=
  if curr.startsAt = 0 ∧ prev.startsAt = 0 then pure []
  else if curr.startsAt = 0 then pure [⟨curr.startsAt, curr.endsAt, curr.tps⟩]
  else do
    let gapStart ← Slot.succ prev.endsAt
    if gapStart = curr.startsAt then pure [⟨curr.startsAt, curr.endsAt, curr.tps⟩]
    else do
      let gapStop ← Slot.pred curr.startsAt
      pure [⟨curr.startsAt, curr.endsAt, curr.tps⟩, ⟨gapStart, gapStop, 0⟩]

/-- `Harvest::tps_history`. The vector is only ever popped from its end, so
it is listed from there and its final `rev()` is left out. -/
def tpsHistory (harvest : Harvest) (current : Slot) : Except FarmingError (List TpsRange) := do
  let periods := harvest.periods.toList
  let ranges ← (periods.zip (periods.tail ++ [default])).mapM
    (fun window => periodRanges window.1 window.2)
  if harvest.periods.head.endsAt < current then do
    let start ← Slot.succ harvest.periods.head.endsAt
    pure (⟨start, current, 0⟩ :: ranges.flatten)
  else pure ranges.flatten

end Harvest

namespace Farm

/-- A write through `iter_mut().find(|h| h.mint == mint)`. -/
def setHarvest (farm : Farm) (mint : Pubkey) (harvest : Harvest) : Farm :=
  { farm with harvests := Lists.setFirst (fun h => h.mint = mint) harvest farm.harvests }

def findHarvest (farm : Farm) (mint : Pubkey) : Option Harvest :=
  farm.harvests.find? (fun h => h.mint = mint)

def addHarvest (farm : Farm) (harvestMint : Pubkey) (harvestVault : Address) :
    Except FarmingError Farm := do
  ensure (¬ farm.harvests.any (fun h => h.mint = harvestMint)) (acc "Harvest mint already exists")
  let _ ← okOr (farm.findHarvest default) (acc "Reached maximum harvest mints")
  pure (farm.setHarvest default
    { mint := harvestMint, vault := harvestVault, periods := .replicate _ default })

/-! ## Snapshots -/

def latestSnapshot (farm : Farm) : Snapshot := farm.snapshots.latest

def oldestSnapshot (farm : Farm) : Snapshot := farm.snapshots.oldest

def firstSnapshotAfter (farm : Farm) (slot : Slot) : Option Snapshot :=
  if farm.latestSnapshot.startedAt ≤ slot then none
  else do
    let (_, pos) ← farm.snapshots.walk.find? (fun s => s.1.startedAt ≤ slot)
    farm.snapshots.buffer[if pos = SNAPSHOTS_LEN - 1 then 0 else pos + 1]?

def getWindowSnapshotsEligibleToHarvest (farm : Farm) (calculateNextHarvestFrom : Slot) :
    List Snapshot :=
  let tip := farm.snapshots.tip
  let oldestUnclaimedSnapshotIndex :=
    match farm.snapshots.walk.find? (fun s => s.1.startedAt ≤ calculateNextHarvestFrom) with
    | some (_, index) => index
    | none => farm.snapshots.oldestIndex
  let eligibleSnapshotsCount :=
    match compare oldestUnclaimedSnapshotIndex tip with
    | .lt => tip - oldestUnclaimedSnapshotIndex + 1
    | .eq => 1
    | .gt => tip + (SNAPSHOTS_LEN - oldestUnclaimedSnapshotIndex) + 1
  farm.snapshots.newestFirst.take eligibleSnapshotsCount

/-- The least number of slots between two snapshots. -/
def snapshotWindowSlots (farm : Farm) : U64 :=
  if farm.minSnapshotWindowSlots = 0 then MIN_SNAPSHOT_WINDOW_SLOTS
  else farm.minSnapshotWindowSlots

def takeSnapshot (farm : Farm) (clock : Slot) (stakeVault : TokenAmount) :
    Except FarmingError Farm := do
  let next ← okOr (farm.latestSnapshot.startedAt.checkedAdd farm.snapshotWindowSlots) .panicked
  ensure (¬ clock < next) .insufficientSlotTimeSinceLastSnapshot
  pure { farm with snapshots := farm.snapshots.push ⟨stakeVault, clock⟩ }

/-! ## Harvest periods -/

/-- `Farm::new_harvest_period`; `prod` is the build flag of the limit on
updates. The second component is the scheduled period that was
overwritten. -/
def newHarvestPeriod (prod : Bool) (farm : Farm) (currentSlot : Slot) (harvestMint : Pubkey)
    (period : Slot × Slot) (tps : TokenAmount) :
    Except FarmingError (Farm × Option HarvestPeriod) := do
  let oldestSnapshot := farm.oldestSnapshot
  let harvest ← okOr (farm.findHarvest harvestMint) .unknownHarvestMintPubKey
  let (startsAt, endsAt) := period
  ensure (¬ endsAt ≤ startsAt)
    (.harvestPeriodCannotHaveNegativeLength "New harvest period must start before it ends")
  let latestStartedPeriod ← okOr
    (harvest.periods.toList.find? (fun p => p.startsAt ≤ currentSlot))
    (.invariantViolation "All harvest periods cannot be scheduled")
  ensure (¬ startsAt ≤ latestStartedPeriod.endsAt) (.cannotOverwriteOpenHarvestPeriod
    ("Latest started harvest period ends at slot " ++ toString latestStartedPeriod.endsAt.val ++
      ", new period must start later than that"))
  let latestPeriod := harvest.periods.head
  if currentSlot < latestPeriod.startsAt then
    pure (farm.setHarvest harvestMint
      { harvest with periods := ⟨tps, startsAt, endsAt⟩ ::ᵥ harvest.periods.tail },
      some latestPeriod)
  else do
    let oldestPeriod := harvest.periods.last
    let isOldestPeriodInitialized := prod && oldestPeriod.endsAt ≠ 0
    ensure (¬ (isOldestPeriodInitialized = true
        ∧ oldestSnapshot.startedAt ≤ oldestPeriod.endsAt))
      (.configurationUpdateLimitExceeded
        "Oldest period is still within the ring buffer history")
    -- `rotate_right(1)` and a write over the period that came around
    pure (farm.setHarvest harvestMint
      { harvest with periods := ⟨⟨tps, startsAt, endsAt⟩ :: harvest.periods.toList.dropLast,
          by simp⟩ }, none)

end Farm

end SolanaAmm.Farming
