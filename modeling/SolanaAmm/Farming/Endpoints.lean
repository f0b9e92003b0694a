import SolanaAmm.Farming.Farmer
import SolanaAmm.Lib.Machine
import SolanaAmm.Lib.Token

/-!
# Farming — Endpoints

The program as a state machine. The state holds the farms and farmers, the
token ledger and the clock; an instruction is an endpoint call with the
accounts and arguments its caller chooses, or something that happens
outside the program. An account whose address is fixed by seeds is not a
choice and is not passed. Anchor deserialises the accounts when an
endpoint is entered and writes them back when it returns, so amounts are
read from the ledger at entry while the transfers thread it.
-/

namespace SolanaAmm.Farming

open Result Token

/-- What the program calls and does not define. -/
structure Env where
  tokenProgram : TokenProgram Address Pubkey
  /-- Whether the program is built with the `prod` feature. -/
  prodFeature : Bool
  /-- The bytes of an address, which are only printed. -/
  addressBytes : Address → Pubkey

/-- A farmer's account is derived from their farm and their authority. -/
abbrev FarmerKey := Pubkey × Pubkey

structure FarmingState where
  farms : Store Pubkey Farm
  farmers : Store FarmerKey Farmer
  /-- The whitelisted pairs of a source and a target farm. -/
  whitelist : Store (Pubkey × Pubkey) Unit
  ledger : Ledger Address Pubkey
  slot : Slot

namespace FarmingState

def farm (s : FarmingState) (key : Pubkey) : Except FarmingError Farm :=
  okOr (s.farms.lookup key) .anchor

def farmer (s : FarmingState) (key : FarmerKey) : Except FarmingError Farmer :=
  okOr (s.farmers.lookup key) .anchor

def tokenAccount (s : FarmingState) (key : Address) :
    Except FarmingError (TokenAccount Address Pubkey) :=
  okOr (s.ledger.accounts.lookup key) .anchor

def setFarm (s : FarmingState) (key : Pubkey) (farm : Farm) : FarmingState :=
  { s with farms := s.farms.insert key farm }

def setFarmer (s : FarmingState) (key : FarmerKey) (farmer : Farmer) : FarmingState :=
  { s with farmers := s.farmers.insert key farmer }

def setLedger (s : FarmingState) (ledger : Ledger Address Pubkey) : FarmingState :=
  { s with ledger }

section Setters

variable (s : FarmingState) (key : Pubkey) (k : FarmerKey) (farm : Farm) (farmer : Farmer)
  (ledger : Ledger Address Pubkey)

@[simp] theorem setFarm_farms : (s.setFarm key farm).farms = s.farms.insert key farm := rfl
@[simp] theorem setFarm_farmers : (s.setFarm key farm).farmers = s.farmers := rfl
@[simp] theorem setFarm_ledger : (s.setFarm key farm).ledger = s.ledger := rfl
@[simp] theorem setFarm_slot : (s.setFarm key farm).slot = s.slot := rfl

@[simp] theorem setFarmer_farms : (s.setFarmer k farmer).farms = s.farms := rfl
@[simp] theorem setFarmer_farmers :
    (s.setFarmer k farmer).farmers = s.farmers.insert k farmer := rfl
@[simp] theorem setFarmer_ledger : (s.setFarmer k farmer).ledger = s.ledger := rfl
@[simp] theorem setFarmer_slot : (s.setFarmer k farmer).slot = s.slot := rfl

@[simp] theorem setLedger_farms : (s.setLedger ledger).farms = s.farms := rfl
@[simp] theorem setLedger_farmers : (s.setLedger ledger).farmers = s.farmers := rfl
@[simp] theorem setLedger_ledger : (s.setLedger ledger).ledger = ledger := rfl
@[simp] theorem setLedger_slot : (s.setLedger ledger).slot = s.slot := rfl

end Setters

end FarmingState

section Endpoints

variable (env : Env)

def transfer (ledger : Ledger Address Pubkey) (source destination authority : Address)
    (amount : TokenAmount) : Except FarmingError (Ledger Address Pubkey) :=
  okOr (env.tokenProgram.transfer ledger source destination authority amount) .tokenProgram

/-! ## Farms and their settings -/

def createFarm (s : FarmingState) (admin farmKey stakeMint : Pubkey) :
    Except FarmingError FarmingState := do
  ensure (s.farms.lookup farmKey).isNone .anchor
  let _ ← okOr (s.ledger.mints.lookup stakeMint) .anchor
  let ledger ← okOr (env.tokenProgram.initializeAccount s.ledger (.stakeVault farmKey)
    stakeMint (.farmSigner farmKey)) .tokenProgram
  pure ((s.setLedger ledger).setFarm farmKey
    { (default : Farm) with admin, stakeMint, stakeVault := .stakeVault farmKey })

def setFarmOwner (s : FarmingState) (admin newFarmAdmin farmKey : Pubkey) :
    Except FarmingError FarmingState := do
  let farm ← s.farm farmKey
  ensure (farm.admin = admin) .farmAdminMismatch
  pure (s.setFarm farmKey { farm with admin := newFarmAdmin })

def setMinSnapshotWindow (s : FarmingState) (admin farmKey : Pubkey)
    (minSnapshotWindowSlots : U64) : Except FarmingError FarmingState := do
  let farm ← s.farm farmKey
  ensure (farm.admin = admin) .farmAdminMismatch
  pure (s.setFarm farmKey { farm with minSnapshotWindowSlots })

def whitelistFarmForCompounding (s : FarmingState) (admin sourceFarm targetFarm : Pubkey) :
    Except FarmingError FarmingState := do
  let _ ← s.farm targetFarm
  ensure (s.whitelist.lookup (sourceFarm, targetFarm)).isNone .anchor
  let source ← s.farm sourceFarm
  ensure (source.admin = admin) .farmAdminMismatch
  pure { s with whitelist := s.whitelist.insert (sourceFarm, targetFarm) () }

def dewhitelistFarmForCompounding (s : FarmingState) (admin sourceFarm targetFarm : Pubkey) :
    Except FarmingError FarmingState := do
  let _ ← s.farm targetFarm
  let _ ← okOr (s.whitelist.lookup (sourceFarm, targetFarm)) .anchor
  let source ← s.farm sourceFarm
  ensure (source.admin = admin) .farmAdminMismatch
  pure { s with whitelist := s.whitelist.erase (sourceFarm, targetFarm) }

/-! ## Harvests of a farm -/

def addHarvest (s : FarmingState) (admin farmKey harvestMint : Pubkey) :
    Except FarmingError FarmingState := do
  let _ ← okOr (s.ledger.mints.lookup harvestMint) .anchor
  ensure (s.ledger.accounts.lookup (.harvestVault farmKey harvestMint)).isNone .anchor
  let farm ← s.farm farmKey
  ensure (farm.admin = admin) .farmAdminMismatch
  let farm ← farm.addHarvest harvestMint (.harvestVault farmKey harvestMint)
  let ledger ← okOr (env.tokenProgram.initializeAccount s.ledger
    (.harvestVault farmKey harvestMint) harvestMint (.farmSigner farmKey)) .tokenProgram
  pure ((s.setLedger ledger).setFarm farmKey farm)

def removeHarvest (s : FarmingState) (admin farmKey harvestMint : Pubkey) :
    Except FarmingError FarmingState := do
  let harvestVault ← s.tokenAccount (.harvestVault farmKey harvestMint)
  ensure (harvestVault.amount = 0)
    (acc "Cannot remove harvest which users haven't yet claimed")
  let farm ← s.farm farmKey
  ensure (farm.admin = admin) .farmAdminMismatch
  let _ ← okOr (farm.findHarvest harvestMint) (acc "Harvest mint doesn't exist")
  let ledger ← okOr (env.tokenProgram.closeAccount s.ledger
    (.harvestVault farmKey harvestMint) (.farmSigner farmKey)) .tokenProgram
  pure ((s.setLedger ledger).setFarm farmKey (farm.setHarvest harvestMint default))

def totalTokensEmittedPerPeriod (period : Slot × Slot) (tps : TokenAmount) :
    Except FarmingError TokenAmount := do
  let (startsAt, endsAt) := period
  let slots ← okOr (endsAt.checkedSub startsAt) .mathOverflow
  let slots ← okOr (slots.checkedAdd 1) .mathOverflow
  okOr (slots.checkedMul tps) .mathOverflow

/-- The start of a new period: zero stands for the current slot. -/
def periodStart (currentSlot startsAt : Slot) : Except FarmingError Slot :=
  if startsAt = 0 then pure currentSlot
  else do
    ensure (¬ startsAt < currentSlot) (.harvestPeriodMustStartAtOrAfterCurrentSlot
      "Cannot start a new farming period in the past, use 0 to default to current slot")
    pure startsAt

/-- What was paid for a scheduled period that is overwritten. -/
def depositedForScheduledLaunch : Option HarvestPeriod → Except FarmingError TokenAmount
  | some period => totalTokensEmittedPerPeriod (period.startsAt, period.endsAt) period.tps
  | none => pure 0

/-- Pay for the new period, or return what the overwritten one cost more. -/
def settlePeriod (ledger : Ledger Address Pubkey) (admin farmKey harvestMint : Pubkey)
    (harvestWallet : Address) (walletAmount newTokens depositedTokens : TokenAmount) :
    Except FarmingError (Ledger Address Pubkey) :=
  match compare newTokens.val depositedTokens.val with
  | .eq => pure ledger
  | .lt => do
      let amount ← okOr (depositedTokens.checkedSub newTokens) .panicked
      transfer env ledger (.harvestVault farmKey harvestMint) harvestWallet
        (.farmSigner farmKey) amount
  | .gt => do
      let depositAmount ← okOr (newTokens.checkedSub depositedTokens) .panicked
      ensure (¬ walletAmount < depositAmount)
        (acc ("Insufficient tokens in harvest wallet, must deposit "
          ++ toString depositAmount.val))
      transfer env ledger harvestWallet (.harvestVault farmKey harvestMint) (.key admin)
        depositAmount

structure NewHarvestPeriod where
  admin : Pubkey
  farm : Pubkey
  harvestWallet : Address

def newHarvestPeriod (s : FarmingState) (accs : NewHarvestPeriod) (harvestMint : Pubkey)
    (startsAt : Slot) (periodLengthInSlots : U64) (tps : TokenAmount) :
    Except FarmingError FarmingState := do
  let harvestWallet ← s.tokenAccount accs.harvestWallet
  let _ ← s.tokenAccount (.harvestVault accs.farm harvestMint)
  let farm ← s.farm accs.farm
  ensure (farm.admin = accs.admin) .farmAdminMismatch
  ensure (periodLengthInSlots ≠ 0) (.harvestPeriodMustBeAtLeastOneSlot
    "Cannot create a harvest period with 0 length")
  let startsAt ← periodStart s.slot startsAt
  let endsAt ← okOr (startsAt.checkedAdd periodLengthInSlots) .mathOverflow
  let endsAt ← Slot.pred endsAt
  let (farm, scheduledLaunch) ← farm.newHarvestPeriod env.prodFeature s.slot harvestMint
    (startsAt, endsAt) tps
  let newPeriodTotalTokens ← totalTokensEmittedPerPeriod (startsAt, endsAt) tps
  let deposited ← depositedForScheduledLaunch scheduledLaunch
  let ledger ← settlePeriod env s.ledger accs.admin accs.farm harvestMint accs.harvestWallet
    harvestWallet.amount newPeriodTotalTokens deposited
  pure ((s.setLedger ledger).setFarm accs.farm farm)

/-! ## Snapshots -/

def takeSnapshot (s : FarmingState) (farmKey : Pubkey) (stakeVault : Address) :
    Except FarmingError FarmingState := do
  let vault ← s.tokenAccount stakeVault
  let farm ← s.farm farmKey
  ensure (stakeVault = farm.stakeVault)
    (acc "The provided stake vault does not correspond to the Farm stake vault")
  let farm ← farm.takeSnapshot s.slot vault.amount
  pure (s.setFarm farmKey farm)

/-! ## Farmers -/

def createFarmer (s : FarmingState) (authority farmKey : Pubkey) :
    Except FarmingError FarmingState := do
  ensure (s.farmers.lookup (farmKey, authority)).isNone .anchor
  let farm ← s.farm farmKey
  pure (s.setFarmer (farmKey, authority)
    ({ (default : Farmer) with authority, farm := farmKey }.setHarvests
      (farm.harvests.map (fun h : Harvest => (h.mint, 0)))))

def closeFarmer (s : FarmingState) (authority : Pubkey) (key : FarmerKey) :
    Except FarmingError FarmingState := do
  let farmer ← s.farmer key
  ensure (farmer.authority = authority) (acc "Authority does not own this farmer")
  let total ← farmer.totalDeposited
  ensure (total = 0) (acc "Unstake all farmer's tokens")
  ensure (¬ farmer.harvests.any (fun h => h.tokens ≠ 0)) (acc "Claim all farmer's harvest")
  pure { s with farmers := s.farmers.erase key }

/-- The constraint that ties a farmer to the farm they are used with. -/
def farmerOf (s : FarmingState) (key : FarmerKey) (farmKey : Pubkey) (msg : String) :
    Except FarmingError Farmer := do
  let farmer ← s.farmer key
  ensure (farmer.farm = farmKey) (acc msg)
  pure farmer

structure StartFarming where
  walletAuthority : Pubkey
  farmer : FarmerKey
  stakeWallet : Address
  farm : Pubkey

def startFarming (s : FarmingState) (accs : StartFarming) (stake : TokenAmount) :
    Except FarmingError FarmingState := do
  let farmer ← farmerOf s accs.farmer accs.farm "Farmer is set up for a different farm"
  ensure (stake ≠ 0) (arg "The provided stake amount needs to be bigger than zero")
  let farm ← s.farm accs.farm
  let farmer ← farmer.checkVestedPeriodAndUpdateHarvest farm s.slot
  let farmer ← farmer.addToVested s.slot stake
  let ledger ← transfer env s.ledger accs.stakeWallet (.stakeVault accs.farm)
    (.key accs.walletAuthority) stake
  pure ((s.setLedger ledger).setFarmer accs.farmer farmer)

structure StopFarming where
  authority : Pubkey
  stakeWallet : Address
  farm : Pubkey

/-- The farmer's address is derived from the farm and the authority. -/
def StopFarming.farmer (accs : StopFarming) : FarmerKey := (accs.farm, accs.authority)

def stopFarming (s : FarmingState) (accs : StopFarming) (unstakeMax : TokenAmount) :
    Except FarmingError FarmingState := do
  let farmer ← s.farmer accs.farmer
  ensure (unstakeMax ≠ 0)
    (arg "The provided unstake maximum amount needs to be bigger than zero")
  let farm ← s.farm accs.farm
  let farmer ← farmer.checkVestedPeriodAndUpdateHarvest farm s.slot
  let (farmer, unstake) ← farmer.unstake unstakeMax
  let ledger ← transfer env s.ledger (.stakeVault accs.farm) accs.stakeWallet
    (.farmSigner accs.farm) unstake
  pure ((s.setLedger ledger).setFarmer accs.farmer farmer)

/-- `update_eligible_harvest::handle`, which both endpoints call. -/
def updateEligibleHarvestHandle (s : FarmingState) (farmKey : Pubkey) (key : FarmerKey)
    (til : Slot) : Except FarmingError FarmingState := do
  let farmer ← farmerOf s key farmKey "Farmer is set up for a different farm"
  let farm ← s.farm farmKey
  let farmer ← farmer.checkVestedPeriodAndUpdateHarvest farm til
  pure (s.setFarmer key farmer)

def updateEligibleHarvest (s : FarmingState) (farmKey : Pubkey) (key : FarmerKey) :
    Except FarmingError FarmingState :=
  updateEligibleHarvestHandle s farmKey key s.slot

def updateEligibleHarvestUntil (s : FarmingState) (farmKey : Pubkey) (key : FarmerKey)
    (til : Slot) : Except FarmingError FarmingState :=
  updateEligibleHarvestHandle s farmKey key (min s.slot til)

/-! ## Claiming -/

/-- `chunks(2)`, of an even number of accounts. -/
def vaultWalletPairs : List Address → List (Address × Address)
  | a :: b :: l => (a, b) :: vaultWalletPairs l
  | _ => []

def claimPair (farmKey : Pubkey) (acc : Ledger Address Pubkey × Harvested)
    (pair : Address × Address) : Except FarmingError (Ledger Address Pubkey × Harvested) := do
  let (ledger, farmerHarvests) := acc
  let (vault, wallet) := pair
  let data ← okOr (ledger.accounts.lookup vault) .anchor
  let expectedVault := Address.harvestVault farmKey data.mint
  ensure (expectedVault = vault)
    (Farming.acc ("Harvest vault for mint '" ++ data.mint.display ++ "' expected to be '"
      ++ (env.addressBytes expectedVault).display ++ "' but got '"
      ++ (env.addressBytes vault).display ++ "'"))
  match farmerHarvests[data.mint]?.filter (fun tokens => 0 < tokens) with
  | some eligibleHarvest => do
      let ledger ← transfer env ledger vault wallet (.farmSigner farmKey) eligibleHarvest
      pure (ledger, farmerHarvests.insert data.mint 0)
  | none => pure (ledger, farmerHarvests)

def claimEligibleHarvest (s : FarmingState) (authority : Pubkey) (key : FarmerKey)
    (remainingAccounts : List Address) : Except FarmingError FarmingState := do
  let farmer ← s.farmer key
  ensure (key = (farmer.farm, authority)) .anchor
  ensure (¬ (remainingAccounts = [] ∨ remainingAccounts.length % 2 ≠ 0))
    (acc "Remaining accounts must come in pairs")
  let (ledger, farmerHarvests) ← (vaultWalletPairs remainingAccounts).foldlM
    (claimPair env farmer.farm) (s.ledger, farmer.harvestsMap)
  pure ((s.setLedger ledger).setFarmer key (farmer.setHarvests farmerHarvests.toList))

/-! ## Compounding -/

def compoundMintMismatch : FarmingError :=
  acc "Compounding is only possible if stake mint is a harvestable mint of the farm as well"

structure CompoundSameFarm where
  farm : Pubkey
  harvestVault : Address
  farmer : FarmerKey

def compoundSameFarm (s : FarmingState) (accs : CompoundSameFarm) :
    Except FarmingError FarmingState := do
  let _ ← okOr (s.whitelist.lookup (accs.farm, accs.farm)) .anchor
  let stakeVault ← s.tokenAccount (.stakeVault accs.farm)
  let harvestVault ← s.tokenAccount accs.harvestVault
  ensure (harvestVault.mint = stakeVault.mint) compoundMintMismatch
  ensure (accs.harvestVault = .harvestVault accs.farm harvestVault.mint) .anchor
  let farmer ← farmerOf s accs.farmer accs.farm "Farmer is set up for a different farm"
  let farm ← s.farm accs.farm
  let farmer ← farmer.checkVestedPeriodAndUpdateHarvest farm s.slot
  let (farmer, compoundTokens) ← farmer.claimHarvest farm.stakeMint
  let farmer ← farmer.addToVested s.slot compoundTokens
  let ledger ← transfer env s.ledger accs.harvestVault (.stakeVault accs.farm)
    (.farmSigner accs.farm) compoundTokens
  pure ((s.setLedger ledger).setFarmer accs.farmer farmer)

structure CompoundAcrossFarms where
  sourceFarm : Pubkey
  targetFarm : Pubkey
  sourceHarvestVault : Address
  sourceFarmer : FarmerKey
  targetFarmer : FarmerKey

def compoundAcrossFarms (s : FarmingState) (accs : CompoundAcrossFarms) :
    Except FarmingError FarmingState := do
  ensure (accs.targetFarm ≠ accs.sourceFarm)
    (acc "This endpoint cannot be used to compound the same farm")
  let _ ← okOr (s.whitelist.lookup (accs.sourceFarm, accs.targetFarm)) .anchor
  let targetStakeVault ← s.tokenAccount (.stakeVault accs.targetFarm)
  let sourceHarvestVault ← s.tokenAccount accs.sourceHarvestVault
  ensure (sourceHarvestVault.mint = targetStakeVault.mint) compoundMintMismatch
  ensure (accs.sourceHarvestVault = .harvestVault accs.sourceFarm sourceHarvestVault.mint)
    .anchor
  let sourceFarmer ← s.farmer accs.sourceFarmer
  let targetFarmer ← s.farmer accs.targetFarmer
  ensure (sourceFarmer.authority = targetFarmer.authority)
    (acc "Source and target farmer must be of the same user")
  ensure (sourceFarmer.farm = accs.sourceFarm)
    (acc "Source farmer is set up for a different farm")
  ensure (targetFarmer.farm = accs.targetFarm)
    (acc "Target farmer is set up for a different farm")
  let sourceFarm ← s.farm accs.sourceFarm
  let targetFarm ← s.farm accs.targetFarm
  let sourceFarmer ← sourceFarmer.checkVestedPeriodAndUpdateHarvest sourceFarm s.slot
  let (sourceFarmer, compoundTokens) ← sourceFarmer.claimHarvest targetFarm.stakeMint
  let targetFarmer ← targetFarmer.addToVested s.slot compoundTokens
  let ledger ← transfer env s.ledger accs.sourceHarvestVault (.stakeVault accs.targetFarm)
    (.farmSigner accs.sourceFarm) compoundTokens
  pure (((s.setLedger ledger).setFarmer accs.sourceFarmer sourceFarmer).setFarmer
    accs.targetFarmer targetFarmer)

/-! ## Airdrops -/

structure Airdrop where
  walletAuthority : Pubkey
  farmer : FarmerKey
  harvestWallet : Address

def airdrop (s : FarmingState) (accs : Airdrop) (amount : TokenAmount) :
    Except FarmingError FarmingState := do
  let farmer ← s.farmer accs.farmer
  let harvestWallet ← s.tokenAccount accs.harvestWallet
  ensure (amount ≠ 0) (arg "The provided airdrop amount needs to be bigger than zero")
  let harvest ← okOr (farmer.findHarvest harvestWallet.mint)
    (acc "Farmer cannot harvest given harvest wallet's mint")
  let tokens ← okOr (harvest.tokens.checkedAdd amount) .mathOverflow
  let ledger ← transfer env s.ledger accs.harvestWallet
    (.harvestVault farmer.farm harvestWallet.mint) (.key accs.walletAuthority) amount
  pure ((s.setLedger ledger).setFarmer accs.farmer
    (farmer.setHarvestTokens harvestWallet.mint tokens))

/-! ## Instructions -/

inductive Instr
  | createFarm (admin farm stakeMint : Pubkey)
  | addHarvest (admin farm harvestMint : Pubkey)
  | removeHarvest (admin farm harvestMint : Pubkey)
  | setFarmOwner (admin newFarmAdmin farm : Pubkey)
  | newHarvestPeriod (accs : NewHarvestPeriod) (harvestMint : Pubkey) (startsAt : Slot)
      (periodLengthInSlots : U64) (tps : TokenAmount)
  | takeSnapshot (farm : Pubkey) (stakeVault : Address)
  | setMinSnapshotWindow (admin farm : Pubkey) (minSnapshotWindowSlots : U64)
  | createFarmer (authority farm : Pubkey)
  | closeFarmer (authority : Pubkey) (farmer : FarmerKey)
  | startFarming (accs : StartFarming) (stake : TokenAmount)
  | stopFarming (accs : StopFarming) (unstakeMax : TokenAmount)
  | updateEligibleHarvest (farm : Pubkey) (farmer : FarmerKey)
  | updateEligibleHarvestUntil (farm : Pubkey) (farmer : FarmerKey) (til : Slot)
  | claimEligibleHarvest (authority : Pubkey) (farmer : FarmerKey)
      (remainingAccounts : List Address)
  | whitelistFarmForCompounding (admin sourceFarm targetFarm : Pubkey)
  | dewhitelistFarmForCompounding (admin sourceFarm targetFarm : Pubkey)
  | compoundSameFarm (accs : CompoundSameFarm)
  | compoundAcrossFarms (accs : CompoundAcrossFarms)
  | airdrop (accs : Airdrop) (amount : TokenAmount)
  | tick (slot : Slot)
  | token (op : TokenOp Address Pubkey)

/-- Nobody signs for a derived address outside the program. -/
def Address.isKey : Address → Bool
  | .key _ => true
  | _ => false

/-- Execute one instruction. -/
def step (s : FarmingState) : Instr → Except FarmingError FarmingState
  | .createFarm admin farm stakeMint => createFarm env s admin farm stakeMint
  | .addHarvest admin farm harvestMint => addHarvest env s admin farm harvestMint
  | .removeHarvest admin farm harvestMint => removeHarvest env s admin farm harvestMint
  | .setFarmOwner admin newFarmAdmin farm => setFarmOwner s admin newFarmAdmin farm
  | .newHarvestPeriod accs harvestMint startsAt periodLengthInSlots tps =>
      newHarvestPeriod env s accs harvestMint startsAt periodLengthInSlots tps
  | .takeSnapshot farm stakeVault => takeSnapshot s farm stakeVault
  | .setMinSnapshotWindow admin farm minSnapshotWindowSlots =>
      setMinSnapshotWindow s admin farm minSnapshotWindowSlots
  | .createFarmer authority farm => createFarmer s authority farm
  | .closeFarmer authority farmer => closeFarmer s authority farmer
  | .startFarming accs stake => startFarming env s accs stake
  | .stopFarming accs unstakeMax => stopFarming env s accs unstakeMax
  | .updateEligibleHarvest farm farmer => updateEligibleHarvest s farm farmer
  | .updateEligibleHarvestUntil farm farmer til => updateEligibleHarvestUntil s farm farmer til
  | .claimEligibleHarvest authority farmer remainingAccounts =>
      claimEligibleHarvest env s authority farmer remainingAccounts
  | .whitelistFarmForCompounding admin sourceFarm targetFarm =>
      whitelistFarmForCompounding s admin sourceFarm targetFarm
  | .dewhitelistFarmForCompounding admin sourceFarm targetFarm =>
      dewhitelistFarmForCompounding s admin sourceFarm targetFarm
  | .compoundSameFarm accs => compoundSameFarm env s accs
  | .compoundAcrossFarms accs => compoundAcrossFarms env s accs
  | .airdrop accs amount => airdrop env s accs amount
  | .tick slot => do
      ensure (s.slot ≤ slot) .panicked
      pure { s with slot }
  | .token op => do
      ensure (op.signer.all Address.isKey) .panicked
      let ledger ← okOr (op.apply env.tokenProgram s.ledger) .tokenProgram
      pure (s.setLedger ledger)

end Endpoints

end SolanaAmm.Farming
