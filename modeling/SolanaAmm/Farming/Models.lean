import SolanaAmm.Common
import SolanaAmm.Decimal
import SolanaAmm.Lib.RingBuffer
import Mathlib.Data.Vector.Basic

/-!
# Farming — Models

The farming program's account data: a farm with its harvests and the ring
buffer of its snapshots, a farmer with their stake and what they can
claim, and the errors of the program. An error carries the text the
program logs before returning it (the empty text where it logs none). A
panic of the build (overflow checks, an `unwrap`), an account that Anchor
rejects and an operation that the token program rejects abort the
transaction in the same way and have a constructor each. Debug assertions
are not part of the deployed program and are left out.
-/

namespace SolanaAmm.Farming

open Result

inductive FarmingError
  | mathOverflow
  | invalidAccountInput (log : String)
  | invariantViolation (log : String)
  | invalidArg (log : String)
  | farmAdminMismatch
  | insufficientSlotTimeSinceLastSnapshot
  | unknownHarvestMintPubKey
  | configurationUpdateLimitExceeded (log : String)
  | cannotCompoundIfStakeMintIsNotHarvest
  | cannotOverwriteOpenHarvestPeriod (log : String)
  | harvestPeriodCannotHaveNegativeLength (log : String)
  | harvestPeriodMustStartAtOrAfterCurrentSlot (log : String)
  | harvestPeriodMustBeAtLeastOneSlot (log : String)
  | panicked
  | anchor
  | tokenProgram
deriving DecidableEq

instance : DecimalError FarmingError := ⟨.mathOverflow⟩

/-- `err::acc`: log a message and fail with `FarmingError::InvalidAccountInput`. -/
def acc (msg : String) : FarmingError :=
  .invalidAccountInput ("[InvalidAccountInput] " ++ msg)

/-- `err::arg`: log a message and fail with `FarmingError::InvalidArg`. -/
def arg (msg : String) : FarmingError :=
  .invalidArg ("[InvalidArg] " ++ msg)

/-- Plain `+ 1` on a slot: overflow checks are on. -/
def Slot.succ (slot : Slot) : Except FarmingError Slot :=
  okOr (slot.checkedAdd 1) .panicked

/-- Plain `- 1` on a slot. -/
def Slot.pred (slot : Slot) : Except FarmingError Slot :=
  okOr (slot.checkedSub 1) .panicked

theorem Slot.succ_eq_ok {slot slot' : Slot} :
    Slot.succ slot = .ok slot' ↔ slot'.val = slot.val + 1 := by
  rw [Slot.succ, okOr_eq_ok, Word.checkedAdd_eq_some]
  exact Iff.rfl

theorem Slot.pred_eq_ok {slot slot' : Slot} :
    Slot.pred slot = .ok slot' ↔ 1 ≤ slot.val ∧ slot'.val = slot.val - 1 := by
  rw [Slot.pred, okOr_eq_ok, Word.checkedSub_eq_some]
  exact Iff.rfl

/-! ## consts.rs -/

abbrev MAX_HARVEST_MINTS : ℕ := 10

abbrev HARVEST_PERIODS_LEN : ℕ := 10

abbrev SNAPSHOTS_LEN : ℕ := 1000

def MIN_SNAPSHOT_WINDOW_SLOTS : Slot := 7200

/-! ## Addresses -/

/-- Where an account lives, or who signs: a public key, or an address that
the program derives from seeds. Derived addresses are kept symbolic: those
of different seeds differ, and none of them is anybody's key. -/
inductive Address
  | key (key : Pubkey)
  | farmSigner (farm : Pubkey)
  | stakeVault (farm : Pubkey)
  | harvestVault (farm mint : Pubkey)
deriving DecidableEq

instance : Inhabited Address := ⟨.key default⟩

/-! ## Farms -/

structure HarvestPeriod where
  tps : TokenAmount
  startsAt : Slot
  /-- Inclusive. -/
  endsAt : Slot
deriving DecidableEq

instance : Inhabited HarvestPeriod := ⟨⟨0, 0, 0⟩⟩

/-- A harvest of the default mint is not initialised. -/
structure Harvest where
  mint : Pubkey
  vault : Address
  /-- The latest comes first. -/
  periods : List.Vector HarvestPeriod HARVEST_PERIODS_LEN
deriving DecidableEq

instance : Inhabited Harvest := ⟨⟨default, default, .replicate _ default⟩⟩

theorem Harvest.periods_eq_cons (h : Harvest) :
    h.periods.toList = h.periods.head :: h.periods.toList.tail := by
  rw [← List.Vector.cons_head_tail h.periods]
  rfl

/-- The start of a snapshot window and the tokens that were staked then. -/
structure Snapshot where
  staked : TokenAmount
  startedAt : Slot
deriving DecidableEq

instance : Inhabited Snapshot := ⟨⟨0, 0⟩⟩

abbrev Snapshots := RingBuffer Snapshot SNAPSHOTS_LEN

instance : Inhabited Snapshots := ⟨.filled default (by decide)⟩

structure Farm where
  admin : Pubkey
  stakeMint : Pubkey
  stakeVault : Address
  /-- The ten harvest slots. -/
  harvests : List Harvest
  snapshots : Snapshots
  /-- Zero stands for the default window. -/
  minSnapshotWindowSlots : U64

instance : Inhabited Farm :=
  ⟨⟨default, default, default, List.replicate MAX_HARVEST_MINTS default, default, 0⟩⟩

/-! ## Farmers -/

structure AvailableHarvest where
  mint : Pubkey
  tokens : TokenAmount
deriving DecidableEq

instance : Inhabited AvailableHarvest := ⟨⟨default, 0⟩⟩

structure Farmer where
  authority : Pubkey
  farm : Pubkey
  /-- What earns harvest. -/
  staked : TokenAmount
  /-- What starts earning with the next snapshot. -/
  vested : TokenAmount
  vestedAt : Slot
  /-- Inclusive. -/
  calculateNextHarvestFrom : Slot
  /-- The ten slots of what can be claimed. -/
  harvests : List AvailableHarvest
deriving DecidableEq

instance : Inhabited Farmer :=
  ⟨⟨default, default, 0, 0, 0, 0, List.replicate MAX_HARVEST_MINTS default⟩⟩

end SolanaAmm.Farming
