import SolanaAmm.Farming.Snapshots
import SolanaAmm.Farming.Farmer

/-!
# Farming — Stakes

What each method of a farmer does to the farmer's stake: depositing adds
to the vested tokens and stamps them with the current slot, unstaking
takes from the vested tokens first, and crediting the harvest moves the
vested tokens over to the staked ones, once a snapshot came after them,
and the cursor ahead.
-/

namespace SolanaAmm.Farming

open Result

namespace Farmer

variable {f f₁ f' : Farmer} {farm : Farm} {now til : Slot} {max n : TokenAmount} {m : Pubkey}
  {S : Snapshot}

/-- All tokens of the farmer in the stake vault. -/
def deposited (f : Farmer) : ℕ := f.staked.val + f.vested.val

/-- The tokens of a mint that are credited and not claimed. -/
def unclaimed (f : Farmer) (m : Pubkey) : ℕ :=
  ((f.harvests.filter (fun h => h.mint = m)).map (fun h => h.tokens.val)).sum

/-- Only what can be claimed differs. -/
structure SameStake (f f' : Farmer) : Prop where
  farm : f'.farm = f.farm
  staked : f'.staked = f.staked
  vested : f'.vested = f.vested
  vestedAt : f'.vestedAt = f.vestedAt
  cursor : f'.calculateNextHarvestFrom = f.calculateNextHarvestFrom

theorem SameStake.deposited (h : SameStake f f') : f'.deposited = f.deposited := by
  rw [Farmer.deposited, h.staked, h.vested]
  rfl

theorem sameStake_setHarvests (harvests : List (Pubkey × TokenAmount)) :
    SameStake f (f.setHarvests harvests) := ⟨rfl, rfl, rfl, rfl, rfl⟩

theorem sameStake_setHarvestTokens : SameStake f (f.setHarvestTokens m n) :=
  ⟨rfl, rfl, rfl, rfl, rfl⟩

/-! ## Depositing and unstaking -/

structure Staked (f f' : Farmer) (now : Slot) (n : TokenAmount) : Prop where
  farm : f'.farm = f.farm
  staked : f'.staked = f.staked
  vested : f'.vested.val = f.vested.val + n.val
  vestedAt : f'.vestedAt = now
  cursor : f'.calculateNextHarvestFrom = f.calculateNextHarvestFrom
  harvests : f'.harvests = f.harvests

theorem addToVested_ok (h : f.addToVested now n = .ok f') : Staked f f' now n := by
  simp only [addToVested, bind_eq_ok, okOr_eq_ok, Word.checkedAdd_eq_some, pure_eq_ok] at h
  obtain ⟨vested, hv, rfl⟩ := h
  exact ⟨rfl, rfl, hv, rfl, rfl, rfl⟩

theorem Staked.deposited (h : Staked f f' now n) : f'.deposited = f.deposited + n.val := by
  rw [Farmer.deposited, Farmer.deposited, h.staked, h.vested]
  omega

/-- `n` tokens were taken out, from the vested ones first. -/
structure Unstaked (f f' : Farmer) (max n : TokenAmount) : Prop where
  farm : f'.farm = f.farm
  paid : n.val = min max.val f.deposited
  staked : f'.staked.val + (n.val - f.vested.val) = f.staked.val
  vested : f'.vested.val = f.vested.val - n.val
  vestedAt : f'.vestedAt = f.vestedAt
  cursor : f'.calculateNextHarvestFrom = f.calculateNextHarvestFrom
  harvests : f'.harvests = f.harvests

theorem totalDeposited_eq_ok {total : TokenAmount} :
    f.totalDeposited = .ok total ↔ total.val = f.deposited := by
  rw [totalDeposited, okOr_eq_ok, Word.checkedAdd_eq_some]
  exact Iff.rfl

theorem unstake_ok (h : f.unstake max = .ok (f', n)) : Unstaked f f' max n := by
  unfold unstake at h
  split at h
  · -- the vested tokens cover the amount
    rename_i hle
    rw [Word.le_def] at hle
    simp only [bind_eq_ok, okOr_eq_ok, Word.checkedSub_eq_some, pure_eq_ok,
      Prod.mk.injEq] at h
    obtain ⟨vested, ⟨-, hv⟩, rfl, rfl⟩ := h
    refine ⟨rfl, ?_, ?_, hv, rfl, rfl, rfl⟩
    · rw [deposited]
      omega
    · show f.staked.val + (max.val - f.vested.val) = f.staked.val
      omega
  · rename_i hgt
    rw [Word.le_def, not_le] at hgt
    rw [bind_eq_ok] at h
    obtain ⟨total, htotal, h⟩ := h
    rw [totalDeposited_eq_ok] at htotal
    split at h
    · -- the rest comes from the staked tokens
      rename_i hlt
      rw [Word.lt_def, htotal] at hlt
      simp only [bind_eq_ok, okOr_eq_ok, Word.checkedSub_eq_some, pure_eq_ok,
        Prod.mk.injEq] at h
      obtain ⟨fromStaked, ⟨-, hfrom⟩, staked, ⟨hle, hs⟩, rfl, rfl⟩ := h
      refine ⟨rfl, (Nat.min_eq_left hlt.le).symm, ?_, ?_, rfl, rfl, rfl⟩
      · show staked.val + (max.val - f.vested.val) = f.staked.val
        omega
      · show (0 : TokenAmount).val = f.vested.val - max.val
        rw [Word.val_zero]
        omega
    · -- everything there is
      rename_i hge
      rw [Word.lt_def, htotal, not_lt] at hge
      simp only [pure_eq_ok, Prod.mk.injEq] at h
      obtain ⟨rfl, rfl⟩ := h
      refine ⟨rfl, by rw [htotal]; exact (Nat.min_eq_right hge).symm, ?_, ?_, rfl, rfl, rfl⟩
      · show (0 : TokenAmount).val + (total.val - f.vested.val) = f.staked.val
        rw [htotal, deposited, Word.val_zero]
        omega
      · show (0 : TokenAmount).val = f.vested.val - total.val
        rw [htotal, deposited, Word.val_zero]
        omega

/-- Unstaking fails only if what the farmer has deposited does not fit. -/
theorem unstake_isOk (hfits : f.deposited < 2 ^ 64) : ∃ f' n, f.unstake max = .ok (f', n) := by
  unfold unstake
  by_cases hle : max ≤ f.vested
  · rw [if_pos hle]
    obtain ⟨rest, hrest⟩ : ∃ rest, f.vested.checkedSub max = some rest :=
      ⟨⟨f.vested.val - max.val, by have := f.vested.isLt; omega⟩,
        Word.checkedSub_eq_some.mpr ⟨hle, rfl⟩⟩
    rw [hrest]
    exact ⟨_, _, rfl⟩
  · have htotal : f.totalDeposited = .ok ⟨f.deposited, hfits⟩ := totalDeposited_eq_ok.mpr rfl
    rw [if_neg hle, htotal, ok_bind]
    split
    · -- the rest comes from the staked tokens
      rename_i hlt
      have hlt : max.val < f.staked.val + f.vested.val := hlt
      rw [Word.le_def, not_le] at hle
      obtain ⟨fromStaked, hfrom⟩ : ∃ n, max.checkedSub f.vested = some n :=
        ⟨⟨max.val - f.vested.val, by have := max.isLt; omega⟩,
          Word.checkedSub_eq_some.mpr ⟨hle.le, rfl⟩⟩
      have hval := (Word.checkedSub_eq_some.mp hfrom).2
      obtain ⟨staked, hstaked⟩ : ∃ n, f.staked.checkedSub fromStaked = some n :=
        ⟨⟨f.staked.val - fromStaked.val, by have := f.staked.isLt; omega⟩,
          Word.checkedSub_eq_some.mpr ⟨by omega, rfl⟩⟩
      rw [okOr_eq_ok.mpr hfrom, ok_bind, okOr_eq_ok.mpr hstaked]
      exact ⟨_, _, rfl⟩
    · exact ⟨_, _, rfl⟩

theorem Unstaked.deposited (h : Unstaked f f' max n) : f'.deposited + n.val = f.deposited := by
  have hpaid := h.paid
  have hstaked := h.staked
  have hvested := h.vested
  unfold Farmer.deposited at *
  omega

theorem Unstaked.staked_le (h : Unstaked f f' max n) : f'.staked.val ≤ f.staked.val := by
  have := h.staked
  omega

theorem Unstaked.vested_le (h : Unstaked f f' max n) : f'.vested.val ≤ f.vested.val := by
  have := h.vested
  omega

/-- Staked tokens are only taken once no vested ones are left. -/
theorem Unstaked.staked_eq (h : Unstaked f f' max n) (hv : f'.vested.val ≠ 0) :
    f'.staked = f.staked := by
  have hs := h.staked
  have hvested := h.vested
  exact Word.ext (by omega)

/-! ## Crediting -/

/-- The stake stays and the cursor moves behind `til`, unless it is there
already. -/
structure Updated (f f' : Farmer) (til : Slot) : Prop where
  farm : f'.farm = f.farm
  staked : f'.staked = f.staked
  vested : f'.vested = f.vested
  vestedAt : f'.vestedAt = f.vestedAt
  cursor : f'.calculateNextHarvestFrom.val =
    if til ≤ f.calculateNextHarvestFrom then f.calculateNextHarvestFrom.val else til.val + 1

theorem updateEligibleHarvest_ok (h : f.updateEligibleHarvest farm til = .ok f') :
    Updated f f' til := by
  unfold updateEligibleHarvest at h
  split at h
  · rename_i hle
    rw [pure_eq_ok] at h
    subst h
    exact ⟨rfl, rfl, rfl, rfl, (if_pos hle).symm⟩
  · rename_i hgt
    simp only [bind_eq_ok, pure_eq_ok, Slot.succ_eq_ok] at h
    obtain ⟨_, -, next, hnext, rfl⟩ := h
    exact ⟨rfl, rfl, rfl, rfl, hnext.trans (if_neg hgt).symm⟩

theorem Updated.deposited (h : Updated f f' til) : f'.deposited = f.deposited := by
  rw [Farmer.deposited, h.staked, h.vested]
  rfl

theorem Updated.cursor_le (h : Updated f f' til) :
    f.calculateNextHarvestFrom.val ≤ f'.calculateNextHarvestFrom.val := by
  rw [h.cursor]
  split
  · exact Nat.le_refl _
  · rename_i hgt
    rw [Word.le_def, not_le] at hgt
    omega

/-- The vested tokens count as staked from the snapshot on. -/
structure Matured (f f' : Farmer) (S : Snapshot) : Prop where
  farm : f'.farm = f.farm
  staked : f'.staked.val = f.deposited
  vested : f'.vested = 0
  vestedAt : f'.vestedAt = f.vestedAt
  cursor : f'.calculateNextHarvestFrom = S.startedAt

theorem stakeVestedFrom_ok (h : f.stakeVestedFrom farm S = .ok f') : Matured f f' S := by
  simp only [stakeVestedFrom, bind_eq_ok, okOr_eq_ok, Word.checkedAdd_eq_some, pure_eq_ok] at h
  obtain ⟨_, -, _, -, staked, hs, rfl⟩ := h
  exact ⟨rfl, hs, rfl, rfl, rfl⟩

theorem Matured.deposited (h : Matured f f' S) : f'.deposited = f.deposited := by
  rw [Farmer.deposited, h.staked, h.vested, Word.val_zero]
  rfl

/-- What maturing comes first, if anything. -/
def MaturedIf (f f' : Farmer) (farm : Farm) : Prop :=
  match f.matureSnapshot farm with
  | some S => f.stakeVestedFrom farm S = .ok f'
  | none => f' = f

/-- A check matures what is ripe and then credits up to `til`. -/
theorem check_eq_ok :
    f.checkVestedPeriodAndUpdateHarvest farm til = .ok f' ↔
      ∃ f₁, MaturedIf f f₁ farm ∧ f₁.updateEligibleHarvest farm til = .ok f' := by
  unfold checkVestedPeriodAndUpdateHarvest MaturedIf
  cases f.matureSnapshot farm with
  | some S => exact bind_eq_ok
  | none =>
      refine bind_eq_ok.trans (exists_congr (fun _ => and_congr_left' ?_))
      rw [pure_eq_ok]
      exact eq_comm

theorem matureSnapshot_eq_some :
    f.matureSnapshot farm = some S ↔
      f.vested ≠ 0 ∧ farm.firstSnapshotAfter f.vestedAt = some S := by
  unfold matureSnapshot
  split
  · rename_i hv
    exact (and_iff_right hv).symm
  · rename_i hv
    simp [hv]

theorem matureSnapshot_eq_none :
    f.matureSnapshot farm = none ↔
      f.vested = 0 ∨ farm.firstSnapshotAfter f.vestedAt = none := by
  unfold matureSnapshot
  split
  · rename_i hv
    exact (or_iff_right hv).symm
  · rename_i hv
    exact iff_of_true rfl (.inl (not_not.mp hv))

theorem MaturedIf.cases (h : MaturedIf f f₁ farm) :
    (∃ S, f.matureSnapshot farm = some S ∧ Matured f f₁ S)
      ∨ f.matureSnapshot farm = none ∧ f₁ = f := by
  unfold MaturedIf at h
  cases hS : f.matureSnapshot farm with
  | some S =>
      rw [hS] at h
      exact .inl ⟨S, rfl, stakeVestedFrom_ok h⟩
  | none =>
      rw [hS] at h
      exact .inr ⟨rfl, h⟩

/-- **The check** leaves the farmer's deposit and their farm alone. -/
theorem check_deposited (h : f.checkVestedPeriodAndUpdateHarvest farm til = .ok f') :
    f'.deposited = f.deposited ∧ f'.farm = f.farm := by
  obtain ⟨f₁, hm, hu⟩ := check_eq_ok.mp h
  have hu := updateEligibleHarvest_ok hu
  rcases hm.cases with ⟨S, -, hm⟩ | ⟨-, rfl⟩
  · exact ⟨hu.deposited.trans hm.deposited, hu.farm.trans hm.farm⟩
  · exact ⟨hu.deposited, hu.farm⟩

end Farmer

end SolanaAmm.Farming
