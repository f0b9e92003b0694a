import SolanaAmm.Farming.Harvesting

/-!
# Farming — Earnings

What is still to be credited, slot by slot. The stake that a farmer will
be credited with for a slot (`stakeAt`) follows from their account and the
farm's snapshots. A check takes from it exactly what it credits, nothing
else adds to it, and the shares of all farmers in a slot stay within one.
-/

namespace SolanaAmm.Farming

open Result

variable {env : Env} {s s₁ s' : FarmingState} {act : Act} {F : Pubkey} {k : FarmerKey}
  {now til : Slot} {farm farm' : Farm} {ws : List Snapshot} {w S : Snapshot} {t : ℕ}

/-! ## Shares -/

theorem share_mono {a b : ℕ} (h : a ≤ b) : share w a ≤ share w b := by
  unfold share
  exact Nat.div_le_div_right (Nat.mul_le_mul_right wad h)

theorem shareAt_mono {a b : ℕ} (h : a ≤ b) : shareAt ws a t ≤ shareAt ws b t := by
  unfold shareAt
  cases ws.find? (fun w => w.startedAt.val ≤ t) with
  | none => exact Nat.zero_le _
  | some w => exact share_mono h

@[simp] theorem shareAt_zero : shareAt ws 0 t = 0 := by
  unfold shareAt
  cases ws.find? (fun w => w.startedAt.val ≤ t) with
  | none => rfl
  | some w =>
      show share w 0 = 0
      rw [share, Nat.zero_mul, Nat.zero_div]

/-- What the credited periods count a slot with. -/
def creditAt (ws : List Snapshot) (t : ℕ) (cs : List Credit) : ℕ :=
  (cs.map (fun c => if c.since ≤ t ∧ t < c.stop then shareAt ws c.stake t else 0)).sum

theorem creditAt_cons {c : Credit} {cs : List Credit} : creditAt ws t (c :: cs)
    = (if c.since ≤ t ∧ t < c.stop then shareAt ws c.stake t else 0) + creditAt ws t cs :=
  List.sum_cons

namespace Farmer

variable {f f₁ f' : Farmer}

/-! ## The stake to come -/

/-- The staked tokens count from the cursor on. -/
def stakeFrom (f : Farmer) (t : ℕ) : ℕ :=
  if f.calculateNextHarvestFrom.val ≤ t then f.staked.val else 0

/-- The stake that the farmer will be credited with for a slot: tokens that
are ripe count from their snapshot on, whatever the cursor. -/
def stakeAt (farm : Farm) (t : ℕ) (f : Farmer) : ℕ :=
  match f.matureSnapshot farm with
  | some S => if S.startedAt.val ≤ t then f.deposited else f.stakeFrom t
  | none => f.stakeFrom t

theorem stakeFrom_le : f.stakeFrom t ≤ f.staked.val := by
  unfold stakeFrom
  split
  · exact Nat.le_refl _
  · exact Nat.zero_le _

theorem stakeAt_of_some (hS : f.matureSnapshot farm = some S) :
    f.stakeAt farm t = if S.startedAt.val ≤ t then f.deposited else f.stakeFrom t := by
  unfold stakeAt
  rw [hS]

theorem stakeAt_of_none (hnone : f.matureSnapshot farm = none) :
    f.stakeAt farm t = f.stakeFrom t := by
  unfold stakeAt
  rw [hnone]

theorem stakeFrom_le_stakeAt : f.stakeFrom t ≤ f.stakeAt farm t := by
  cases hS : f.matureSnapshot farm with
  | some S =>
      rw [stakeAt_of_some hS]
      split
      · exact stakeFrom_le.trans staked_le_deposited
      · exact Nat.le_refl _
  | none => exact (stakeAt_of_none hS).ge

theorem stakeAt_le_deposited : f.stakeAt farm t ≤ f.deposited := by
  have hfrom : f.stakeFrom t ≤ f.deposited := stakeFrom_le.trans staked_le_deposited
  cases hS : f.matureSnapshot farm with
  | some S =>
      rw [stakeAt_of_some hS]
      split
      · exact Nat.le_refl _
      · exact hfrom
  | none => rwa [stakeAt_of_none hS]

/-- It grows with the staked tokens, and with the deposit if the same
snapshot made it ripe. -/
theorem stakeAt_mono (hc : f'.calculateNextHarvestFrom = f.calculateNextHarvestFrom)
    (hs : f'.staked.val ≤ f.staked.val)
    (hS : ∀ S, f'.matureSnapshot farm' = some S → S.startedAt.val ≤ t →
      f.matureSnapshot farm = some S ∧ f'.deposited ≤ f.deposited) :
    f'.stakeAt farm' t ≤ f.stakeAt farm t := by
  have hfrom : f'.stakeFrom t ≤ f.stakeFrom t := by
    unfold stakeFrom
    rw [hc]
    split
    · exact hs
    · exact Nat.le_refl _
  cases hS' : f'.matureSnapshot farm' with
  | none =>
      rw [stakeAt_of_none hS']
      exact hfrom.trans stakeFrom_le_stakeAt
  | some S =>
      rw [stakeAt_of_some hS']
      split
      · rename_i hle
        obtain ⟨hsame, hd⟩ := hS S hS' hle
        rw [stakeAt_of_some hsame, if_pos hle]
        exact hd
      · exact hfrom.trans stakeFrom_le_stakeAt

/-- Ripeness depends on the vested tokens alone. -/
theorem matureSnapshot_congr (hv : f'.vested = f.vested) (hat : f'.vestedAt = f.vestedAt) :
    f'.matureSnapshot farm = f.matureSnapshot farm := by
  unfold matureSnapshot
  rw [hv, hat]

/-! ## A check -/

/-- An update with one stake. -/
theorem shareAt_add_creditsUntil (ws : List Snapshot) (t : ℕ) {cursor : Slot} {next : ℕ}
    (stake : ℕ)
    (hnext : next = if til ≤ cursor then cursor.val else til.val + 1) :
    shareAt ws (if next ≤ t then stake else 0) t + creditAt ws t (creditsUntil cursor til stake)
      = shareAt ws (if cursor.val ≤ t then stake else 0) t := by
  unfold creditsUntil
  split at hnext
  · rename_i hle
    rw [if_pos hle, hnext]
    exact Nat.add_zero _
  · rename_i hlt
    rw [if_neg hlt, creditAt_cons, show creditAt ws t [] = 0 from rfl, Nat.add_zero]
    dsimp only
    rw [Word.le_def, not_le] at hlt
    rcases Nat.lt_or_ge t cursor.val with ht | ht
    · rw [if_neg (by omega), if_neg (by omega), if_neg (by omega), Nat.add_zero]
    · rcases Nat.lt_or_ge t (til.val + 1) with htil | htil
      · rw [if_neg (by omega), if_pos ⟨ht, htil⟩, if_pos ht, shareAt_zero, Nat.zero_add]
      · rw [if_pos (by omega), if_neg (by omega), if_pos ht, Nat.add_zero]

/-- **A check** takes from the stake to come what it credits. -/
theorem check_stakeAt (ws : List Snapshot) (t : ℕ)
    (h : f.checkVestedPeriodAndUpdateHarvest farm til = .ok f') :
    shareAt ws (f'.stakeAt farm t) t + creditAt ws t (f.credits farm til)
      = shareAt ws (f.stakeAt farm t) t := by
  obtain ⟨f₁, hm, hu⟩ := check_eq_ok.mp h
  have hu := updateEligibleHarvest_ok hu
  have hupdate := shareAt_add_creditsUntil ws t f₁.staked.val hu.cursor
  unfold credits
  rcases hm.cases with ⟨S, hS, hm⟩ | ⟨hnone, rfl⟩
  · -- the vested tokens matured: none are left
    have hnone : f'.matureSnapshot farm = none :=
      matureSnapshot_eq_none.mpr (.inl (hu.vested.trans hm.vested))
    rw [hm.cursor, hm.staked] at hupdate
    rw [stakeAt_of_none hnone, stakeAt_of_some hS, hS, stakeFrom, hu.staked, hm.staked]
    dsimp only
    rw [creditAt_cons, Nat.add_left_comm, hupdate, stakeFrom]
    rcases Nat.lt_or_ge t S.startedAt.val with ht | ht
    · rw [if_neg (not_le.mpr ht), if_neg (not_le.mpr ht), shareAt_zero, Nat.add_zero]
      by_cases hcur : f.calculateNextHarvestFrom.val ≤ t
      · rw [if_pos ⟨hcur, ht⟩, if_pos hcur]
      · rw [if_neg (fun h => hcur h.1), if_neg hcur, shareAt_zero]
    · rw [if_neg (fun h => absurd h.2 (not_lt.mpr ht)), if_pos ht, if_pos ht, Nat.zero_add]
  · have hnone' : f'.matureSnapshot farm = none :=
      (matureSnapshot_congr hu.vested hu.vestedAt).trans hnone
    rw [stakeAt_of_none hnone', stakeAt_of_none hnone, hnone, stakeFrom, hu.staked, stakeFrom]
    exact hupdate

/-! ## A snapshot -/

/-- The next snapshot makes tokens ripe for its own window at most. -/
theorem firstSnapshotAfter_of_snapped {staked : TokenAmount} {slot : Slot}
    (hsnap : Farm.Snapped farm farm' now staked) (h : farm'.firstSnapshotAfter slot = some S) :
    S.startedAt = now ∨ farm.firstSnapshotAfter slot = some S := by
  obtain ⟨newer, w, older, hl, hnewer, hS, hw⟩ := Farm.firstSnapshotAfter_eq_some.mp h
  rw [hsnap.windows] at hl
  cases newer with
  | nil =>
      rw [List.nil_append] at hl
      rw [← (List.cons.inj hl).1]
      exact .inl rfl
  | cons n newer =>
      obtain ⟨oldest, hold⟩ := Farm.windows_of_dropLast (List.cons.inj hl).2
      exact .inr (Farm.firstSnapshotAfter_eq_some.mpr ⟨newer, w, older ++ [oldest], hold,
        fun s hs => hnewer s (List.mem_cons_of_mem _ hs), hS, hw⟩)

/-- **A snapshot** changes nothing for the slots before it. -/
theorem snapped_stakeAt_le {staked : TokenAmount} (hsnap : Farm.Snapped farm farm' now staked)
    (ht : t < now.val) : f.stakeAt farm' t ≤ f.stakeAt farm t := by
  refine stakeAt_mono rfl (Nat.le_refl _) (fun S hS hle => ⟨?_, Nat.le_refl _⟩)
  obtain ⟨hv, hfirst⟩ := matureSnapshot_eq_some.mp hS
  rcases firstSnapshotAfter_of_snapped hsnap hfirst with hnow | hold
  · rw [hnow] at hle
    omega
  · exact matureSnapshot_eq_some.mpr ⟨hv, hold⟩

/-! ## The claim on the window -/

/-- It is within the farmer's claim on the window of the slot. -/
theorem stakeAt_le_claimOn {newer older : List Snapshot}
    (hchron : Farm.Chronological farm.windows) (hw : farm.windows = newer ++ w :: older)
    (hnewer : ∀ n ∈ newer, t < n.startedAt.val) : f.stakeAt farm t ≤ f.claimOn newer w := by
  have hfrom : f.stakeFrom t ≤ f.claimOn newer w := by
    unfold stakeFrom
    split
    · rename_i hcur
      have hr : f.Reaches newer := fun n hn => Nat.lt_of_le_of_lt hcur (hnewer n hn)
      rw [claimOn, if_pos hr]
      split
      · exact staked_le_deposited
      · exact Nat.le_refl _
    · exact Nat.zero_le _
  cases hS : f.matureSnapshot farm with
  | none =>
      rw [stakeAt_of_none hS]
      exact hfrom
  | some S =>
      rw [stakeAt_of_some hS]
      split
      · rename_i hSt
        -- the snapshot is that of the window or an older one
        obtain ⟨hv, hfirst⟩ := matureSnapshot_eq_some.mp hS
        have hSw : S.startedAt ≤ w.startedAt :=
          hchron.le_window hw (Farm.firstSnapshotAfter_mem hfirst) hSt hnewer
        rw [claimOn, if_pos ⟨hv, (Farm.firstSnapshotAfter_lt hfirst).trans_le hSw⟩]
      · exact hfrom

end Farmer

/-! ## All farmers -/

/-- An act adds to nobody's stake in the windows there are. -/
theorem FarmerMoves.stakeAt_le {o o' : Option Farmer} (hm : FarmerMoves act now k o o')
    (hlatest : farm.latestSnapshot.startedAt ≤ now) :
    o'.elim 0 (Farmer.stakeAt farm t) ≤ o.elim 0 (Farmer.stakeAt farm t) := by
  cases hm with
  | absent => exact Nat.le_refl _
  | created hfresh => exact Farmer.stakeAt_le_deposited.trans hfresh.deposited.le
  | closed _ => exact Nat.zero_le _
  | kept same _ =>
      refine Farmer.stakeAt_mono same.cursor same.staked.le (fun S hS _ => ⟨?_, same.deposited.le⟩)
      rwa [Farmer.matureSnapshot_congr same.vested same.vestedAt] at hS
  | staked _ same hstaked =>
      refine Farmer.stakeAt_mono (hstaked.cursor.trans same.cursor)
        (hstaked.staked.trans same.staked).le (fun S hS _ => ?_)
      have hnone := Farm.firstSnapshotAfter_eq_none.mpr (.inl hlatest)
      rw [Farmer.matureSnapshot_eq_some, hstaked.vestedAt, hnone] at hS
      cases hS.2
  | @unstaked f f' _ _ hun _ =>
      refine Farmer.stakeAt_mono hun.cursor hun.staked_le
        (fun S hS _ => ⟨?_, Nat.le.intro hun.deposited⟩)
      obtain ⟨hv, hfirst⟩ := Farmer.matureSnapshot_eq_some.mp hS
      rw [hun.vestedAt] at hfirst
      refine Farmer.matureSnapshot_eq_some.mpr ⟨fun h0 => hv ?_, hfirst⟩
      have hle := hun.vested_le
      rw [h0, Word.val_zero] at hle
      exact Word.val_eq_zero.mp (Nat.le_zero.mp hle)

/-- The shares of all farmers in a slot that are still to be credited. -/
def FarmingState.earned (s : FarmingState) (F : Pubkey) (farm : Farm) (t : ℕ) : ℕ :=
  s.sumOf F (fun f => shareAt farm.windows (f.stakeAt farm t) t)

/-- **The shares in a slot** add up to at most one. -/
theorem Covered.earned_le (hc : Covered s F farm) : s.earned F farm t ≤ wad := by
  unfold FarmingState.earned shareAt
  cases hfind : farm.windows.find? (fun w => w.startedAt.val ≤ t) with
  | none =>
      refine (sumOf_le (s := s) (g := fun _ => 0) (fun k _ => ?_)).trans ?_
      · cases s.farmers.lookup k <;> exact Nat.le_refl _
      · refine (Nat.le_of_eq ?_).trans (Nat.zero_le _)
        exact List.sum_eq_zero (fun x hx => by
          obtain ⟨e, -, rfl⟩ := List.mem_map.mp hx
          exact ite_self _)
  | some w =>
      obtain ⟨hle, newer, older, hw, hnewer⟩ := List.find?_eq_some_iff_append.mp hfind
      have hclaims : s.sumOf F (Farmer.stakeAt farm t) ≤ w.staked.val := by
        refine (sumOf_le (fun k _ => ?_)).trans (hc.covered newer w older hw)
        cases s.farmers.lookup k with
        | none => exact Nat.le_refl _
        | some f =>
            exact Farmer.stakeAt_le_claimOn hc.chronological hw
              (fun n hn => by simpa using hnewer n hn)
      exact (sumOf_mul_div_le (s := s) (g := Farmer.stakeAt farm t)).trans
        (Nat.div_le_of_le_mul (Nat.mul_le_mul_right _ hclaims))

end SolanaAmm.Farming
