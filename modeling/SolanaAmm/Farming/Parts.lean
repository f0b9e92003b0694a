import SolanaAmm.Farming.Earnings
import SolanaAmm.Farming.Splitting
import SolanaAmm.Farming.Wealth

/-!
# Farming — Parts

A stake in parts. In every window a farmer gets the share of their stake,
truncated to 18 decimals, in what is released, rounded down once more. Both
roundings lose less on one stake than on its parts, so whoever divides
their stake among several farmers never earns more than one farmer would
with all of it.
-/

namespace SolanaAmm.Farming

open Result Decimal Machine

variable {env : Env} {s : FarmingState} {farm : Farm} {F m : Pubkey} {til : Slot}
  {rate : ℕ → ℕ} {since stop a b c : ℕ} {w : Snapshot} {ws : List Snapshot}

/-! ## Two parts -/

theorem share_add_le : share w a + share w b ≤ share w (a + b) := by
  unfold share
  rw [Nat.add_mul]
  exact Nat.div_add_div_le_add_div

theorem windowTokens_add_le {x y z start : ℕ} (h : x + y ≤ z) :
    windowTokens rate x start stop + windowTokens rate y start stop
      ≤ windowTokens rate z start stop := by
  unfold windowTokens
  refine Nat.div_add_div_le_add_div.trans (Nat.div_le_div_right ?_)
  rw [← Nat.add_mul]
  exact Nat.mul_le_mul_right _ h

theorem snapshotTokens_add_le (h : a + b ≤ c) :
    snapshotTokens rate since a stop w + snapshotTokens rate since b stop w
      ≤ snapshotTokens rate since c stop w := by
  unfold snapshotTokens
  split
  · exact windowTokens_add_le (share_add_le.trans (share_mono h))
  · exact Nat.le_refl _

theorem creditIn_add_le (h : a + b ≤ c) :
    creditIn rate since a stop ws + creditIn rate since b stop ws
      ≤ creditIn rate since c stop ws := by
  induction ws generalizing stop with
  | nil => exact Nat.le_refl _
  | cons w ws ih =>
      have hw : snapshotTokens rate since a stop w + snapshotTokens rate since b stop w
          ≤ snapshotTokens rate since c stop w := snapshotTokens_add_le h
      have hws := @ih (min stop w.startedAt.val)
      simp only [creditIn]
      omega

theorem Farm.gain_add_le (h : a + b ≤ c) :
    farm.gain since a stop m + farm.gain since b stop m ≤ farm.gain since c stop m := by
  unfold Farm.gain
  split
  · exact Nat.le_refl _
  · cases farm.harvestsMap[m]? with
    | none => exact Nat.le_refl _
    | some h' => exact creditIn_add_le h

/-! ## Any number of parts -/

/-- What a check up to a slot gains a farmer without vested tokens. -/
def Farmer.gains (farm : Farm) (til : Slot) (m : Pubkey) (f : Farmer) : ℕ :=
  if f.calculateNextHarvestFrom < til then
    farm.gain f.calculateNextHarvestFrom.val f.staked.val (til.val + 1) m
  else 0

theorem Farmer.check_gains {f f' : Farmer} (hfarm : farm.WellKept) (hv : f.vested = 0)
    (hm : m ≠ default) (hc : farm.harvestsMap.contains m = true)
    (h : f.checkVestedPeriodAndUpdateHarvest farm til = .ok f') :
    tokensOf f'.harvestsMap m = tokensOf f.harvestsMap m + f.gains farm til m := by
  rw [check_of_not_vested hv] at h
  unfold gains
  split
  · rename_i hlt
    obtain ⟨hfits, rfl⟩ := (updateEligibleHarvest_eq_ok hfarm hlt).mp h
    rw [tokensOf_updated hfarm hfits hc, if_neg (fun h => hm h.1)]
    rfl
  · rename_i hle
    rw [updateEligibleHarvest, if_pos (not_lt.mp hle), pure_eq_ok] at h
    rw [h, Nat.add_zero]

theorem checks_gains {parts parts' : List Farmer} (hfarm : farm.WellKept)
    (hv : ∀ f ∈ parts, f.vested = 0) (hm : m ≠ default) (hc : farm.harvestsMap.contains m = true)
    (h : List.Forall₂ (fun f f' => f.checkVestedPeriodAndUpdateHarvest farm til = .ok f')
      parts parts') :
    (parts'.map (fun f => tokensOf f.harvestsMap m)).sum
      = (parts.map (fun f => tokensOf f.harvestsMap m)).sum
        + (parts.map (Farmer.gains farm til m)).sum := by
  induction h with
  | nil => rfl
  | @cons f f' parts parts' hf _ ih =>
      have hfirst := Farmer.check_gains hfarm (hv f List.mem_cons_self) hm hc hf
      have hrest := ih (fun f hf => hv f (List.mem_cons_of_mem _ hf))
      simp only [List.map_cons, List.sum_cons]
      omega

/-- Farmers who are credited from the same slot on gain no more together
than a farmer who stakes as much. -/
theorem gains_parts_le {cursor : Slot} {parts : List Farmer}
    (hcursor : ∀ f ∈ parts, f.calculateNextHarvestFrom = cursor)
    (h : (parts.map (·.staked.val)).sum ≤ c) :
    (parts.map (Farmer.gains farm til m)).sum
      ≤ if cursor < til then farm.gain cursor.val c (til.val + 1) m else 0 := by
  induction parts generalizing c with
  | nil => exact Nat.zero_le _
  | cons f parts ih =>
      obtain rfl := hcursor f List.mem_cons_self
      rw [List.map_cons, List.sum_cons] at h ⊢
      have hrest := ih (fun f hf => hcursor f (List.mem_cons_of_mem _ hf)) (Nat.le_refl _)
      rw [Farmer.gains]
      split
      · rename_i hlt
        rw [if_pos hlt] at hrest
        exact (Nat.add_le_add_left hrest _).trans (Farm.gain_add_le h)
      · rename_i hle
        rw [if_neg hle] at hrest
        rwa [Nat.zero_add]

/-- **A stake in parts** does not earn more. For every farm that the program
can reach: farmers without vested tokens, who are credited from the same
slot on and together stake no more than another one, gain no more of any
mint in a check up to the same slot, all together, than that one does. -/
theorem stake_in_parts (hp : env.tokenProgram.Lawful) (hg : Genesis s) (is : List Instr)
    (hfarm : (run (step env) s is).farms.lookup F = some farm) (hlists : farm.Lists m)
    {whole whole' : Farmer} {parts parts' : List Farmer} {cursor : Slot}
    (hall : ∀ f ∈ whole :: parts, f.vested = 0 ∧ f.calculateNextHarvestFrom = cursor)
    (hstake : (parts.map (·.staked.val)).sum ≤ whole.staked.val)
    (hwhole : whole.checkVestedPeriodAndUpdateHarvest farm til = .ok whole')
    (hparts : List.Forall₂ (fun f f' => f.checkVestedPeriodAndUpdateHarvest farm til = .ok f')
      parts parts') :
    (parts'.map (fun f => tokensOf f.harvestsMap m)).sum + tokensOf whole.harvestsMap m
      ≤ tokensOf whole'.harvestsMap m + (parts.map (fun f => tokensOf f.harvestsMap m)).sum := by
  have hkept := run_wellKept hp hg is hfarm
  obtain ⟨hm, hlisted⟩ := hlists
  have hc : farm.harvestsMap.contains m = true := Farm.contains_harvestsMap.mpr hlisted
  have hrest : ∀ f ∈ parts, f.vested = 0 ∧ f.calculateNextHarvestFrom = cursor :=
    fun f hf => hall f (List.mem_cons_of_mem _ hf)
  obtain ⟨hv, rfl⟩ := hall whole List.mem_cons_self
  have hone := Farmer.check_gains hkept hv hm hc hwhole
  have hmany := checks_gains hkept (fun f hf => (hrest f hf).1) hm hc hparts
  have hle : (parts.map (Farmer.gains farm til m)).sum ≤ whole.gains farm til m :=
    gains_parts_le (fun f hf => (hrest f hf).2) hstake
  omega

/-- All that two farmers stake, who get half a token a slot each. -/
def wholeFarmer : Farmer := { halfFarmer with staked := 100 }

/-- In seven slots two halves gain three tokens each, and the whole seven. -/
theorem stake_in_parts_halves :
    ∃ whole half, wholeFarmer.checkVestedPeriodAndUpdateHarvest halfFarm 18 = .ok whole
      ∧ halfFarmer.checkVestedPeriodAndUpdateHarvest halfFarm 18 = .ok half
      ∧ tokensOf half.harvestsMap 200 + tokensOf half.harvestsMap 200
        ≤ tokensOf whole.harvestsMap 200
      ∧ tokensOf half.harvestsMap 200 = 3 ∧ tokensOf whole.harvestsMap 200 = 7 := by
  have hkept : ((run (step sampleEnv) sampleGenesis halfATokenASlot).farms.lookup 1).isSome
      = true := by decide +kernel
  have hfarm : (run (step sampleEnv) sampleGenesis halfATokenASlot).farms.lookup 1
      = some halfFarm := by
    rw [halfFarm, ← Option.get_eq_getD (h := hkept), Option.some_get]
  have hwhole : (wholeFarmer.checkVestedPeriodAndUpdateHarvest halfFarm 18).toOption.map
      (fun f => tokensOf f.harvestsMap 200) = some 7 := by decide +kernel
  have hhalf : (halfFarmer.checkVestedPeriodAndUpdateHarvest halfFarm 18).toOption.map
      (fun f => tokensOf f.harvestsMap 200) = some 3 := by decide +kernel
  have hnone : tokensOf halfFarmer.harvestsMap 200 = 0
      ∧ tokensOf wholeFarmer.harvestsMap 200 = 0 := by decide +kernel
  cases hw : wholeFarmer.checkVestedPeriodAndUpdateHarvest halfFarm 18 with
  | error e =>
      rw [hw] at hwhole
      cases hwhole
  | ok whole =>
      cases hh : halfFarmer.checkVestedPeriodAndUpdateHarvest halfFarm 18 with
      | error e =>
          rw [hh] at hhalf
          cases hhalf
      | ok half =>
          rw [hw] at hwhole
          rw [hh] at hhalf
          have hall : ∀ f ∈ [wholeFarmer, halfFarmer, halfFarmer],
              f.vested = 0 ∧ f.calculateNextHarvestFrom = 12 := by decide +kernel
          have hle := stake_in_parts (m := 200) Token.Reference.lawful sampleGenesis_genesis
            halfATokenASlot hfarm (by decide +kernel) hall (by decide +kernel) hw
            (.cons hh (.cons hh .nil))
          simp only [List.map_cons, List.map_nil, List.sum_cons, List.sum_nil, hnone.1, hnone.2]
            at hle
          refine ⟨whole, half, rfl, rfl, by omega, ?_, ?_⟩
          · exact Option.some.inj hhalf
          · exact Option.some.inj hwhole

end SolanaAmm.Farming
