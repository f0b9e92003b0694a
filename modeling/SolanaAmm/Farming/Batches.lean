import SolanaAmm.Farming.Outcomes

/-!
# Farming — Batches

Bots update farmers for everybody, several of them in one slot and in no
agreed order. A check up to the current slot changes nothing when it is
made again, so what a batch of updates leaves depends only on the farmers
it names, and an instruction that checks a farmer itself does the same
whether bots were faster or not.
-/

namespace SolanaAmm.Farming

open Result Token Machine

variable {env : Env} {s t : FarmingState} {F : Pubkey} {k : FarmerKey} {i : Instr}
  {f f₁ f' : Farmer} {farm : Farm} {til : Slot}

/-! ## A check made twice -/

namespace Farmer

/-- A farmer with nothing to mature and nothing to credit is left alone. -/
theorem check_idle (hripe : f.matureSnapshot farm = none)
    (hcursor : til ≤ f.calculateNextHarvestFrom) :
    f.checkVestedPeriodAndUpdateHarvest farm til = .ok f := by
  refine check_eq_ok.mpr ⟨f, ?_, ?_⟩
  · unfold MaturedIf
    rw [hripe]
  · unfold updateEligibleHarvest
    rw [if_pos hcursor]
    rfl

/-- What a check leaves: nothing to mature, and nothing to credit. -/
theorem check_leaves (h : f.checkVestedPeriodAndUpdateHarvest farm til = .ok f') :
    f'.matureSnapshot farm = none ∧ til ≤ f'.calculateNextHarvestFrom := by
  obtain ⟨f₁, hm, hu⟩ := check_eq_ok.mp h
  have hupdated := updateEligibleHarvest_ok hu
  constructor
  · rw [matureSnapshot_eq_none, hupdated.vested, hupdated.vestedAt]
    rcases hm.cases with ⟨S, -, hmatured⟩ | ⟨hnone, rfl⟩
    · exact .inl hmatured.vested
    · exact matureSnapshot_eq_none.mp hnone
  · rw [Word.le_def, hupdated.cursor]
    split
    · rename_i hle
      exact hle
    · exact Nat.le_succ _

/-- A check leaves nothing that the same check would do. -/
theorem check_again (h : f.checkVestedPeriodAndUpdateHarvest farm til = .ok f') :
    f'.checkVestedPeriodAndUpdateHarvest farm til = .ok f' :=
  check_idle (check_leaves h).1 (check_leaves h).2

end Farmer

/-! ## Updates in the current slot -/

/-- The farm and the farmer that an instruction updates up to the current
slot, if that is all it does. -/
def Instr.updatesNow (now : Slot) : Instr → Option (Pubkey × FarmerKey)
  | .updateEligibleHarvest farm farmer => some (farm, farmer)
  | .updateEligibleHarvestUntil farm farmer til => if now ≤ til then some (farm, farmer) else none
  | _ => none

/-- A batch of such instructions. -/
def UpdatesNow (now : Slot) (is : List Instr) : Prop :=
  ∀ i ∈ is, (i.updatesNow now).isSome

instance (now : Slot) (is : List Instr) : Decidable (UpdatesNow now is) :=
  inferInstanceAs (Decidable (∀ i ∈ is, (i.updatesNow now).isSome = true))

/-- The farmers that are updated: those who are named with their own farm. -/
def updatedFarmers (now : Slot) (is : List Instr) : List FarmerKey :=
  is.filterMap (fun i => (i.updatesNow now).bind (fun u => if u.1 = u.2.1 then some u.2 else none))

/-- The check of a farmer of the state, if it succeeds. -/
def checkNow (farms : Store Pubkey Farm) (now : Slot) (k : FarmerKey) (f : Farmer) :
    Option Farmer :=
  (farms.lookup k.1).bind (fun farm => (f.checkVestedPeriodAndUpdateHarvest farm now).toOption)

theorem checkNow_eq_some {farms : Store Pubkey Farm} {now : Slot} :
    checkNow farms now k f = some f' ↔ ∃ farm, farms.lookup k.1 = some farm
      ∧ f.checkVestedPeriodAndUpdateHarvest farm now = .ok f' := by
  unfold checkNow
  rw [Option.bind_eq_some_iff]
  refine exists_congr (fun farm => and_congr_right (fun _ => ?_))
  cases f.checkVestedPeriodAndUpdateHarvest farm now with
  | error e => exact iff_of_false (by intro h; cases h) (by intro h; cases h)
  | ok f₁ => exact ⟨fun h => congrArg _ (Option.some.inj h), fun h => by cases h; rfl⟩

theorem checkNow_idempotent (farms : Store Pubkey Farm) (now : Slot) :
    Store.Idempotent (checkNow farms now) := by
  intro k f f' h
  obtain ⟨farm, hfarm, hcheck⟩ := checkNow_eq_some.mp h
  exact checkNow_eq_some.mpr ⟨farm, hfarm, Farmer.check_again hcheck⟩

/-- A check makes sense of a farmer of the state only. -/
theorem checked_iff {now : Slot} :
    Checked s k now f f' ↔ s.farmers.lookup k = some f ∧ checkNow s.farms now k f = some f' := by
  rw [checkNow_eq_some]
  exact ⟨fun h => ⟨h.farmer, h.check⟩, fun h => ⟨h.1, h.2⟩⟩

theorem updateEligibleHarvestHandle_eq_ok (hc : Custody s) :
    updateEligibleHarvestHandle s F k til = .ok t ↔
      F = k.1 ∧ ∃ f f', Checked s k til f f' ∧ t = s.setFarmer k f' := by
  constructor
  · intro h
    refine ⟨?_, updateEligibleHarvestHandle_checked hc h⟩
    simp only [updateEligibleHarvestHandle, bind_eq_ok] at h
    obtain ⟨f, hof, -⟩ := h
    exact (farmerOf_ok hc hof).2
  · rintro ⟨rfl, f, f', ⟨hf, farm, hfarm, hcheck⟩, rfl⟩
    have hown := hc.farmer k f hf
    simp [updateEligibleHarvestHandle, farmerOf, FarmingState.farmer, FarmingState.farm, hf, hfarm,
      hcheck, hown]

theorem step_updatesNow {now : Slot} (h : i.updatesNow now = some (F, k)) (hnow : now = s.slot) :
    step env s i = updateEligibleHarvestHandle s F k now := by
  cases i with
  | updateEligibleHarvest F' k' =>
      obtain ⟨rfl, rfl⟩ := Prod.mk.inj (Option.some.inj h)
      rw [hnow]
      rfl
  | updateEligibleHarvestUntil F' k' til =>
      change (if now ≤ til then some (F', k') else none) = some (F, k) at h
      by_cases hle : now ≤ til
      · rw [if_pos hle] at h
        obtain ⟨rfl, rfl⟩ := Prod.mk.inj (Option.some.inj h)
        show updateEligibleHarvestHandle s F' k' (min s.slot til) = _
        rw [← hnow, min_eq_left hle]
      · rw [if_neg hle] at h
        cases h
  | _ => cases h

/-- **One update**, attempted. -/
theorem exec_update (hc : Custody s) (h : i.updatesNow s.slot = some (F, k)) :
    exec (step env) s i = if F = k.1
      then { s with farmers := Store.touch (checkNow s.farms s.slot) s.farmers k } else s := by
  have hstep : updateEligibleHarvestHandle s F k s.slot = step env s i :=
    (step_updatesNow h rfl).symm
  unfold Store.touch
  cases hu : (s.farmers.lookup k).bind (checkNow s.farms s.slot k) with
  | none =>
      -- the update fails
      rw [ite_self]
      rcases exec_cases (step env) s i with hok | hsame
      · rw [← hstep, updateEligibleHarvestHandle_eq_ok hc] at hok
        obtain ⟨-, f, f', hchecked, -⟩ := hok
        obtain ⟨hf, hf'⟩ := checked_iff.mp hchecked
        rw [hf, Option.bind_some, hf'] at hu
        cases hu
      · exact hsame
  | some f' =>
      obtain ⟨f, hf, hf'⟩ := Option.bind_eq_some_iff.mp hu
      by_cases hF : F = k.1
      · rw [if_pos hF]
        refine exec_ok (hstep.symm.trans ((updateEligibleHarvestHandle_eq_ok hc).mpr ?_))
        exact ⟨hF, f, f', checked_iff.mpr ⟨hf, hf'⟩, rfl⟩
      · rw [if_neg hF]
        rcases exec_cases (step env) s i with hok | hsame
        · rw [← hstep, updateEligibleHarvestHandle_eq_ok hc] at hok
          exact absurd hok.1 hF
        · exact hsame

/-! ## A batch -/

/-- **A batch** touches its farmers one after the other, and nothing else. -/
theorem run_updates (hp : env.tokenProgram.Lawful) (hc : Custody s) {is : List Instr}
    (his : UpdatesNow s.slot is) :
    run (step env) s is = { s with
      farmers := (updatedFarmers s.slot is).foldl (Store.touch (checkNow s.farms s.slot))
        s.farmers } := by
  induction is generalizing s with
  | nil => rfl
  | cons i is ih =>
      obtain ⟨⟨F, k⟩, hu⟩ := Option.isSome_iff_exists.mp (his i List.mem_cons_self)
      have hrest : UpdatesNow s.slot is := fun j hj => his j (List.mem_cons_of_mem _ hj)
      have hcustody : Custody (exec (step env) s i) := by
        rcases exec_cases (step env) s i with hok | hsame
        · exact step_custody hp hc hok
        · rw [hsame]
          exact hc
      rw [run_cons]
      rw [exec_update hc hu] at hcustody ⊢
      rw [updatedFarmers, List.filterMap_cons, hu, Option.bind_some]
      by_cases hF : F = k.1
      · rw [if_pos hF] at hcustody ⊢
        rw [ih hcustody hrest]
        simp [hF, updatedFarmers]
      · rw [if_neg hF] at hcustody ⊢
        rw [ih hcustody hrest]
        simp [hF, updatedFarmers]

/-- The same state, farmer by farmer. -/
structure SameState (s t : FarmingState) : Prop where
  farms : t.farms = s.farms
  whitelist : t.whitelist = s.whitelist
  ledger : t.ledger = s.ledger
  slot : t.slot = s.slot
  farmers : ∀ k, t.farmers.lookup k = s.farmers.lookup k

/-- **The order of updates does not matter.** From any state that is reached,
two batches of updates up to the current slot that name the same farmers,
in any order and as often as they like, leave the same state: every farmer
who is named is updated once, if that is possible at all, and everything
else is as before. -/
theorem updates_in_any_order (hp : env.tokenProgram.Lawful) (hg : Genesis s) (is₀ : List Instr)
    {is js : List Instr} (his : UpdatesNow (run (step env) s is₀).slot is)
    (hjs : UpdatesNow (run (step env) s is₀).slot js)
    (hsame : ∀ k, k ∈ updatedFarmers (run (step env) s is₀).slot is
      ↔ k ∈ updatedFarmers (run (step env) s is₀).slot js) :
    let t := run (step env) s is₀
    SameState (run (step env) t is) (run (step env) t js)
    ∧ SameState { t with farmers := (run (step env) t is).farmers } (run (step env) t is)
    ∧ (∀ k ∈ updatedFarmers t.slot is, (run (step env) t is).farmers.lookup k
        = (t.farmers.lookup k).map (Store.attempt (checkNow t.farms t.slot) k))
    ∧ ∀ k ∉ updatedFarmers t.slot is,
        (run (step env) t is).farmers.lookup k = t.farmers.lookup k := by
  intro t
  have hc : Custody t := (run_reached hp hg is₀).custody
  have hbatch : ∀ is k,
      (k ∈ updatedFarmers t.slot is → ((updatedFarmers t.slot is).foldl
        (Store.touch (checkNow t.farms t.slot)) t.farmers).lookup k
          = (t.farmers.lookup k).map (Store.attempt (checkNow t.farms t.slot) k))
      ∧ (k ∉ updatedFarmers t.slot is → ((updatedFarmers t.slot is).foldl
        (Store.touch (checkNow t.farms t.slot)) t.farmers).lookup k = t.farmers.lookup k) :=
    fun _ _ => Store.lookup_foldl_touch (checkNow_idempotent t.farms t.slot)
  rw [run_updates hp hc his, run_updates hp hc hjs]
  refine ⟨⟨rfl, rfl, rfl, rfl, fun k => ?_⟩, ⟨rfl, rfl, rfl, rfl, fun _ => rfl⟩,
    fun k => (hbatch is k).1, fun k => (hbatch is k).2⟩
  by_cases hk : k ∈ updatedFarmers t.slot is
  · exact ((hbatch js k).1 ((hsame k).mp hk)).trans ((hbatch is k).1 hk).symm
  · exact ((hbatch js k).2 (fun h => hk ((hsame k).mpr h))).trans ((hbatch is k).2 hk).symm

/-- Two farmers have staked, and a harvest period is on. -/
def harvestOn : List Instr :=
  openFarm ++ [.tick 5, stakeOf 10 20 50, stakeOf 11 21 30, .tick 10, snapshotNow,
    schedule 11 100 2, .tick 20]

theorem updates_in_any_order_two :
    SameState
      (run (step sampleEnv) (run (step sampleEnv) sampleGenesis harvestOn)
        [updateOf 10, updateOf 11, updateOf 10])
      (run (step sampleEnv) (run (step sampleEnv) sampleGenesis harvestOn)
        [updateOf 11, .updateEligibleHarvestUntil 1 (1, 10) 25])
    ∧ ((run (step sampleEnv) (run (step sampleEnv) sampleGenesis harvestOn)
        [updateOf 10, updateOf 11, updateOf 10]).farmers.lookup (1, 10)).map
          (fun f => f.unclaimed 200) = some 12 := by
  refine ⟨(updates_in_any_order Token.Reference.lawful sampleGenesis_genesis harvestOn
    (by decide +kernel) (by decide +kernel) (fun k => ?_)).1, by decide +kernel⟩
  have hten : updatedFarmers (run (step sampleEnv) sampleGenesis harvestOn).slot
      [updateOf 10, updateOf 11, updateOf 10] = [(1, 10), (1, 11), (1, 10)] := by decide +kernel
  have heleven : updatedFarmers (run (step sampleEnv) sampleGenesis harvestOn).slot
      [updateOf 11, .updateEligibleHarvestUntil 1 (1, 10) 25] = [(1, 11), (1, 10)] := by
    decide +kernel
  rw [hten, heleven]
  simp only [List.mem_cons, List.not_mem_nil, or_false]
  tauto

/-! ## An update made first -/

section First

open FarmingState

variable (hc : Custody s) (hchecked : Checked s k s.slot f f₁)

include hc hchecked

theorem startFarming_after_check {accs : StartFarming} {stake : TokenAmount}
    (hk : accs.farmer = k) :
    startFarming env (s.setFarmer k f₁) accs stake = startFarming env s accs stake := by
  obtain ⟨hf, farm, hfarm, hcheck⟩ := hchecked
  have hown := hc.farmer k f hf
  have hown₁ := (Farmer.check_deposited hcheck).2
  have hagain := Farmer.check_again hcheck
  subst hk
  by_cases hF : accs.farmer.1 = accs.farm
  · rw [hF] at hfarm hown
    simp [startFarming, farmerOf, farmer, FarmingState.farm, okOr, hf, hfarm, hown, hown₁, hcheck,
      hagain, setFarmer_twice]
  · simp [startFarming, farmerOf, farmer, okOr, ensure, hf, hown, hown₁, hF]

omit hc in
theorem stopFarming_after_check {accs : StopFarming} {max : TokenAmount} (hk : accs.farmer = k) :
    stopFarming env (s.setFarmer k f₁) accs max = stopFarming env s accs max := by
  obtain ⟨hf, farm, hfarm, hcheck⟩ := hchecked
  have hagain := Farmer.check_again hcheck
  subst hk
  have hfarm : s.farms.lookup accs.farm = some farm := hfarm
  simp [stopFarming, farmer, FarmingState.farm, okOr, hf, hfarm, hcheck, hagain, setFarmer_twice]

theorem updateEligibleHarvestHandle_after_check :
    updateEligibleHarvestHandle (s.setFarmer k f₁) F k s.slot
      = updateEligibleHarvestHandle s F k s.slot := by
  obtain ⟨hf, farm, hfarm, hcheck⟩ := hchecked
  have hown := hc.farmer k f hf
  have hown₁ := (Farmer.check_deposited hcheck).2
  have hagain := Farmer.check_again hcheck
  by_cases hF : k.1 = F
  · rw [hF] at hfarm hown
    simp [updateEligibleHarvestHandle, farmerOf, farmer, FarmingState.farm, okOr, hf, hfarm, hown,
      hown₁, hcheck, hagain, setFarmer_setFarmer]
  · simp [updateEligibleHarvestHandle, farmerOf, farmer, okOr, ensure, hf, hown, hown₁, hF]

theorem compoundSameFarm_after_check {accs : CompoundSameFarm} (hk : accs.farmer = k) :
    compoundSameFarm env (s.setFarmer k f₁) accs = compoundSameFarm env s accs := by
  obtain ⟨hf, farm, hfarm, hcheck⟩ := hchecked
  have hown := hc.farmer k f hf
  have hown₁ := (Farmer.check_deposited hcheck).2
  have hagain := Farmer.check_again hcheck
  have hlist : (s.setFarmer k f₁).whitelist = s.whitelist := rfl
  subst hk
  by_cases hF : accs.farmer.1 = accs.farm
  · rw [hF] at hfarm hown
    simp [compoundSameFarm, farmerOf, farmer, FarmingState.farm, tokenAccount, okOr, hlist, hf,
      hfarm, hown, hown₁, hcheck, hagain, setFarmer_twice]
  · simp [compoundSameFarm, farmerOf, farmer, tokenAccount, okOr, ensure, hlist, hf, hown, hown₁,
      hF]

theorem compoundAcrossFarms_after_check {accs : CompoundAcrossFarms}
    (hk : accs.sourceFarmer = k) :
    compoundAcrossFarms env (s.setFarmer k f₁) accs = compoundAcrossFarms env s accs := by
  obtain ⟨hf, farm, hfarm, hcheck⟩ := hchecked
  have hown := hc.farmer k f hf
  have hown₁ := (Farmer.check_deposited hcheck).2
  have hauthority := Farmer.check_authority hcheck
  have hagain := Farmer.check_again hcheck
  have hlist : (s.setFarmer k f₁).whitelist = s.whitelist := rfl
  subst hk
  have hsource : s.farmer accs.sourceFarmer = .ok f := by simp [farmer, okOr, hf]
  have hsource₁ : (s.setFarmer accs.sourceFarmer f₁).farmer accs.sourceFarmer = .ok f₁ := by
    simp [farmer, okOr]
  by_cases hne : accs.targetFarm = accs.sourceFarm
  · simp [compoundAcrossFarms, ensure, hne]
  by_cases htarget : accs.targetFarmer = accs.sourceFarmer
  · -- nobody compounds to themselves: the farms would be one
    by_cases hF : f.farm = accs.sourceFarm
    · have hfarms : ¬accs.sourceFarm = accs.targetFarm := fun h => hne h.symm
      simp [compoundAcrossFarms, tokenAccount, ensure, hlist, htarget, hsource, hsource₁, hown₁,
        hF, hfarms]
    · simp [compoundAcrossFarms, tokenAccount, ensure, hlist, htarget, hsource, hsource₁, hown₁,
        hF]
  · have htarget : (s.setFarmer accs.sourceFarmer f₁).farmer accs.targetFarmer
        = s.farmer accs.targetFarmer := by
      simp [farmer, AList.lookup_insert_ne htarget]
    by_cases hF : f.farm = accs.sourceFarm
    · have hfarm : s.farms.lookup accs.sourceFarm = some farm := by rw [← hF, hown, hfarm]
      simp [compoundAcrossFarms, FarmingState.farm, tokenAccount, okOr, hlist, hsource, hsource₁,
        htarget, hfarm, hown₁, hauthority, hcheck, hagain, setFarmer_twice]
    · simp [compoundAcrossFarms, tokenAccount, ensure, hlist, hsource, hsource₁, htarget, hown₁,
        hauthority, hF]

end First

/-- An instruction that checks a farmer itself, after the same check. -/
theorem step_after_check (hc : Custody s) (hi : i.harvests s.slot = some (k, s.slot))
    (hchecked : Checked s k s.slot f f₁) :
    step env (s.setFarmer k f₁) i = step env s i := by
  cases i with
  | startFarming accs stake =>
      exact startFarming_after_check hc hchecked (Prod.mk.inj (Option.some.inj hi)).1
  | stopFarming accs unstakeMax =>
      exact stopFarming_after_check hchecked (Prod.mk.inj (Option.some.inj hi)).1
  | updateEligibleHarvest F k' =>
      obtain rfl := (Prod.mk.inj (Option.some.inj hi)).1
      exact updateEligibleHarvestHandle_after_check hc hchecked
  | updateEligibleHarvestUntil F k' til =>
      obtain ⟨rfl, htil⟩ := Prod.mk.inj (Option.some.inj hi)
      show updateEligibleHarvestHandle (s.setFarmer k' f₁) F k' (min s.slot til)
        = updateEligibleHarvestHandle s F k' (min s.slot til)
      rw [htil]
      exact updateEligibleHarvestHandle_after_check hc hchecked
  | compoundSameFarm accs =>
      exact compoundSameFarm_after_check hc hchecked (Prod.mk.inj (Option.some.inj hi)).1
  | compoundAcrossFarms accs =>
      exact compoundAcrossFarms_after_check hc hchecked (Prod.mk.inj (Option.some.inj hi)).1
  | _ => cases hi

/-- **Updates made first change nothing.** In any state that is reached, an
instruction that checks a farmer up to the current slot (staking, unstaking,
compounding or another update) has the same result, success or error, when
any batch of updates of that farmer goes through before it. -/
theorem updates_first_change_nothing (hp : env.tokenProgram.Lawful) (hg : Genesis s)
    (is : List Instr) {us : List Instr}
    (hi : i.harvests (run (step env) s is).slot = some (k, (run (step env) s is).slot))
    (hus : UpdatesNow (run (step env) s is).slot us)
    (hk : ∀ k' ∈ updatedFarmers (run (step env) s is).slot us, k' = k) :
    step env (run (step env) (run (step env) s is) us) i = step env (run (step env) s is) i := by
  have hc : Custody (run (step env) s is) := (run_reached hp hg is).custody
  generalize run (step env) s is = t at *
  rw [run_updates hp hc hus]
  rcases Store.foldl_touch_same (s := t.farmers) (checkNow_idempotent t.farms t.slot) hk with
    hsame | ⟨f, f₁, hf, hcheck, hsame⟩
  · rw [hsame]
  · rw [hsame]
    exact step_after_check hc hi (checked_iff.mpr ⟨hf, hcheck⟩)

theorem updates_first_change_nothing_unstaking :
    step sampleEnv (run (step sampleEnv) (run (step sampleEnv) sampleGenesis harvestOn)
        [updateOf 10, .updateEligibleHarvestUntil 1 (1, 10) 25]) (unstakeOf 10 20 20)
      = step sampleEnv (run (step sampleEnv) sampleGenesis harvestOn) (unstakeOf 10 20 20) :=
  updates_first_change_nothing (k := (1, 10)) Token.Reference.lawful sampleGenesis_genesis
    harvestOn (by decide +kernel) (by decide +kernel) (by decide +kernel)

end SolanaAmm.Farming
