import SolanaAmm.Farming.Updates
import SolanaAmm.Farming.Shares

/-!
# Farming — Withdrawal

Unstaking starts by crediting the harvest, so it must not fail. In a farm
that the program can reach no window gives a farmer more than a whole
share, so a farmer is credited at most what the retained periods release
(`emission`), the vested tokens fit into the staked ones, and the slots
never run out below. What is left is the slot after the current one, which
the last slot of all does not have.
-/

namespace SolanaAmm.Farming

open Machine Result Decimal Harvest

variable {env : Env} {s : FarmingState} {F : Pubkey} {k : FarmerKey} {farm : Farm}
  {f f₁ f' : Farmer} {rate : ℕ → ℕ} {since stake stop : ℕ} {ws : List Snapshot}
  {w S : Snapshot} {til : Slot} {out : Harvested}

/-! ## What the periods release -/

/-- All tokens of the periods that a harvest retains. -/
def Harvest.emission (h : Harvest) : ℕ := (h.periods.toList.map HarvestPeriod.cost).sum

theorem HarvestPeriod.sum_rateAt_le (p : HarvestPeriod) (a b : ℕ) :
    ∑ t ∈ Finset.Ico a b, p.rateAt t ≤ p.cost := by
  have hsum := sum_rateAt_Ico ⟨p.startsAt, p.endsAt, p.tps⟩ a b
  refine hsum.le.trans (Nat.mul_le_mul_right _ ?_)
  exact tsub_le_tsub (Nat.min_le_right _ _) (Nat.le_max_right _ _)

/-- No interval of slots releases more than all of them. -/
theorem Harvest.sum_rateAt_le (h : Harvest) (a b : ℕ) :
    ∑ t ∈ Finset.Ico a b, h.rateAt t ≤ h.emission := by
  unfold Harvest.rateAt Harvest.emission
  induction h.periods.toList with
  | nil => rw [List.map_nil, List.sum_nil]; exact (Finset.sum_eq_zero (fun _ _ => rfl)).le
  | cons p ps ih =>
      simp only [List.map_cons, List.sum_cons, Finset.sum_add_distrib]
      exact Nat.add_le_add (p.sum_rateAt_le a b) ih

/-- Neither do two intervals that meet. -/
theorem Harvest.sum_rateAt_add_le (h : Harvest) {a b c : ℕ} (hbc : b ≤ c) :
    ∑ t ∈ Finset.Ico a b, h.rateAt t + ∑ t ∈ Finset.Ico b c, h.rateAt t ≤ h.emission := by
  rcases le_total a b with hab | hba
  · rw [Finset.sum_Ico_consecutive _ hab hbc]
    exact h.sum_rateAt_le a c
  · rw [Finset.Ico_eq_empty_of_le hba, Finset.sum_empty, Nat.zero_add]
    exact h.sum_rateAt_le b c

/-! ## At most a whole share -/

/-- A stake is within what was counted by every snapshot whose window has
slots from `since` on. -/
def Within (ws : List Snapshot) (since stake : ℕ) : Prop :=
  ∀ newer w older, ws = newer ++ w :: older → (∀ n ∈ newer, since < n.startedAt.val) →
    stake ≤ w.staked.val

theorem Within.tail (h : Within (w :: ws) since stake) (hw : since < w.startedAt.val) :
    Within ws since stake := by
  intro newer v older hws hnewer
  refine h (w :: newer) v older (by rw [hws, List.cons_append]) (fun n hn => ?_)
  rcases List.mem_cons.mp hn with rfl | hn
  · exact hw
  · exact hnewer n hn

theorem share_le (h : stake ≤ w.staked.val) : share w stake ≤ wad :=
  Nat.div_le_of_le_mul (Nat.mul_le_mul_right _ h)

theorem snapshotTokens_le (h : stake ≤ w.staked.val) :
    snapshotTokens rate since stake stop w
      ≤ ∑ t ∈ Finset.Ico (max w.startedAt.val since) stop, rate t := by
  unfold snapshotTokens windowTokens
  split
  · exact Nat.div_le_of_le_mul (Nat.mul_le_mul_right _ (share_le h))
  · exact Nat.zero_le _

/-- **All windows** of such a stake are worth at most what is released. -/
theorem creditIn_le (h : Within ws since stake) :
    creditIn rate since stake stop ws ≤ ∑ t ∈ Finset.Ico since stop, rate t := by
  induction ws generalizing stop with
  | nil => exact Nat.zero_le _
  | cons w ws ih =>
      have hw : snapshotTokens rate since stake stop w
          ≤ ∑ t ∈ Finset.Ico (max w.startedAt.val since) stop, rate t :=
        snapshotTokens_le (h [] w ws rfl (fun _ hn => nomatch hn))
      rw [creditIn]
      rcases Nat.lt_or_ge since w.startedAt.val with hlt | hge
      · have hws : creditIn rate since stake (min stop w.startedAt.val) ws ≤ _ := ih (h.tail hlt)
        rw [Nat.max_eq_left hlt.le] at hw
        rcases le_total w.startedAt.val stop with hle | hle
        · rw [Nat.min_eq_right hle] at hws ⊢
          rw [← Finset.sum_Ico_consecutive rate hlt.le hle, Nat.add_comm]
          exact Nat.add_le_add hws hw
        · rw [Finset.Ico_eq_empty_of_le hle, Finset.sum_empty] at hw
          rw [Nat.min_eq_left hle] at hws ⊢
          omega
      · -- the window is the one that the first slot is in
        rw [creditIn_eq_zero ((Nat.min_le_right _ _).trans hge), Nat.add_zero]
        rwa [Nat.max_eq_right hge] at hw

/-- A deposit is within the vault. -/
theorem Sound.deposited_lt (hs : Sound s) (hf : s.farmers.lookup k = some f) :
    f.deposited < 2 ^ 64 := by
  have hle : f.deposited ≤ s.deposits k.1 := by
    have := Store.le_total (g := ofFarm k.1 Farmer.deposited) hf
    rwa [ofFarm, if_pos rfl] at this
  exact (hle.trans (hs.backed k.1)).trans_lt (Token.Ledger.balance_lt _ _)

/-- One claim is within the window. -/
theorem Covered.claimOn_le (hc : Covered s k.1 farm) (hf : s.farmers.lookup k = some f)
    {newer older : List Snapshot} (hw : farm.windows = newer ++ w :: older) :
    f.claimOn newer w ≤ w.staked.val := by
  have := Store.le_total (g := ofFarm k.1 (Farmer.claimOn newer w)) hf
  rw [ofFarm, if_pos rfl] at this
  exact this.trans (hc.covered newer w older hw)

/-- The staked tokens, from the cursor on. -/
theorem Covered.staked_within (hc : Covered s k.1 farm) (hf : s.farmers.lookup k = some f) :
    Within farm.windows f.calculateNextHarvestFrom.val f.staked.val := by
  intro newer w older hw hnewer
  refine le_trans ?_ (hc.claimOn_le hf hw)
  have hreaches : f.Reaches newer := hnewer
  rw [Farmer.claimOn, if_pos hreaches]
  split
  · exact Farmer.staked_le_deposited
  · exact le_rfl

/-- All tokens, from the snapshot on that the vested ones matured with. -/
theorem Covered.deposited_within (hc : Covered s k.1 farm) (hf : s.farmers.lookup k = some f)
    (hS : f.matureSnapshot farm = some S) :
    Within farm.windows S.startedAt.val f.deposited := by
  obtain ⟨hv, hfirst⟩ := Farmer.matureSnapshot_eq_some.mp hS
  intro newer w older hw hnewer
  refine le_trans ?_ (hc.claimOn_le hf hw)
  -- the window is not older than the snapshot
  have hle : S.startedAt ≤ w.startedAt := by
    have hmem := Farm.firstSnapshotAfter_mem hfirst
    have hchron := hc.chronological
    rw [hw] at hmem hchron
    rcases List.mem_append.mp hmem with hmem | hmem
    · exact absurd (hnewer S hmem) (lt_irrefl _)
    · rcases List.mem_cons.mp hmem with rfl | hmem
      · exact le_rfl
      · exact (List.pairwise_cons.mp (List.pairwise_append.mp hchron).2.1).1 S hmem
  rw [Farmer.claimOn, if_pos ⟨hv, (Farm.firstSnapshotAfter_lt hfirst).trans_le hle⟩]

/-! ## Crediting does not fail -/

/-- From a snapshot before the slot on, all are. -/
theorem le_of_mem_take {cursor : Slot} (hchron : Farm.Chronological ws) (hS : S ∈ ws)
    (hcursor : S.startedAt ≤ cursor)
    (hw : w ∈ ws.take ((ws.takeWhile (fun w => cursor < w.startedAt)).length + 1)) :
    S.startedAt ≤ w.startedAt := by
  obtain ⟨rest, hsplit, hlater, -⟩ :=
    Lists.exists_takeWhile (fun w : Snapshot => cursor < w.startedAt) ws
  replace hlater := fun w hw => of_decide_eq_true (hlater w hw)
  generalize ws.takeWhile (fun w => cursor < w.startedAt) = later at hsplit hlater hw
  subst hsplit
  have hS : S ∈ rest := (List.mem_append.mp hS).resolve_left
    (fun hS => not_lt.mpr hcursor (hlater S hS))
  rw [List.take_length_add_append] at hw
  rcases List.mem_append.mp hw with hw | hw
  · exact hcursor.trans (hlater w hw).le
  · cases rest with
    | nil => cases hS
    | cons v rest =>
        obtain rfl := List.mem_singleton.mp hw
        rcases List.mem_cons.mp hS with rfl | hS
        · exact le_rfl
        · exact (List.pairwise_cons.mp (List.pairwise_append.mp hchron).2.1).1 S hS

namespace Farmer

/-- The snapshots that crediting until a slot goes through. -/
def windowsUntil (f : Farmer) (farm : Farm) (til : Slot) : List Snapshot :=
  (farm.getWindowSnapshotsEligibleToHarvest f.calculateNextHarvestFrom).dropWhile
    (fun s => til < s.startedAt)

/-- They are worth at most what is released. -/
structure Bounded (f : Farmer) (farm : Farm) (til : Slot) : Prop where
  windowed : Windowed f.calculateNextHarvestFrom.val (til.val + 1) (f.windowsUntil farm til)
  credit_le : ∀ rate, creditOf rate f.calculateNextHarvestFrom.val f.staked.val (til.val + 1)
      (f.windowsUntil farm til)
    ≤ ∑ t ∈ Finset.Ico f.calculateNextHarvestFrom.val (til.val + 1), rate t

theorem bounded (hfarm : farm.WellKept) (htil : f.calculateNextHarvestFrom ≤ til)
    (hwithin : Within farm.windows f.calculateNextHarvestFrom.val f.staked.val) :
    f.Bounded farm til := by
  obtain ⟨hwindowed, hcredit⟩ := selected_windowed (f := f) hfarm htil
  exact ⟨hwindowed, fun rate => (hcredit rate _).symm.le.trans (creditIn_le hwithin)⟩

/-- With a cursor past the snapshot there is nothing to go through. -/
theorem bounded_of_passed (hchron : Farm.Chronological farm.windows) (hS : S ∈ farm.windows)
    (htil : til < S.startedAt) (hcursor : S.startedAt ≤ f.calculateNextHarvestFrom) :
    f.Bounded farm til := by
  have hnil : f.windowsUntil farm til = [] := by
    unfold windowsUntil
    rw [Farm.getWindowSnapshotsEligibleToHarvest_eq, List.dropWhile_eq_nil_iff]
    intro w hw
    rw [decide_eq_true_eq]
    exact htil.trans_le (le_of_mem_take hchron hS hcursor hw)
  refine ⟨?_, fun rate => ?_⟩
  · rw [hnil]
    trivial
  · rw [hnil]
    exact Nat.zero_le _

/-- What a farmer has of a mint and what is released until a slot fit. -/
def Room (f : Farmer) (farm : Farm) (stop : ℕ) : Prop :=
  ∀ h ∈ initialised farm.harvestsMap,
    f.unclaimed h.mint + ∑ t ∈ Finset.Ico f.calculateNextHarvestFrom.val stop, h.rateAt t < 2 ^ 64

theorem eligibleHarvestUntil_isOk (hfarm : farm.WellKept) (hb : f.Bounded farm til)
    (hnext : til.val + 1 < 2 ^ 64) (hroom : f.Room farm (til.val + 1)) :
    ∃ out, f.eligibleHarvestUntil farm til = .ok out
      ∧ ∀ h ∈ initialised farm.harvestsMap, tokensOf out h.mint ≤ f.unclaimed h.mint
        + ∑ t ∈ Finset.Ico f.calculateNextHarvestFrom.val (til.val + 1), h.rateAt t := by
  have hmap := hfarm.laidOut.harvestsMap
  have hsync : ∀ m, tokensOf (syncHarvestMints farm.harvestsMap f.harvestsMap) m ≤ f.unclaimed m :=
    fun m => tokensOf_syncHarvestMints_le.trans tokensOf_harvestsMap_le
  obtain ⟨out, hout⟩ : ∃ out, f.eligibleHarvestUntil farm til = .ok out :=
    eligibleHarvestUntil_fits hmap hb.windowed hnext (fun h hh =>
      (Nat.add_le_add (hsync h.mint) (hb.credit_le h.rateAt)).trans_lt (hroom h hh))
  refine ⟨out, hout, fun h hh => ?_⟩
  rw [(eligibleHarvestUntil_adds hmap hb.windowed hout).added h hh]
  exact Nat.add_le_add (hsync h.mint) (hb.credit_le h.rateAt)

/-- **An update** does not fail. -/
theorem updateEligibleHarvest_isOk (hfarm : farm.WellKept)
    (hwithin : Within farm.windows f.calculateNextHarvestFrom.val f.staked.val)
    (hnext : til.val + 1 < 2 ^ 64) (hroom : f.Room farm (til.val + 1)) :
    ∃ f', f.updateEligibleHarvest farm til = .ok f' := by
  unfold updateEligibleHarvest
  split
  · exact ⟨f, rfl⟩
  · rename_i hgt
    obtain ⟨out, hout, -⟩ :=
      eligibleHarvestUntil_isOk hfarm (bounded hfarm (not_le.mp hgt).le hwithin) hnext hroom
    obtain ⟨next, hnext⟩ : ∃ next : Slot, next.val = til.val + 1 := ⟨⟨_, hnext⟩, rfl⟩
    rw [hout, ok_bind, Slot.succ_eq_ok.mpr hnext]
    exact ⟨_, rfl⟩

/-- **Maturing** does not fail, and credits what comes before the snapshot. -/
theorem stakeVestedFrom_isOk (hfarm : farm.WellKept) (hchron : Farm.Chronological farm.windows)
    (hS : S ∈ farm.windows) (hstarts : 0 < S.startedAt.val) (hdeposit : f.deposited < 2 ^ 64)
    (hwithin : Within farm.windows f.calculateNextHarvestFrom.val f.staked.val)
    (hroom : f.Room farm S.startedAt.val) :
    ∃ f₁, f.stakeVestedFrom farm S = .ok f₁
      ∧ ∀ h ∈ initialised farm.harvestsMap, f₁.unclaimed h.mint ≤ f.unclaimed h.mint
        + ∑ t ∈ Finset.Ico f.calculateNextHarvestFrom.val S.startedAt.val, h.rateAt t := by
  obtain ⟨til, htil⟩ : ∃ til : Slot, til.val = S.startedAt.val - 1 :=
    ⟨⟨S.startedAt.val - 1, by have := S.startedAt.isLt; omega⟩, rfl⟩
  have hstop : til.val + 1 = S.startedAt.val := by omega
  have hb : f.Bounded farm til := by
    rcases le_or_gt f.calculateNextHarvestFrom til with hle | hgt
    · exact bounded hfarm hle hwithin
    · rw [Word.lt_def] at hgt
      exact bounded_of_passed hchron hS (Word.lt_def.mpr (by omega)) (Word.le_def.mpr (by omega))
  obtain ⟨out, hout, hle⟩ := eligibleHarvestUntil_isOk hfarm hb
    (hstop ▸ S.startedAt.isLt) (hstop.symm ▸ hroom)
  rw [hstop] at hle
  obtain ⟨staked, hstaked⟩ : ∃ staked, f.staked.checkedAdd f.vested = some staked :=
    ⟨⟨f.deposited, hdeposit⟩, Word.checkedAdd_eq_some.mpr rfl⟩
  have hok : f.stakeVestedFrom farm S = .ok { f.setHarvests out.toList with
      calculateNextHarvestFrom := S.startedAt, staked, vested := 0 } := by
    unfold stakeVestedFrom
    rw [Slot.pred_eq_ok.mpr ⟨hstarts, htil⟩, ok_bind, hout, ok_bind, hstaked]
    rfl
  exact ⟨_, hok, fun h hh => (unclaimed_setHarvests_le (f := f)).trans (hle h hh)⟩

/-- **A check** does not fail for a farmer with room for all that the farm
retains. -/
theorem check_isOk (hfarm : farm.WellKept) (hc : Covered s k.1 farm)
    (hf : s.farmers.lookup k = some f) (hdeposit : f.deposited < 2 ^ 64)
    (htil : farm.latestSnapshot.startedAt ≤ til) (hnext : til.val + 1 < 2 ^ 64)
    (hroom : ∀ h ∈ farm.harvests, h.mint ≠ default →
      f.unclaimed h.mint + h.emission < 2 ^ 64) :
    ∃ f', f.checkVestedPeriodAndUpdateHarvest farm til = .ok f' := by
  have hmap := hfarm.laidOut.harvestsMap
  have hretained : ∀ h ∈ initialised farm.harvestsMap,
      f.unclaimed h.mint + h.emission < 2 ^ 64 := by
    intro h hh
    obtain ⟨hget, hne⟩ := hmap.mem_initialised.mp hh
    exact hroom h (Farm.harvestsMap_mint hget).1 hne
  have hroom' : ∀ stop, f.Room farm stop := fun stop h hh =>
    (Nat.add_le_add_left (h.sum_rateAt_le _ _) _).trans_lt (hretained h hh)
  have hwithin := hc.staked_within hf
  simp only [check_eq_ok]
  unfold MaturedIf
  cases hS : f.matureSnapshot farm with
  | none =>
      obtain ⟨f', hf'⟩ := updateEligibleHarvest_isOk hfarm hwithin hnext (hroom' _)
      exact ⟨f', f, rfl, hf'⟩
  | some S =>
      obtain ⟨-, hfirst⟩ := matureSnapshot_eq_some.mp hS
      have hmem := Farm.firstSnapshotAfter_mem hfirst
      have hstarts := Word.lt_def.mp (Farm.firstSnapshotAfter_lt hfirst)
      have hle : S.startedAt.val ≤ til.val := (hc.chronological.le_latest hmem).trans htil
      obtain ⟨f₁, hf₁, hcredited⟩ := stakeVestedFrom_isOk hfarm hc.chronological hmem (by omega)
        hdeposit hwithin (hroom' _)
      have hm := stakeVestedFrom_ok hf₁
      have hwithin₁ : Within farm.windows f₁.calculateNextHarvestFrom.val f₁.staked.val := by
        rw [hm.cursor, hm.staked]
        exact hc.deposited_within hf hS
      -- what the first period credited leaves room for the second
      have hroom₁ : f₁.Room farm (til.val + 1) := by
        intro h hh
        rw [hm.cursor]
        have hsum := h.sum_rateAt_add_le (a := f.calculateNextHarvestFrom.val)
          (b := S.startedAt.val) (c := til.val + 1) (by omega)
        have := hcredited h hh
        have := hretained h hh
        omega
      obtain ⟨f', hf'⟩ := updateEligibleHarvest_isOk hfarm hwithin₁ hnext hroom₁
      exact ⟨f', f₁, hf₁, hf'⟩

end Farmer

/-! ## Stopping -/

/-- **Withdrawal is not blocked.** In every state that a run of the program
reaches, for every farmer with room for all that the periods of the farm
release, the check until any slot from the current one on succeeds, the
last slot of all excepted; and nothing but the token transfer can make
`stop_farming` fail. -/
theorem withdrawal_not_blocked (hp : env.tokenProgram.Lawful) (hg : Genesis s)
    {is : List Instr} (hfarm : (run (step env) s is).farms.lookup k.1 = some farm)
    (hf : (run (step env) s is).farmers.lookup k = some f)
    (htil : (run (step env) s is).slot ≤ til) (hlast : til.val + 1 < 2 ^ 64)
    (hroom : ∀ h ∈ farm.harvests, h.mint ≠ default →
      f.unclaimed h.mint + h.emission < 2 ^ 64) :
    (∃ f', f.checkVestedPeriodAndUpdateHarvest farm til = .ok f')
    ∧ ∀ accs : StopFarming, accs.farmer = k → ∀ unstakeMax : TokenAmount, unstakeMax ≠ 0 →
      ∃ f' n, stopFarming env (run (step env) s is) accs unstakeMax = (do
        let ledger ← transfer env (run (step env) s is).ledger (.stakeVault accs.farm)
          accs.stakeWallet (.farmSigner accs.farm) n
        pure (((run (step env) s is).setLedger ledger).setFarmer k f')) := by
  have hshared := run_shared hp hg.shared is
  have hkept := run_wellKept hp hg is hfarm
  generalize run (step env) s is = t at *
  have hc := hshared.covers k.1 farm hfarm
  have hdeposit := hshared.toSound.deposited_lt hf
  have hcheck : ∀ til : Slot, t.slot ≤ til → til.val + 1 < 2 ^ 64 →
      ∃ f', f.checkVestedPeriodAndUpdateHarvest farm til = .ok f' := fun til htil hlast =>
    Farmer.check_isOk hkept hc hf hdeposit (hc.latest_le.trans htil) hlast hroom
  refine ⟨hcheck til htil hlast, ?_⟩
  rintro accs rfl unstakeMax hmax
  obtain ⟨f₁, hf₁⟩ := hcheck t.slot le_rfl (by have := Word.le_def.mp htil; omega)
  obtain ⟨f', n, hun⟩ : ∃ f' n, f₁.unstake unstakeMax = .ok (f', n) :=
    Farmer.unstake_isOk ((Farmer.check_deposited hf₁).1.trans_lt hdeposit)
  refine ⟨f', n, ?_⟩
  have hfarm' : t.farm accs.farm = .ok farm := okOr_eq_ok.mpr hfarm
  have hf' : t.farmer accs.farmer = .ok f := okOr_eq_ok.mpr hf
  unfold stopFarming
  rw [hf', ok_bind, (ensure_eq_ok (u := ())).mpr hmax, ok_bind, hfarm', ok_bind, hf₁, ok_bind, hun]
  rfl

/-- A farmer stakes 10 tokens, a snapshot counts them, and the first slots of
a period are over. -/
def stakedInPeriod : List Instr :=
  openFarm ++ [.tick 5, stakeOf 10 20 10, .tick 10, snapshotNow, schedule 11 100 2, .tick 20]

def farmInPeriod : Farm :=
  ((run (step sampleEnv) sampleGenesis stakedInPeriod).farms.lookup 1).getD default

def farmerInPeriod : Farmer :=
  ((run (step sampleEnv) sampleGenesis stakedInPeriod).farmers.lookup (1, 10)).getD default

theorem lookup_farmInPeriod :
    (run (step sampleEnv) sampleGenesis stakedInPeriod).farms.lookup 1 = some farmInPeriod := by
  have hsome : ((run (step sampleEnv) sampleGenesis stakedInPeriod).farms.lookup 1).isSome
      = true := by decide +kernel
  rw [farmInPeriod, ← Option.get_eq_getD (h := hsome), Option.some_get]

theorem lookup_farmerInPeriod :
    (run (step sampleEnv) sampleGenesis stakedInPeriod).farmers.lookup (1, 10)
      = some farmerInPeriod := by
  decide +kernel

/-- The period has 202 tokens, for which the farmer has room. -/
theorem farmerInPeriod_room : ∀ h ∈ farmInPeriod.harvests, h.mint ≠ default →
    farmerInPeriod.unclaimed h.mint + h.emission < 2 ^ 64 := by
  decide +kernel

/-- They can be updated, with the vested tokens maturing first. -/
theorem withdrawal_not_blocked_sample :
    ∃ f', farmerInPeriod.checkVestedPeriodAndUpdateHarvest farmInPeriod 20 = .ok f' :=
  (withdrawal_not_blocked (k := (1, 10)) Token.Reference.lawful sampleGenesis_genesis
    lookup_farmInPeriod lookup_farmerInPeriod (by decide +kernel) (by decide)
    farmerInPeriod_room).1

/-- **In the last slot of all** nothing can be withdrawn: there is no slot
after it to continue from. -/
theorem withdrawal_blocked_in_last_slot :
    ¬ ∀ (e : Env) (s : FarmingState) (is : List Instr) (k : FarmerKey) (farm : Farm) (f : Farmer)
      (til : Slot), e.tokenProgram.Lawful → Genesis s →
      (run (step e) s is).farms.lookup k.1 = some farm →
      (run (step e) s is).farmers.lookup k = some f → (run (step e) s is).slot ≤ til →
      (∀ h ∈ farm.harvests, h.mint ≠ default → f.unclaimed h.mint + h.emission < 2 ^ 64) →
      ∃ f', f.checkVestedPeriodAndUpdateHarvest farm til = .ok f' := by
  intro h
  obtain ⟨f', hf'⟩ := h sampleEnv sampleGenesis stakedInPeriod (1, 10) farmInPeriod farmerInPeriod
    18446744073709551615 Token.Reference.lawful sampleGenesis_genesis lookup_farmInPeriod
    lookup_farmerInPeriod (by decide +kernel) farmerInPeriod_room
  have hfails : (farmerInPeriod.checkVestedPeriodAndUpdateHarvest farmInPeriod
      18446744073709551615).isOk = false := by decide +kernel
  rw [hf'] at hfails
  cases hfails

end SolanaAmm.Farming
