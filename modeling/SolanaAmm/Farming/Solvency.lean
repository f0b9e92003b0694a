import SolanaAmm.Farming.Earnings
import SolanaAmm.Farming.Vesting

/-!
# Farming — Solvency

The harvest vaults against what the farmers can claim. Against a vault
stands what is credited, and what can still be credited: for every slot
the tokens released in it, times the shares of the farmers that are still
to be credited for it, or the whole as long as a snapshot can change the
shares. A snapshot does change those of the current slot. If the slot
releases tokens and a farmer has been credited for it before, more can be
credited than the slot releases; in every run without such a snapshot the
vaults cover all claims.
-/

namespace SolanaAmm.Farming

open Result Machine Token

variable {env : Env} {s s₁ s' : FarmingState} {act : Act} {F : Pubkey} {k : FarmerKey}
  {m m' : Pubkey} {now til : Slot} {farm farm' : Farm} {t : ℕ} {i : Instr}
  {h : History FarmingState Instr} {e : Event FarmingState Instr}
  {C C' : Pubkey → ℕ → Bool}

/-! ## Released tokens -/

/-- Slots are words, so all of them come before this. -/
@[irreducible] def horizon : ℕ := 2 ^ 64

theorem val_lt_horizon (slot : Slot) : slot.val < horizon := by
  unfold horizon
  exact slot.isLt

/-- What a farm still releases of a mint, weighted by slot. -/
def Farm.outstanding (farm : Farm) (m : Pubkey) (weight : ℕ → ℕ) : ℕ :=
  ∑ t ∈ Finset.range horizon, farm.rateAt m t * weight t

theorem sum_range_eq_sum_Ico {a b : ℕ} (hb : b ≤ horizon) {g : ℕ → ℕ} :
    ∑ t ∈ Finset.range horizon, (if a ≤ t ∧ t < b then g t else 0) = ∑ t ∈ Finset.Ico a b, g t := by
  rw [← Finset.sum_filter]
  refine Finset.sum_congr (Finset.ext (fun t => ?_)) (fun _ _ => rfl)
  rw [Finset.mem_filter, Finset.mem_range, Finset.mem_Ico]
  exact ⟨fun h => h.2, fun h => ⟨h.2.trans_le hb, h⟩⟩

/-- The slots of one period. -/
theorem sum_rateAt_mul (p : HarvestPeriod) (weight : ℕ → ℕ) :
    ∑ t ∈ Finset.range horizon, p.rateAt t * weight t
      = ∑ t ∈ Finset.Ico p.startsAt.val (p.endsAt.val + 1), p.tps.val * weight t := by
  rw [← sum_range_eq_sum_Ico (val_lt_horizon p.endsAt)]
  refine Finset.sum_congr rfl (fun t _ => ?_)
  unfold HarvestPeriod.rateAt
  simp only [Nat.lt_succ_iff]
  split
  · rfl
  · exact Nat.zero_mul _

/-- The period is paid for: it releases its cost. -/
theorem sum_rateAt_mul_le {p : HarvestPeriod} {weight : ℕ → ℕ} {top : ℕ}
    (hw : ∀ t, weight t ≤ top) :
    ∑ t ∈ Finset.range horizon, p.rateAt t * weight t ≤ top * p.cost := by
  rw [sum_rateAt_mul]
  calc ∑ t ∈ Finset.Ico p.startsAt.val (p.endsAt.val + 1), p.tps.val * weight t
      ≤ ∑ _t ∈ Finset.Ico p.startsAt.val (p.endsAt.val + 1), p.tps.val * top :=
        Finset.sum_le_sum (fun t _ => Nat.mul_le_mul_left _ (hw t))
    _ = top * p.cost := by
        rw [Finset.sum_const_nat (fun _ _ => rfl), Nat.card_Ico, HarvestPeriod.cost,
          Nat.mul_comm top, Nat.mul_assoc]

/-- A period that has not started releases all of it. -/
theorem le_sum_rateAt_mul {p : HarvestPeriod} {weight : ℕ → ℕ} {top : ℕ}
    (hw : ∀ t, p.startsAt.val ≤ t → top ≤ weight t) :
    top * p.cost ≤ ∑ t ∈ Finset.range horizon, p.rateAt t * weight t := by
  rw [sum_rateAt_mul]
  calc top * p.cost
      = ∑ _t ∈ Finset.Ico p.startsAt.val (p.endsAt.val + 1), p.tps.val * top := by
        rw [Finset.sum_const_nat (fun _ _ => rfl), Nat.card_Ico, HarvestPeriod.cost,
          Nat.mul_comm top, Nat.mul_assoc]
    _ ≤ ∑ t ∈ Finset.Ico p.startsAt.val (p.endsAt.val + 1), p.tps.val * weight t :=
        Finset.sum_le_sum (fun t ht => Nat.mul_le_mul_left _ (hw t (Finset.mem_Ico.mp ht).1))

/-- A harvest without periods releases nothing. -/
theorem rateAt_of_default {harvest : Harvest}
    (hp : ∀ p ∈ harvest.periods.toList, p = default) : harvest.rateAt t = 0 := by
  refine List.sum_eq_zero (fun x hx => ?_)
  obtain ⟨p, hmem, rfl⟩ := List.mem_map.mp hx
  rw [hp p hmem, HarvestPeriod.rateAt]
  split <;> rfl

/-- Writing one harvest of a farm. -/
theorem rateAt_setHarvest {old : Harvest} (new : Harvest) (hfind : farm.findHarvest m' = some old) :
    (farm.setHarvest m' new).rateAt m t + (if old.mint = m then old.rateAt t else 0)
      = farm.rateAt m t + (if new.mint = m then new.rateAt t else 0) := by
  obtain ⟨-, l₁, l₂, hl, hset⟩ := Lists.setFirst_of_find? hfind
  have hset' : (farm.setHarvest m' new).harvests = l₁ ++ new :: l₂ := hset _
  rw [Farm.rateAt, Farm.rateAt, hset', hl, Lists.sum_filter_append_cons,
    Lists.sum_filter_append_cons]
  simp only [decide_eq_true_eq]
  omega

/-! ## What was credited -/

/-- The periods that a step credited a farmer of the farm `F` with. -/
def creditsIn (F : Pubkey) (e : Event FarmingState Instr) : List Credit :=
  match e.instr.harvests e.before.slot with
  | some (k, _) => if k.1 = F then creditsOf k e else []
  | none => []

/-- Whether a farmer of the farm has been credited for a slot. -/
def credited (F : Pubkey) (h : History FarmingState Instr) (t : ℕ) : Bool :=
  h.any (fun e => (creditsIn F e).any (fun c => c.Covers t))

/-- The credited periods are worth what is released in their slots. -/
theorem sum_worth {cs : List Credit} (hcs : ∀ c ∈ cs, c.stop ≤ horizon) :
    (cs.map (Credit.worth farm m)).sum
      = ∑ t ∈ Finset.range horizon, farm.rateAt m t * creditAt farm.windows t cs := by
  induction cs with
  | nil => exact (Finset.sum_eq_zero (fun _ _ => Nat.mul_zero _)).symm
  | cons c cs ih =>
      rw [List.map_cons, List.sum_cons, ih (fun c hc => hcs c (List.mem_cons_of_mem _ hc)),
        Credit.worth, ← sum_range_eq_sum_Ico (hcs c List.mem_cons_self),
        ← Finset.sum_add_distrib]
      refine Finset.sum_congr rfl (fun t _ => ?_)
      rw [creditAt_cons, Nat.mul_add, mul_ite, Nat.mul_zero]

theorem Farmer.credits_stop_le {f : Farmer} {c : Credit} (hc : c ∈ f.credits farm til) :
    c.stop ≤ horizon := by
  have huntil : ∀ {cursor : Slot} {stake : ℕ}, c ∈ creditsUntil cursor til stake →
      c.stop ≤ horizon := by
    intro cursor stake hc
    unfold creditsUntil at hc
    split at hc
    · cases hc
    · obtain rfl := List.mem_singleton.mp hc
      exact val_lt_horizon til
  unfold credits at hc
  cases hS : f.matureSnapshot farm with
  | none =>
      rw [hS] at hc
      exact huntil hc
  | some S =>
      rw [hS] at hc
      rcases List.mem_cons.mp hc with rfl | hc
      · exact (val_lt_horizon S.startedAt).le
      · exact huntil hc

/-- A slot that no period covers with a stake counts nothing. -/
theorem creditAt_eq_zero {ws : List Snapshot} {cs : List Credit}
    (hcs : cs.any (fun c => c.Covers t) = false) : creditAt ws t cs = 0 := by
  refine List.sum_eq_zero (fun x hx => ?_)
  obtain ⟨c, hc, rfl⟩ := List.mem_map.mp hx
  rw [List.any_eq_false] at hcs
  have hcov := hcs c hc
  rw [decide_eq_true_eq] at hcov
  split
  · rename_i hin
    by_cases hstake : c.stake = 0
    · rw [hstake, shareAt_zero]
    · exact absurd ⟨hstake, hin⟩ hcov
  · rfl

/-! ## What stands against the vaults -/

/-- The credited and unclaimed tokens of all farmers of a farm. -/
def FarmingState.unclaimed (s : FarmingState) (F : Pubkey) (m : Pubkey) : ℕ :=
  s.sumOf F (fun f => f.unclaimed m)

/-- The part of a slot that can still be credited: the shares that are left,
or all of it while a snapshot can change them. -/
def potential (C : ℕ → Bool) (s : FarmingState) (F : Pubkey) (farm : Farm) (t : ℕ) : ℕ :=
  if s.slot.val ≤ t ∧ C t = false then wad else s.earned F farm t

def FarmingState.outstanding (C : Pubkey → ℕ → Bool) (s : FarmingState) (F m : Pubkey) : ℕ :=
  (s.farms.lookup F).elim 0 (fun farm => farm.outstanding m (potential (C F) s F farm))

/-- Every harvest vault covers what is credited and what can be. -/
def Solvent (C : Pubkey → ℕ → Bool) (s : FarmingState) : Prop :=
  ∀ F m, wad * s.unclaimed F m + s.outstanding C F m
    ≤ wad * s.ledger.balance (.harvestVault F m)

theorem potential_le (hc : Covered s F farm) {C : ℕ → Bool} : potential C s F farm t ≤ wad := by
  unfold potential
  split
  · exact Nat.le_refl _
  · exact hc.earned_le

/-- What an account's rewriting does to a sum. -/
theorem sumOf_setFarmer {f : Farmer} {g : Farmer → ℕ} (f' : Farmer)
    (hf : s.farmers.lookup k = some f) :
    (s.setFarmer k f').sumOf F g + (if k.1 = F then g f else 0)
      = s.sumOf F g + (if k.1 = F then g f' else 0) :=
  Store.total_insert hf

/-! ## Crediting -/

/-- **A check** turns into credit what could be credited. -/
theorem solvent_check {f f' : Farmer} (hs : Shared s) (hf : s.farmers.lookup k = some f)
    (hfarm : s.farms.lookup k.1 = some farm)
    (hcheck : f.checkVestedPeriodAndUpdateHarvest farm til = .ok f')
    (hC : ∀ F t, C' F t = (C F t || if k.1 = F then (f.credits farm til).any (fun c => c.Covers t)
      else false))
    (hsol : Solvent C s) : Solvent C' (s.setFarmer k f') := by
  intro F m
  refine le_trans ?_ (hsol F m)
  by_cases hF : k.1 = F
  · subst hF
    have hcov := hs.covers _ _ hfarm
    have hcredited := Farmer.unclaimed_check_le (m := m) hcov.chronological hcheck
    rw [sum_worth (fun c hc => Farmer.credits_stop_le hc)] at hcredited
    have hunclaimed := sumOf_setFarmer (F := k.1) (g := fun f => f.unclaimed m) f' hf
    rw [if_pos rfl, if_pos rfl] at hunclaimed
    -- in every slot, what is credited comes out of the potential
    have hslot : ∀ t, creditAt farm.windows t (f.credits farm til)
        + potential (C' k.1) (s.setFarmer k f') k.1 farm t ≤ potential (C k.1) s k.1 farm t := by
      intro t
      have hearned := sumOf_setFarmer (F := k.1)
        (g := fun f => shareAt farm.windows (f.stakeAt farm t) t) f' hf
      rw [if_pos rfl, if_pos rfl] at hearned
      have hmove := Farmer.check_stakeAt farm.windows t hcheck
      have hle : creditAt farm.windows t (f.credits farm til)
          + (s.setFarmer k f').earned k.1 farm t ≤ s.earned k.1 farm t := by
        unfold FarmingState.earned
        omega
      have hCt := hC k.1 t
      rw [if_pos rfl] at hCt
      unfold potential
      by_cases hopen : s.slot.val ≤ t ∧ C k.1 t = false
      · rw [if_pos hopen]
        by_cases hnew : C' k.1 t = false
        · rw [hopen.2, Bool.false_or] at hCt
          rw [if_pos ⟨hopen.1, hnew⟩, creditAt_eq_zero (hCt ▸ hnew), Nat.zero_add]
        · rw [if_neg (fun h => hnew h.2)]
          exact hle.trans hcov.earned_le
      · have hclosed : ¬ ((s.setFarmer k f').slot.val ≤ t ∧ C' k.1 t = false) := by
          rintro ⟨hge, hnew⟩
          rw [hCt, Bool.or_eq_false_iff] at hnew
          exact hopen ⟨hge, hnew.1⟩
        rw [if_neg hopen, if_neg hclosed]
        exact hle
    have hout : (∑ t ∈ Finset.range horizon,
          farm.rateAt m t * creditAt farm.windows t (f.credits farm til))
        + farm.outstanding m (potential (C' k.1) (s.setFarmer k f') k.1 farm)
        ≤ farm.outstanding m (potential (C k.1) s k.1 farm) := by
      unfold Farm.outstanding
      rw [← Finset.sum_add_distrib]
      refine Finset.sum_le_sum (fun t _ => ?_)
      rw [← Nat.mul_add]
      exact Nat.mul_le_mul_left _ (hslot t)
    unfold FarmingState.outstanding FarmingState.unclaimed
    rw [FarmingState.setFarmer_farms, hfarm, Option.elim_some, Option.elim_some]
    rw [Nat.mul_comm _ wad, Nat.mul_comm _ wad] at hcredited
    have hmul := congrArg (wad * ·) hunclaimed
    simp only [Nat.mul_add] at hmul
    omega
  · have hsame : ∀ g : Farmer → ℕ, (s.setFarmer k f').sumOf F g = s.sumOf F g := by
      intro g
      have := sumOf_setFarmer (F := F) (g := g) f' hf
      rwa [if_neg hF, if_neg hF, Nat.add_zero, Nat.add_zero] at this
    have hCF : C' F = C F := funext (fun t => by rw [hC, if_neg hF, Bool.or_false])
    unfold FarmingState.outstanding FarmingState.unclaimed potential FarmingState.earned
    rw [hsame, hCF]
    simp only [hsame]
    exact Nat.le_refl _

/-! ## Acts -/

/-- Vaults that gained at least what the claims did, against a potential
that did not grow. -/
theorem Solvent.of_le (hsol : Solvent C s)
    (hvault : ∀ F m, s'.unclaimed F m + s.ledger.balance (.harvestVault F m)
      ≤ s.unclaimed F m + s'.ledger.balance (.harvestVault F m))
    (hout : ∀ F m, s'.outstanding C F m ≤ s.outstanding C F m) : Solvent C s' := by
  intro F m
  have hmul := Nat.mul_le_mul_left wad (hvault F m)
  have hold := hsol F m
  have hle := hout F m
  rw [Nat.mul_add, Nat.mul_add] at hmul
  omega

theorem matureSnapshot_farm_congr (h : farm'.snapshots = farm.snapshots) (f : Farmer) :
    f.matureSnapshot farm' = f.matureSnapshot farm := by
  unfold Farmer.matureSnapshot Farm.firstSnapshotAfter Farm.latestSnapshot
  rw [h]

theorem stakeAt_farm_congr (h : farm'.snapshots = farm.snapshots) (f : Farmer) :
    f.stakeAt farm' t = f.stakeAt farm t := by
  unfold Farmer.stakeAt
  rw [matureSnapshot_farm_congr h]

theorem earned_farm_congr (h : farm'.snapshots = farm.snapshots) :
    s.earned F farm' t = s.earned F farm t := by
  unfold FarmingState.earned Farm.windows
  simp only [stakeAt_farm_congr h, h]

/-- An act that leaves the farm's snapshots alone adds to no potential. -/
theorem Acts.potential_le (ha : Acts act s s') (hs : Covered s F farm) (hs' : Covered s' F farm')
    (hsnap : farm'.snapshots = farm.snapshots) {C : ℕ → Bool} :
    potential C s' F farm' t ≤ potential C s F farm t := by
  have hearned : s'.earned F farm' t ≤ s.earned F farm t := by
    rw [earned_farm_congr hsnap]
    refine sumOf_le (fun k _ => ?_)
    have hmoves := (ha.farmer k).stakeAt_le (t := t) hs.latest_le
    revert hmoves
    cases s'.farmers.lookup k with
    | none => exact fun _ => Nat.zero_le _
    | some f' =>
        cases s.farmers.lookup k with
        | none =>
            intro hle
            have hzero : f'.stakeAt farm t = 0 := Nat.le_zero.mp hle
            rw [Option.elim_some, hzero, shareAt_zero]
            exact Nat.zero_le _
        | some f => exact shareAt_mono
  unfold potential
  have hslot : s.slot.val ≤ s'.slot.val := ha.slot_le
  by_cases hopen : s.slot.val ≤ t ∧ C t = false
  · rw [if_pos hopen]
    exact Farming.potential_le hs'
  · rw [if_neg hopen, if_neg (fun h => hopen ⟨hslot.trans h.1, h.2⟩)]
    exact hearned

/-- What an act leaves of the outstanding tokens of a farm: where it
changes the harvests, it must not raise the rates. -/
theorem Acts.outstanding_le (ha : Acts act s s') (hs : Shared s) (hs' : Shared s')
    (hfarm : ∀ farm', s'.farms.lookup F = some farm' →
      (∀ t, farm'.rateAt m t = 0) ∨ ∃ farm, s.farms.lookup F = some farm
        ∧ farm'.snapshots = farm.snapshots ∧ ∀ t, farm'.rateAt m t ≤ farm.rateAt m t) :
    s'.outstanding C F m ≤ s.outstanding C F m := by
  unfold FarmingState.outstanding
  cases hF : s'.farms.lookup F with
  | none => exact Nat.zero_le _
  | some farm' =>
      rcases hfarm farm' hF with hzero | ⟨farm, hfarm, hsnap, hrate⟩
      · have hnothing : farm'.outstanding m (potential (C F) s' F farm') = 0 :=
          Finset.sum_eq_zero (fun t _ => by rw [hzero, Nat.zero_mul])
        rw [Option.elim_some, hnothing]
        exact Nat.zero_le _
      · rw [hfarm, Option.elim_some, Option.elim_some]
        exact Finset.sum_le_sum (fun t _ => Nat.mul_le_mul (hrate t)
          (ha.potential_le (hs.covers F farm hfarm) (hs'.covers F farm' hF) hsnap))

/-- The farms are the same. -/
theorem Acts.outstanding_le_of_farms (ha : Acts act s s') (hs : Shared s) (hs' : Shared s')
    (hfarms : s'.farms = s.farms) : s'.outstanding C F m ≤ s.outstanding C F m :=
  ha.outstanding_le hs hs' (fun farm' h => .inr ⟨farm', hfarms ▸ h, rfl, fun _ => Nat.le_refl _⟩)

/-- One farm was rewritten. -/
theorem Acts.outstanding_le_of_setFarm {G : Pubkey} (ha : Acts act s s') (hs : Shared s)
    (hs' : Shared s') (hfarms : s'.farms = s.farms.insert G farm')
    (hrate : (∀ t, farm'.rateAt m t = 0) ∨ ∃ farm, s.farms.lookup G = some farm
      ∧ farm'.snapshots = farm.snapshots ∧ ∀ t, farm'.rateAt m t ≤ farm.rateAt m t) :
    s'.outstanding C F m ≤ s.outstanding C F m := by
  refine ha.outstanding_le hs hs' (fun g hg => ?_)
  rw [hfarms] at hg
  rcases Store.lookup_insert_cases hg with ⟨rfl, rfl⟩ | ⟨-, hg⟩
  · exact hrate
  · exact .inr ⟨g, hg, rfl, fun _ => Nat.le_refl _⟩

/-- **A snapshot** of a slot that has not been credited, or releases
nothing. -/
theorem solvent_snapshot {n : TokenAmount} (hsol : Solvent C s)
    (hfarm : s.farms.lookup F = some farm) (hsnap : Farm.Snapped farm farm' s.slot n)
    (hC : ∀ t, C F t = true → t ≤ s.slot.val)
    (hG : C F s.slot.val = false ∨ ∀ m, farm.rateAt m s.slot.val = 0) :
    Solvent C (s.setFarm F farm') := by
  refine hsol.of_le (fun G m => Nat.le_refl _) (fun G m => ?_)
  unfold FarmingState.outstanding
  by_cases hGF : G = F
  · subst hGF
    rw [FarmingState.setFarm_farms, AList.lookup_insert, hfarm, Option.elim_some, Option.elim_some]
    refine Finset.sum_le_sum (fun t _ => ?_)
    have hharvests : farm'.rateAt m t = farm.rateAt m t := by rw [hsnap.pushed]; rfl
    have hbefore : t < s.slot.val →
        (s.setFarm G farm').earned G farm' t ≤ s.earned G farm t := by
      intro ht
      refine sumOf_le (fun k _ => ?_)
      cases hk : s.farmers.lookup k with
      | none => rw [FarmingState.setFarm_farmers, hk]; exact Nat.zero_le _
      | some f =>
          rw [FarmingState.setFarm_farmers, hk, Option.elim_some, Option.elim_some, hsnap.windows,
            shareAt_cons_of_lt ht]
          exact (shareAt_prefix_le (List.dropLast_prefix _)).trans
            (shareAt_mono (Farmer.snapped_stakeAt_le hsnap ht))
    rw [hharvests]
    unfold potential
    rw [FarmingState.setFarm_slot]
    by_cases hopen : s.slot.val ≤ t ∧ C G t = false
    · rw [if_pos hopen, if_pos hopen]
    · rw [if_neg hopen, if_neg hopen]
      rcases Nat.lt_or_ge t s.slot.val with ht | ht
      · exact Nat.mul_le_mul_left _ (hbefore ht)
      · -- the current slot has been credited
        have htrue : C G t = true := by
          rw [← Bool.not_eq_false]
          exact fun h => hopen ⟨ht, h⟩
        obtain rfl : t = s.slot.val := Nat.le_antisymm (hC t htrue) ht
        rcases hG with hfalse | hidle
        · rw [hfalse] at htrue
          cases htrue
        · rw [hidle, Nat.zero_mul, Nat.zero_mul]
  · rw [FarmingState.setFarm_farms, AList.lookup_insert_ne hGF]
    exact Nat.le_refl _

/-! ## Periods -/

theorem Harvest.rateAt_eq_sum {harvest : Harvest} {ps : List HarvestPeriod}
    (h : harvest.periods.toList = ps) :
    harvest.rateAt t = (ps.map (fun p => p.rateAt t)).sum := by rw [Harvest.rateAt, h]

/-- A new period adds its own rate, and the one it replaces takes its rate
with it. -/
theorem Scheduled.rateAt_le {old new : Harvest} {p : HarvestPeriod}
    {replaced : Option HarvestPeriod} (hsched : Scheduled now old new p replaced) :
    new.rateAt t + replaced.elim 0 (fun p => p.rateAt t) ≤ old.rateAt t + p.rateAt t := by
  rcases hsched.periods with ⟨rfl, -, hperiods⟩ | ⟨rfl, hperiods⟩
  · rw [Harvest.rateAt_eq_sum hperiods, Harvest.rateAt_eq_sum old.periods_eq_cons, List.map_cons,
      List.sum_cons, List.map_cons, List.sum_cons, Option.elim_some]
    omega
  · have hdrop : (old.periods.toList.dropLast.map (fun p => p.rateAt t)).sum ≤ old.rateAt t :=
      List.Sublist.sum_le_sum ((List.dropLast_sublist _).map _) (fun _ _ => Nat.zero_le _)
    rw [Harvest.rateAt_eq_sum hperiods, List.map_cons, List.sum_cons, Option.elim_none]
    omega

theorem Scheduled.farmRateAt_le {old new : Harvest} {p : HarvestPeriod}
    {replaced : Option HarvestPeriod} (hsched : Scheduled now old new p replaced)
    (hfind : farm.findHarvest m = some old) :
    (farm.setHarvest m new).rateAt m t + replaced.elim 0 (fun p => p.rateAt t)
      ≤ farm.rateAt m t + p.rateAt t := by
  have hmint : old.mint = m := by simpa using List.find?_some hfind
  have hset := rateAt_setHarvest (m := m) (t := t) new hfind
  have hle := hsched.rateAt_le (t := t)
  rw [hsched.mint, hmint, if_pos rfl, if_pos rfl] at hset
  omega

/-- Rates that rise by no more than `a` and fall by `b` at least. -/
theorem Farm.outstanding_add_le {a b open' open'' : ℕ → ℕ}
    (hrates : ∀ t, farm'.rateAt m t + b t ≤ farm.rateAt m t + a t)
    (hopen : ∀ t, open'' t ≤ open' t) :
    farm'.outstanding m open'' + ∑ t ∈ Finset.range horizon, b t * open'' t
      ≤ farm.outstanding m open' + ∑ t ∈ Finset.range horizon, a t * open'' t := by
  unfold Farm.outstanding
  rw [← Finset.sum_add_distrib, ← Finset.sum_add_distrib]
  refine Finset.sum_le_sum (fun t _ => ?_)
  rw [← Nat.add_mul]
  refine (Nat.mul_le_mul_right _ (hrates t)).trans ?_
  rw [Nat.add_mul]
  exact Nat.add_le_add_right (Nat.mul_le_mul_left _ (hopen t)) _

/-- The overwritten period has not started, so all of it is still open. -/
theorem Scheduled.replaced_le {old new : Harvest} {p : HarvestPeriod}
    {replaced : Option HarvestPeriod} {c : ℕ → Bool}
    (hsched : Scheduled s.slot old new p replaced) (hslot : s'.slot = s.slot)
    (hc : ∀ t, c t = true → t ≤ s.slot.val) :
    wad * (replaced.map HarvestPeriod.cost).getD 0
      ≤ ∑ t ∈ Finset.range horizon, replaced.elim 0 (fun p => p.rateAt t)
        * potential c s' F farm t := by
  cases replaced with
  | none => exact Nat.zero_le _
  | some q =>
      refine le_sum_rateAt_mul (fun t ht => ?_)
      have hlater : s.slot.val < t := (Word.lt_def.mp hsched.old_eq.2).trans_le ht
      have hopen : c t = false := by
        rw [← Bool.not_eq_true]
        exact fun h => absurd (hc t h) (not_le.mpr hlater)
      rw [potential, if_pos ⟨hslot ▸ hlater.le, hopen⟩]

/-- **A period** is funded with all it can release, and the one it replaces
refunds what it cannot release any more. -/
theorem solvent_period {old new : Harvest} {p : HarvestPeriod} {replaced : Option HarvestPeriod}
    {l' : Ledger Address Pubkey} (hsol : Solvent C s) (hs : Shared s)
    (hs' : Shared ((s.setLedger l').setFarm F (farm.setHarvest m new)))
    (ha : Acts act s ((s.setLedger l').setFarm F (farm.setHarvest m new)))
    (hfarm : s.farms.lookup F = some farm) (hfind : farm.findHarvest m = some old)
    (hsched : Scheduled s.slot old new p replaced)
    (hflow : Flow s.ledger l' (only (.harvestVault F m) p.cost)
      (only (.harvestVault F m) ((replaced.map HarvestPeriod.cost).getD 0)))
    (hC : ∀ t, C F t = true → t ≤ s.slot.val) :
    Solvent C ((s.setLedger l').setFarm F (farm.setHarvest m new)) := by
  intro G m'
  have hold := hsol G m'
  have hbalance := hflow.balance (.harvestVault G m') rfl
  by_cases hGm : Address.harvestVault G m' = .harvestVault F m
  · -- the vault of the period: what it still releases was paid in
    obtain ⟨rfl, rfl⟩ := Address.harvestVault.inj hGm
    rw [only_self, only_self] at hbalance
    have hcov := hs.covers G farm hfarm
    have hcov' := hs'.covers G _ (AList.lookup_insert _)
    generalize hs'' : (s.setLedger l').setFarm G (farm.setHarvest m' new) = s' at *
    have hfarm' : s'.farms.lookup G = some (farm.setHarvest m' new) :=
      hs'' ▸ AList.lookup_insert _
    have hslot : s'.slot = s.slot := hs'' ▸ rfl
    have hsum : (farm.setHarvest m' new).outstanding m'
          (potential (C G) s' G (farm.setHarvest m' new))
        + ∑ t ∈ Finset.range horizon, replaced.elim 0 (fun p => p.rateAt t)
          * potential (C G) s' G (farm.setHarvest m' new) t
        ≤ farm.outstanding m' (potential (C G) s G farm)
        + ∑ t ∈ Finset.range horizon, p.rateAt t
          * potential (C G) s' G (farm.setHarvest m' new) t :=
      Farm.outstanding_add_le (fun _ => hsched.farmRateAt_le hfind)
        (fun _ => ha.potential_le hcov hcov' rfl)
    have hnew := sum_rateAt_mul_le (p := p) (fun t => potential_le (t := t) hcov' (C := C G))
    have hreplaced : wad * (replaced.map HarvestPeriod.cost).getD 0
        ≤ ∑ t ∈ Finset.range horizon, replaced.elim 0 (fun p => p.rateAt t)
          * potential (C G) s' G (farm.setHarvest m' new) t := hsched.replaced_le hslot hC
    have hunclaimed : s'.unclaimed G m' = s.unclaimed G m' := hs'' ▸ rfl
    have hbal' : s'.ledger = l' := hs'' ▸ rfl
    unfold FarmingState.outstanding at hold ⊢
    rw [hfarm, Option.elim_some] at hold
    rw [hfarm', Option.elim_some, hunclaimed, hbal']
    have hmul := Nat.mul_le_mul_left wad hbalance
    rw [Nat.mul_add, Nat.mul_add] at hmul
    omega
  · -- every other vault: no rate changes
    rw [only_ne hGm, only_ne hGm] at hbalance
    have hle : ((s.setLedger l').setFarm F (farm.setHarvest m new)).outstanding C G m'
        ≤ s.outstanding C G m' := by
      refine ha.outstanding_le hs hs' (fun g hg => ?_)
      rcases Store.lookup_insert_cases hg with ⟨rfl, rfl⟩ | ⟨-, hg⟩
      · refine .inr ⟨farm, hfarm, rfl, fun t => ?_⟩
        have hm : m ≠ m' := fun h => hGm (by rw [h])
        have hmint : old.mint = m := by simpa using List.find?_some hfind
        have hset := rateAt_setHarvest (m := m') (t := t) new hfind
        rw [hsched.mint, hmint, if_neg hm, if_neg hm] at hset
        exact Nat.le_of_eq hset
      · exact .inr ⟨g, hg, rfl, fun _ => Nat.le_refl _⟩
    have hmul := Nat.mul_le_mul_left wad hbalance
    have hunclaimed : ((s.setLedger l').setFarm F (farm.setHarvest m new)).unclaimed G m'
        = s.unclaimed G m' := rfl
    rw [hunclaimed]
    exact (Nat.add_le_add_left hle _).trans (hold.trans hmul)

/-! ## Every act -/

theorem unclaimed_setFarmer {f : Farmer} (f' : Farmer) (hf : s.farmers.lookup k = some f) :
    (s.setFarmer k f').unclaimed F m + (if k.1 = F then f.unclaimed m else 0)
      = s.unclaimed F m + (if k.1 = F then f'.unclaimed m else 0) :=
  sumOf_setFarmer f' hf

/-- An account whose claims stay. -/
theorem unclaimed_setFarmer_same {f f' : Farmer} (hf : s.farmers.lookup k = some f)
    (hh : f'.harvests = f.harvests) : (s.setFarmer k f').unclaimed F m = s.unclaimed F m := by
  have h := unclaimed_setFarmer (F := F) (m := m) f' hf
  rw [Farmer.unclaimed_congr hh] at h
  omega

/-- An account whose claim to one mint is rewritten. -/
theorem unclaimed_setFarmer_tokens {f : Farmer} {a : AvailableHarvest} (n : TokenAmount)
    (hf : s.farmers.lookup k = some f) (hfind : f.findHarvest m' = some a) :
    (s.setFarmer k (f.setHarvestTokens m' n)).unclaimed F m
        + only (.harvestVault k.1 m') a.tokens.val (.harvestVault F m)
      = s.unclaimed F m + only (.harvestVault k.1 m') n.val (.harvestVault F m) := by
  have hfarmer := unclaimed_setFarmer (F := F) (m := m) (f.setHarvestTokens m' n) hf
  have htokens := Farmer.unclaimed_setHarvestTokens m n hfind
  by_cases hv : Address.harvestVault F m = .harvestVault k.1 m'
  · obtain ⟨rfl, rfl⟩ := Address.harvestVault.inj hv
    rw [if_pos rfl, if_pos rfl] at hfarmer htokens
    rw [only_self, only_self]
    omega
  · rw [only_ne hv, only_ne hv]
    by_cases hF : k.1 = F
    · have hm : m' ≠ m := fun h => hv (by rw [hF, h])
      rw [if_neg hm, if_neg hm] at htokens
      rw [if_pos hF, if_pos hF] at hfarmer
      omega
    · rw [if_neg hF, if_neg hF] at hfarmer
      omega

theorem rateAt_new_harvest {vault : Address}
    {periods : List.Vector HarvestPeriod HARVEST_PERIODS_LEN}
    (hp : periods = .replicate _ default) : (⟨m, vault, periods⟩ : Harvest).rateAt t = 0 :=
  rateAt_of_default (fun p h => by
    rw [hp] at h
    exact List.eq_of_mem_replicate h)

/-- An emptied or a new harvest raises no rate. -/
theorem rateAt_setHarvest_le {old new : Harvest} (hfind : farm.findHarvest m' = some old)
    (hnew : ∀ t, new.rateAt t = 0) :
    (farm.setHarvest m' new).rateAt m t ≤ farm.rateAt m t := by
  have h := rateAt_setHarvest (m := m) (t := t) new hfind
  rw [hnew, ite_self] at h
  omega

/-- **Every act** keeps the vaults solvent: what it pays out was credited or
released to nobody, what it credits or schedules it pays in, and a
snapshot comes before any crediting of its slot. -/
theorem Acts.solvent (ha : Acts act s s') (hs : Shared s) (hs' : Shared s')
    (hC : ∀ F t, C F t = true → t ≤ s.slot.val)
    (hG : ∀ F ∈ act.snapshotOf, ∀ farm ∈ s.farms.lookup F,
      C F s.slot.val = false ∨ ∀ m, farm.rateAt m s.slot.val = 0)
    (hsol : Solvent C s) : Solvent C s' := by
  have hacts := ha
  cases ha with
  | tick _ =>
      exact hsol.of_le (fun _ _ => Nat.le_refl _)
        (fun _ _ => hacts.outstanding_le_of_farms hs hs' rfl)
  | whitelist =>
      exact hsol.of_le (fun _ _ => Nat.le_refl _)
        (fun _ _ => hacts.outstanding_le_of_farms hs hs' rfl)
  | token hflow =>
      refine hsol.of_le (fun F m => Nat.add_le_add_left ?_ _)
        (fun _ _ => hacts.outstanding_le_of_farms hs hs' rfl)
      exact hflow.balance (.harvestVault F m) rfl
  | settings hfarm same =>
      refine hsol.of_le (fun _ _ => Nat.le_refl _)
        (fun _ _ => hacts.outstanding_le_of_setFarm hs hs' rfl
          (.inr ⟨_, hfarm, same.snapshots, ?_⟩))
      intro t
      rw [Farm.rateAt, same.harvests]
      exact Nat.le_refl _
  | createFarm hnew hinit =>
      refine hsol.of_le (fun F m => Nat.add_le_add_left (Nat.le_of_eq ?_) _)
        (fun F m => hacts.outstanding_le_of_setFarm hs hs' rfl (.inl (fun t => ?_)))
      · rw [FarmingState.setFarm_ledger, FarmingState.setLedger_ledger, hinit.balance]
      · refine List.sum_eq_zero (fun x hx => ?_)
        obtain ⟨h, hmem, rfl⟩ := List.mem_map.mp hx
        rw [List.eq_of_mem_replicate (List.mem_filter.mp hmem).1]
        exact rateAt_new_harvest rfl
  | @addHarvest _ F farm farm' m l' hfarm hadd hinit =>
      obtain ⟨-, -, old, hfind, rfl⟩ := addHarvest_cases hadd
      -- the new vault is empty, and there was none
      exact hsol.of_le (fun _ _ => Nat.add_le_add_left (hinit.balance _).ge _)
        (fun _ _ => hacts.outstanding_le_of_setFarm hs hs' rfl
          (.inr ⟨farm, hfarm, rfl, fun _ =>
            rateAt_setHarvest_le hfind (fun _ => rateAt_new_harvest rfl)⟩))
  | @removeHarvest _ F farm m old l' hfarm hfind hclosed =>
      -- the closed vault was empty
      exact hsol.of_le (fun _ _ => Nat.add_le_add_left (hclosed.balance _).ge _)
        (fun _ _ => hacts.outstanding_le_of_setFarm hs hs' rfl
          (.inr ⟨farm, hfarm, rfl, fun _ =>
            rateAt_setHarvest_le hfind (fun _ => rateAt_new_harvest rfl)⟩))
  | period hfarm hfind hsched hflow =>
      exact solvent_period hsol hs hs' hacts hfarm hfind hsched hflow (hC _)
  | snapshot hfarm hvault hsnap =>
      exact solvent_snapshot hsol hfarm hsnap (hC _) (hG _ rfl _ hfarm)
  | @createFarmer _ k f hnew hfresh =>
      refine hsol.of_le (fun F m => Nat.add_le_add_right (Nat.le_of_eq ?_) _)
        (fun _ _ => hacts.outstanding_le_of_farms hs hs' rfl)
      show Store.total (ofFarm F _) (s.farmers.insert k f) = _
      rw [Store.total_insert_new hnew, ofFarm, hfresh.unclaimed, ite_self]
      rfl
  | @closeFarmer _ k f hf _ _ =>
      refine hsol.of_le (fun F m => Nat.add_le_add_right ?_ _)
        (fun _ _ => hacts.outstanding_le_of_farms hs hs' rfl)
      have := Store.total_erase (g := ofFarm F (fun f => f.unclaimed m)) hf
      show Store.total (ofFarm F _) (s.farmers.erase k) ≤ Store.total (ofFarm F _) s.farmers
      omega
  | @stake _ k f f' n l' hf hstaked hflow =>
      refine hsol.of_le (fun F m => ?_) (fun _ _ => hacts.outstanding_le_of_farms hs hs' rfl)
      have hu := unclaimed_setFarmer_same (F := F) (m := m) hf hstaked.harvests
      exact Nat.add_le_add hu.le
        ((Nat.le_add_right _ _).trans (hflow.balance (.harvestVault F m) rfl))
  | @unstake _ k f f' max n l' hf hunstaked hflow =>
      refine hsol.of_le (fun F m => ?_) (fun _ _ => hacts.outstanding_le_of_farms hs hs' rfl)
      have hu := unclaimed_setFarmer_same (F := F) (m := m) hf hunstaked.harvests
      have hb := hflow.balance (.harvestVault F m) rfl
      rw [only_ne (a := .stakeVault k.1) (v := .harvestVault F m) (by intro h; cases h)] at hb
      exact Nat.add_le_add hu.le hb
  | @claim _ k f f' paid l' hf same hpaid hothers hflow =>
      refine hsol.of_le (fun F m => ?_) (fun _ _ => hacts.outstanding_le_of_farms hs hs' rfl)
      have hu := unclaimed_setFarmer (F := F) (m := m) f' hf
      have hb := hflow.balance (.harvestVault F m) rfl
      have hp := hpaid m
      show (s.setFarmer k f').unclaimed F m + s.ledger.balance _ ≤ s.unclaimed F m + l'.balance _
      rw [nothing, Nat.add_zero] at hb
      by_cases hF : k.1 = F
      · subst hF
        rw [if_pos rfl, if_pos rfl] at hu
        omega
      · rw [hothers _ (fun m' h => hF (by cases h; rfl))] at hb
        rw [if_neg hF, if_neg hF] at hu
        omega
  | @compound _ k₁ f₁ m₁ n k₂ f₂ f₂' l' hf₁ hfind hf₂ hstaked hflow =>
      refine hsol.of_le (fun F m => ?_) (fun _ _ => hacts.outstanding_le_of_farms hs hs' rfl)
      obtain ⟨a, hfind, rfl⟩ := hfind
      have hu₂ := unclaimed_setFarmer_same (F := F) (m := m) hf₂ hstaked.harvests
      have hu₁ := unclaimed_setFarmer_tokens (F := F) (m := m) 0 hf₁ hfind
      have hb := hflow.balance (.harvestVault F m) rfl
      show ((s.setFarmer k₁ (f₁.setHarvestTokens m₁ 0)).setFarmer k₂ f₂').unclaimed F m
        + s.ledger.balance _ ≤ s.unclaimed F m + l'.balance _
      rw [only_ne (a := .stakeVault k₂.1) (v := .harvestVault F m) (by intro h; cases h)] at hb
      rw [Word.val_zero, only_zero] at hu₁
      omega
  | @airdrop _ k f m₁ a tokens l' n hf hfind htokens hflow =>
      refine hsol.of_le (fun F m => ?_) (fun _ _ => hacts.outstanding_le_of_farms hs hs' rfl)
      have hu := unclaimed_setFarmer_tokens (F := F) (m := m) tokens hf hfind
      have hb := hflow.balance (.harvestVault F m) rfl
      show (s.setFarmer k (f.setHarvestTokens m₁ tokens)).unclaimed F m + s.ledger.balance _
        ≤ s.unclaimed F m + l'.balance _
      rw [nothing, Nat.add_zero] at hb
      rw [htokens, only_add] at hu
      omega

/-! ## Runs -/

/-- No farm takes a snapshot in a slot that it releases tokens in and has
credited a farmer for. -/
def KeepsShares (p : FarmingState × History FarmingState Instr) (i : Instr) : Prop :=
  ∀ F ∈ i.act.snapshotOf, ∀ farm ∈ p.1.farms.lookup F,
    credited F p.2 p.1.slot.val = false ∨ ∀ h ∈ farm.harvests, h.rateAt p.1.slot.val = 0

instance {p : FarmingState × History FarmingState Instr} : Decidable (KeepsShares p i) :=
  inferInstanceAs (Decidable (∀ F ∈ i.act.snapshotOf, _))

structure SolventRun (p : FarmingState × History FarmingState Instr) : Prop where
  shared : Shared p.1
  credited_le : ∀ F t, credited F p.2 t = true → t ≤ p.1.slot.val
  solvent : Solvent (fun F t => credited F p.2 t) p.1

/-- What is credited is in the vaults. -/
theorem SolventRun.unclaimed_le {p : FarmingState × History FarmingState Instr}
    (h : SolventRun p) (F m : Pubkey) :
    p.1.unclaimed F m ≤ p.1.ledger.balance (.harvestVault F m) :=
  Nat.le_of_mul_le_mul_left ((Nat.le_add_right _ _).trans (h.solvent F m)) wad_pos

theorem credited_cons : credited F (e :: h) t
    = ((creditsIn F e).any (fun c => c.Covers t) || credited F h t) := List.any_cons

theorem creditsIn_of_none (hi : i.harvests s.slot = none) : creditsIn F ⟨s, i, s'⟩ = [] := by
  unfold creditsIn
  dsimp only
  rw [hi]

theorem creditsIn_of_check {f : Farmer} (hi : i.harvests s.slot = some (k, til))
    (hf : s.farmers.lookup k = some f) (hfarm : s.farms.lookup k.1 = some farm) :
    creditsIn F ⟨s, i, s'⟩ = if k.1 = F then f.credits farm til else [] := by
  unfold creditsIn creditsOf
  dsimp only
  rw [hi]
  dsimp only
  rw [if_pos rfl, hf, hfarm]
  rfl

theorem step_solvent (hp : env.tokenProgram.Lawful)
    {p p' : FarmingState × History FarmingState Instr} (hI : SolventRun p) (hG : KeepsShares p i)
    (h : traced (step env) p i = .ok p') : SolventRun p' := by
  obtain ⟨hstep, htrace⟩ := traced_eq_ok.mp h
  obtain ⟨s', h'⟩ := p'
  dsimp only at hstep htrace
  subst htrace
  obtain ⟨s₁, hh, ha⟩ := step_ok hp hI.shared.custody hstep
  have hs₁ : Shared s₁ := hh.shared hI.shared
  have hs' := step_shared hp hI.shared hstep
  have hslot₁ : s₁.slot = p.1.slot := hh.slot_eq
  have hslot : p.1.slot.val ≤ s'.slot.val := step_slot_le hp hI.shared.custody hstep
  -- crediting
  have hcheck : (∀ F t, credited F (⟨p.1, i, s'⟩ :: p.2) t = true → t ≤ p.1.slot.val)
      ∧ Solvent (fun F t => credited F (⟨p.1, i, s'⟩ :: p.2) t) s₁ := by
    generalize hi : i.harvests p.1.slot = q at hh
    cases hh with
    | none =>
        have hsame : ∀ F t, credited F (⟨p.1, i, s'⟩ :: p.2) t = credited F p.2 t := fun F t => by
          rw [credited_cons, creditsIn_of_none hi, List.any_nil, Bool.false_or]
        simp only [hsame]
        exact ⟨hI.credited_le, hI.solvent⟩
    | @check k til f farm f' hf hfarm htil hcheck =>
        have hF := hI.shared.covers _ _ hfarm
        have hcredits : ∀ F t, credited F (⟨p.1, i, s'⟩ :: p.2) t = (credited F p.2 t
            || if k.1 = F then (f.credits farm til).any (fun c => c.Covers t) else false) := by
          intro F t
          rw [credited_cons, creditsIn_of_check hi hf hfarm, Bool.or_comm]
          split <;> rfl
        refine ⟨fun F t ht => ?_, solvent_check hI.shared hf hfarm hcheck hcredits hI.solvent⟩
        rw [hcredits, Bool.or_eq_true] at ht
        rcases ht with ht | ht
        · exact hI.credited_le F t ht
        · split at ht
          · obtain ⟨c, hmem, hcov⟩ := List.any_eq_true.mp ht
            exact Farmer.credits_le hmem (of_decide_eq_true hcov) hF.chronological hF.latest_le htil
          · cases ht
  obtain ⟨hle, hsol⟩ := hcheck
  refine ⟨hs', fun F t ht => (hle F t ht).trans hslot, ?_⟩
  refine ha.solvent hs₁ hs' (fun F t ht => hslot₁ ▸ hle F t ht) (fun F hF farm hfarm => ?_) hsol
  -- a snapshot comes without a check
  rw [hslot₁]
  have hnone : i.harvests p.1.slot = none := by
    cases i <;> first | rfl | cases hF
  rw [credited_cons, creditsIn_of_none hnone, List.any_nil, Bool.false_or]
  rw [hh.farms_eq] at hfarm
  refine (hG F hF farm hfarm).imp_right (fun hidle m => List.sum_eq_zero (fun x hx => ?_))
  obtain ⟨harvest, hmem, rfl⟩ := List.mem_map.mp hx
  exact hidle harvest (List.mem_filter.mp hmem).1

theorem Genesis.solventRun (hg : Genesis s) : SolventRun (s, []) where
  shared := hg.shared
  credited_le _ _ h := nomatch h
  solvent F m := by
    unfold FarmingState.outstanding FarmingState.unclaimed FarmingState.sumOf
    rw [hg.farms, hg.farmers]
    exact Nat.zero_le _

theorem run_solvent (hp : env.tokenProgram.Lawful) (hg : Genesis s) {is : List Instr}
    (hG : Guarded (traced (step env)) KeepsShares (s, []) is) :
    SolventRun (run (traced (step env)) (s, []) is) :=
  run_invariant (fun _ _ _ hI hGi h => step_solvent hp hI hGi h) hg.solventRun hG

/-- **Harvest vault solvency.** In every run in which no farm takes a
snapshot in a slot that it releases tokens in and has credited a farmer
for, every harvest vault holds at least the credited and unclaimed tokens
of all farmers. -/
theorem harvest_vault_solvent (hp : env.tokenProgram.Lawful) (hg : Genesis s) {is : List Instr}
    (hG : Guarded (traced (step env)) KeepsShares (s, []) is) (F m : Pubkey) :
    (run (step env) s is).unclaimed F m
      ≤ (run (step env) s is).ledger.balance (.harvestVault F m) := by
  have hcovered := (run_solvent hp hg hG).unclaimed_le F m
  rwa [run_traced_fst] at hcovered

/-- Two farmers have staked 50 tokens each, and the farm releases 100 tokens
in each of the slots 11 to 20. -/
def twoEarning : List Instr :=
  openFarm ++ [.tick 5, stakeOf 10 20 50, stakeOf 11 21 50, .tick 10, snapshotNow,
    schedule 11 10 100, .tick 20]

theorem harvest_vault_solvent_sample :
    (run (step sampleEnv) sampleGenesis (twoEarning ++ [updateOf 10, updateOf 11])).unclaimed 1 200
      ≤ (run (step sampleEnv) sampleGenesis (twoEarning ++ [updateOf 10, updateOf 11])
        ).ledger.balance (.harvestVault 1 200) :=
  harvest_vault_solvent Token.Reference.lawful sampleGenesis_genesis
    (by decide +kernel) 1 200

/-- In slot 20 one of them unstakes, and so is credited for the slot, and
then a snapshot counts the 50 tokens that are left: the other one is
credited for all of slot 20, and both for 1050 tokens of 1000. -/
theorem snapshot_overdraws :
    (run (step sampleEnv) sampleGenesis (twoEarning ++ [unstakeOf 10 20 50, snapshotNow, .tick 21,
      updateOf 11, updateOf 10])).unclaimed 1 200 = 1050
    ∧ (run (step sampleEnv) sampleGenesis (twoEarning ++ [unstakeOf 10 20 50, snapshotNow,
      .tick 21, updateOf 11, updateOf 10])).ledger.balance (.harvestVault 1 200) = 1000 := by
  decide +kernel

end SolanaAmm.Farming
