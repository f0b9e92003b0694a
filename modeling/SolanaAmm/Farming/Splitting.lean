import SolanaAmm.Farming.Updates

/-!
# Farming — Splitting

Two updates in place of one. A cut through a window makes two roundings
down of one: the two updates together never credit more than the one, and
as much exactly when what is cut off on both sides adds up to less than a
token (`EvenlyCut`). A cut between two windows changes nothing.
-/

namespace SolanaAmm.Farming

open Machine Result Decimal Harvest

variable {farm : Farm} {f f' : Farmer} {rate : ℕ → ℕ} {since stake cut stop : ℕ}
  {ws : List Snapshot} {w : Snapshot} {til t₁ t₂ : Slot} {k : Pubkey}

/-! ## Cutting the windows -/

/-- In the window that the cut goes through, the fractions of a token that
the share is worth on both sides do not add up to one. -/
def EvenlyCut (rate : ℕ → ℕ) (since stake cut : ℕ) : ℕ → List Snapshot → Prop
  | _, [] => True
  | stop, w :: ws =>
      if w.startedAt.val < cut then
        0 < w.startedAt.val → 0 < w.staked.val →
          share w stake * (∑ t ∈ Finset.Ico (max w.startedAt.val since) cut, rate t) % wad
            + share w stake * (∑ t ∈ Finset.Ico cut stop, rate t) % wad < wad
      else EvenlyCut rate since stake cut (min stop w.startedAt.val) ws

/-- One window, cut in two. -/
theorem snapshotTokens_cut (hw : w.startedAt.val < cut) (hsince : since ≤ cut)
    (hstop : cut ≤ stop) :
    ∃ carry, snapshotTokens rate since stake stop w
        = snapshotTokens rate since stake cut w + snapshotTokens rate cut stake stop w + carry
      ∧ (carry = 0 ↔ EvenlyCut rate since stake cut stop (w :: ws)) := by
  unfold snapshotTokens
  rw [EvenlyCut, if_pos hw, Nat.max_eq_right hw.le]
  by_cases hcounts : 0 < w.startedAt.val ∧ 0 < w.staked.val
  · rw [if_pos hcounts, if_pos hcounts, if_pos hcounts]
    have hsum := Finset.sum_Ico_consecutive rate (Nat.max_le.mpr ⟨hw.le, hsince⟩) hstop
    unfold windowTokens
    rw [← hsum, Nat.mul_add]
    generalize share w stake * (∑ t ∈ Finset.Ico (max w.startedAt.val since) cut, rate t) = a
    generalize share w stake * (∑ t ∈ Finset.Ico cut stop, rate t) = b
    refine ⟨_, Nat.add_div wad_pos, ?_⟩
    constructor
    · intro hcarry _ _
      by_contra hle
      rw [if_pos (not_lt.mp hle)] at hcarry
      cases hcarry
    · intro heven
      exact if_neg (not_le.mpr (heven hcounts.1 hcounts.2))
  · rw [if_neg hcounts, if_neg hcounts, if_neg hcounts]
    exact ⟨0, rfl, iff_of_true rfl (fun h h' => absurd ⟨h, h'⟩ hcounts)⟩

/-- **All windows, cut in two**: the parts are worth no more than the
whole, and as much if and only if the cut is even. -/
theorem creditIn_cut (hsince : since ≤ cut) (hstop : cut ≤ stop) :
    ∃ carry, creditIn rate since stake stop ws
        = creditIn rate since stake cut ws + creditIn rate cut stake stop ws + carry
      ∧ (carry = 0 ↔ EvenlyCut rate since stake cut stop ws) := by
  induction ws generalizing stop with
  | nil => exact ⟨0, rfl, iff_of_true rfl trivial⟩
  | cons w ws ih =>
      simp only [creditIn]
      by_cases hw : w.startedAt.val < cut
      · -- older windows are over before the cut
        obtain ⟨carry, hcarry, heven⟩ := snapshotTokens_cut hw hsince hstop
        refine ⟨carry, ?_, heven⟩
        rw [hcarry, Nat.min_eq_right (hw.le.trans hstop), Nat.min_eq_right hw.le,
          creditIn_eq_zero hw.le]
        omega
      · have hle := not_lt.mp hw
        obtain ⟨carry, hcarry, heven⟩ := ih (Nat.le_min.mpr ⟨hstop, hle⟩)
        have hfirst : snapshotTokens rate since stake cut w = 0 :=
          snapshotTokens_eq_zero (hle.trans (le_max_left _ _))
        have hsecond : snapshotTokens rate since stake stop w
            = snapshotTokens rate cut stake stop w := by
          unfold snapshotTokens
          rw [Nat.max_eq_left hle, Nat.max_eq_left (hsince.trans hle)]
        refine ⟨carry, ?_, ?_⟩
        · rw [hcarry, hfirst, hsecond, Nat.min_eq_left hle]
          omega
        · rw [EvenlyCut, if_neg hw]
          exact heven

/-! ## Updated farmers -/

namespace Farmer

theorem check_of_not_vested (hv : f.vested = 0) :
    f.checkVestedPeriodAndUpdateHarvest farm til = f.updateEligibleHarvest farm til := by
  unfold checkVestedPeriodAndUpdateHarvest matureSnapshot
  rw [if_neg (fun h => h hv)]
  rfl

/-- Two farmers that differ in what is written back. -/
theorem setHarvests_inj {u u' : Harvested} (hu : u.size ≤ MAX_HARVEST_MINTS)
    (hsize : u'.size = u.size)
    (h : (f.setHarvests u.toList).harvests = (f'.setHarvests u'.toList).harvests) :
    u.toList = u'.toList := by
  rw [setHarvests_eq hu, setHarvests_eq (hsize ▸ hu)] at h
  refine List.map_injective_iff.mpr ?_ (List.append_inj_left h ?_)
  · rintro ⟨m, n⟩ ⟨m', n'⟩ heq
    cases heq
    rfl
  · rw [List.length_map, List.length_map, Std.TreeMap.length_toList, Std.TreeMap.length_toList,
      hsize]

theorem tokensOf_updated (hfarm : farm.WellKept) (hfits : f.Fits farm til)
    (hk : farm.harvestsMap.contains k = true) :
    tokensOf (f.updated farm til).harvestsMap k
      = if k = default ∧ farm.harvestsMap.size < MAX_HARVEST_MINTS then 0
        else f.earned farm til k := by
  have hsize : (farm.harvestsMap.map
      (fun k _ => (Word.wrap (f.earned farm til k) : TokenAmount))).size = farm.harvestsMap.size :=
    Std.TreeMap.size_map
  have hmem : (farm.harvestsMap.map
      (fun k _ => (Word.wrap (f.earned farm til k) : TokenAmount)))[k]?
      = some (Word.wrap (f.earned farm til k)) := by
    rw [Std.TreeMap.contains_eq_isSome_getElem?] at hk
    obtain ⟨h, hh⟩ := Option.isSome_iff_exists.mp hk
    rw [Std.TreeMap.getElem?_map, hh, Option.map_some]
  have hread := tokensOf_setHarvests (f := f) (k := k)
    (u := farm.harvestsMap.map (fun k _ => Word.wrap (f.earned farm til k)))
    (hsize ▸ farm.size_harvestsMap_le hfarm.slots)
    (by rw [Std.TreeMap.contains_eq_isSome_getElem?, hmem]; rfl)
  rw [hsize, tokensOf_of_getElem? hmem, Word.wrap_val (hfits.2 k hk)] at hread
  exact hread

end Farmer

/-! ## Two updates -/

namespace Farmer

/-- The cut through the window that the first update ends in is even for
every harvest, and the farmer holds nothing for the uninitialised mint
that the padding of their account would overwrite. -/
structure SplitsEvenly (f : Farmer) (farm : Farm) (t₁ t₂ : Slot) : Prop where
  even : ∀ (m : Pubkey) (h : Harvest), m ≠ default → farm.harvestsMap[m]? = some h →
    EvenlyCut h.rateAt f.calculateNextHarvestFrom.val f.staked.val (t₁.val + 1) (t₂.val + 1)
      farm.windows
  padding : farm.harvestsMap.contains default = true → farm.harvestsMap.size < MAX_HARVEST_MINTS →
    tokensOf f.harvestsMap default = 0

/-- What the farm releases, cut in two. -/
theorem gain_cut (hsince : since ≤ cut) (hstop : cut ≤ stop) (k : Pubkey) :
    ∃ carry, farm.gain since stake stop k
        = farm.gain since stake cut k + farm.gain cut stake stop k + carry
      ∧ (carry = 0 ↔ ∀ h, k ≠ default → farm.harvestsMap[k]? = some h →
        EvenlyCut h.rateAt since stake cut stop farm.windows) := by
  unfold Farm.gain
  by_cases hk : k = default
  · simp only [if_pos hk]
    exact ⟨0, rfl, iff_of_true rfl (fun _ hne => absurd hk hne)⟩
  · simp only [if_neg hk]
    cases hget : farm.harvestsMap[k]? with
    | none => exact ⟨0, rfl, iff_of_true rfl (fun _ _ h => by cases h)⟩
    | some harvest =>
        obtain ⟨carry, hcarry, heven⟩ : ∃ carry,
            creditIn harvest.rateAt since stake stop farm.windows
              = creditIn harvest.rateAt since stake cut farm.windows
                + creditIn harvest.rateAt cut stake stop farm.windows + carry
            ∧ (carry = 0 ↔ EvenlyCut harvest.rateAt since stake cut stop farm.windows) :=
          creditIn_cut hsince hstop
        refine ⟨carry, hcarry, heven.trans ⟨fun h _ _ hh => ?_, fun h => h harvest hk rfl⟩⟩
        exact Option.some.inj hh ▸ h

/-- What the first of two updates loses of one mint. -/
theorem earned_updated (hfarm : farm.WellKept) (h₁ : f.calculateNextHarvestFrom < t₁)
    (h₂ : t₁.val + 1 < t₂.val) (hfits : f.Fits farm t₁)
    (hk : farm.harvestsMap.contains k = true) :
    ∃ loss, f.earned farm t₂ k = (f.updated farm t₁).earned farm t₂ k + loss
      ∧ (loss = 0 ↔ (∀ h, k ≠ default → farm.harvestsMap[k]? = some h →
          EvenlyCut h.rateAt f.calculateNextHarvestFrom.val f.staked.val (t₁.val + 1) (t₂.val + 1)
            farm.windows)
        ∧ (k = default → farm.harvestsMap.size < MAX_HARVEST_MINTS →
          tokensOf f.harvestsMap k = 0)) := by
  have hlt := Word.lt_def.mp h₁
  have hcursor : (f.updated farm t₁).calculateNextHarvestFrom.val = t₁.val + 1 :=
    Word.wrap_val hfits.1
  have hupdated : (f.updated farm t₁).earned farm t₂ k
      = tokensOf (f.updated farm t₁).harvestsMap k
        + farm.gain (t₁.val + 1) f.staked.val (t₂.val + 1) k := by
    rw [← hcursor]
    rfl
  rw [hupdated, tokensOf_updated hfarm hfits hk]
  by_cases hpad : k = default ∧ farm.harvestsMap.size < MAX_HARVEST_MINTS
  · have hgain : ∀ since stop, farm.gain since f.staked.val stop k = 0 := fun _ _ => if_pos hpad.1
    refine ⟨tokensOf f.harvestsMap k, ?_, ?_⟩
    · rw [if_pos hpad, earned, hgain, hgain, Nat.add_zero, Nat.zero_add]
    · exact ⟨fun h => ⟨fun _ hne => absurd hpad.1 hne, fun _ _ => h⟩, fun h => h.2 hpad.1 hpad.2⟩
  · obtain ⟨carry, hcarry, heven⟩ := @gain_cut farm f.calculateNextHarvestFrom.val f.staked.val
      (t₁.val + 1) (t₂.val + 1) (by omega) (by omega) k
    refine ⟨carry, ?_, ?_⟩
    · rw [if_neg hpad, earned, earned, hcarry]
      omega
    · exact ⟨fun h => ⟨heven.mp h, fun hk hlt => absurd ⟨hk, hlt⟩ hpad⟩, fun h => heven.mpr h.1⟩

/-- **What two updates earn** is as much as what one earns if and only if
they split evenly. -/
theorem earned_eq_iff (hfarm : farm.WellKept) (h₁ : f.calculateNextHarvestFrom < t₁)
    (h₂ : t₁.val + 1 < t₂.val) (hfits : f.Fits farm t₁) :
    (∀ k : Pubkey, farm.harvestsMap.contains k = true →
        (f.updated farm t₁).earned farm t₂ k = f.earned farm t₂ k) ↔ f.SplitsEvenly farm t₁ t₂ := by
  constructor
  · intro heq
    refine ⟨fun m h hm hh => ?_, fun hc hsize => ?_⟩
    · have hc : farm.harvestsMap.contains m = true := by
        rw [Std.TreeMap.contains_eq_isSome_getElem?, hh]
        rfl
      obtain ⟨loss, hloss, hzero⟩ := earned_updated hfarm h₁ h₂ hfits hc
      have hnone : loss = 0 := by
        have := heq m hc
        omega
      exact (hzero.mp hnone).1 h hm hh
    · obtain ⟨loss, hloss, hzero⟩ := earned_updated hfarm h₁ h₂ hfits hc
      have hnone : loss = 0 := by
        have := heq default hc
        omega
      exact (hzero.mp hnone).2 rfl hsize
  · intro heven k hk
    obtain ⟨loss, hloss, hzero⟩ := earned_updated hfarm h₁ h₂ hfits hk
    have hnone : loss = 0 := by
      refine hzero.mpr ⟨fun h hne hh => heven.even k h hne hh, fun he hsize => ?_⟩
      subst he
      exact heven.padding hk hsize
    omega

/-- Where one update fits, the first of two fits. -/
theorem Fits.first (h₁ : f.calculateNextHarvestFrom < t₁) (h₂ : t₁.val + 1 < t₂.val)
    (hfits : f.Fits farm t₂) : f.Fits farm t₁ := by
  have hlt := Word.lt_def.mp h₁
  refine ⟨by have := hfits.1; omega, fun k hk => lt_of_le_of_lt ?_ (hfits.2 k hk)⟩
  obtain ⟨carry, hcarry, -⟩ := @gain_cut farm f.calculateNextHarvestFrom.val f.staked.val
    (t₁.val + 1) (t₂.val + 1) (by omega) (by omega) k
  rw [earned, earned, hcarry]
  omega

/-- Where one update fits, the second of two fits. -/
theorem Fits.second (hfarm : farm.WellKept) (h₁ : f.calculateNextHarvestFrom < t₁)
    (h₂ : t₁.val + 1 < t₂.val) (hfits : f.Fits farm t₂) : (f.updated farm t₁).Fits farm t₂ := by
  refine ⟨hfits.1, fun k hk => lt_of_le_of_lt ?_ (hfits.2 k hk)⟩
  obtain ⟨loss, hloss, -⟩ := earned_updated hfarm h₁ h₂ (hfits.first h₁ h₂) hk
  omega

theorem updated_eq : f.updated farm til = { f.setHarvests
    (farm.harvestsMap.map (fun k _ => (Word.wrap (f.earned farm til k) : TokenAmount))).toList with
      calculateNextHarvestFrom := Word.wrap (til.val + 1) } := by
  rw [updated]

theorem harvests_updated : (f.updated farm til).harvests = (f.setHarvests
    (farm.harvestsMap.map (fun k _ => Word.wrap (f.earned farm til k))).toList).harvests := by
  rw [updated]

/-- Writing back overwrites what an update has written before. -/
theorem setHarvests_updated (xs : List (Pubkey × TokenAmount)) (next : Slot) :
    ({ (f.updated farm til).setHarvests xs with calculateNextHarvestFrom := next } : Farmer)
      = { f.setHarvests xs with calculateNextHarvestFrom := next } := rfl

/-- The amounts of an update, as they are written back. -/
theorem mem_written {g : Farmer} (hfits : g.Fits farm til)
    (hk : farm.harvestsMap.contains k = true) {v : TokenAmount}
    (h : (k, v) ∈ (farm.harvestsMap.map
      (fun k _ => (Word.wrap (g.earned farm til k) : TokenAmount))).toList) :
    v.val = g.earned farm til k := by
  rw [Maps.mem_toList, Std.TreeMap.getElem?_map] at h
  obtain ⟨harvest, -, hv⟩ := Option.map_eq_some_iff.mp h
  rw [← hv]
  exact Word.wrap_val (hfits.2 k hk)

theorem written_mem (g : Farmer) (til : Slot) (hk : farm.harvestsMap.contains k = true) :
    (k, (Word.wrap (g.earned farm til k) : TokenAmount)) ∈ (farm.harvestsMap.map
      (fun k _ => (Word.wrap (g.earned farm til k) : TokenAmount))).toList := by
  rw [Std.TreeMap.contains_eq_isSome_getElem?] at hk
  obtain ⟨h, hh⟩ := Option.isSome_iff_exists.mp hk
  rw [Maps.mem_toList, Std.TreeMap.getElem?_map, hh, Option.map_some]

theorem earned_of_updated_eq (hfarm : farm.WellKept) (hfits : f.Fits farm t₂)
    (hfits' : (f.updated farm t₁).Fits farm t₂)
    (heq : (f.updated farm t₁).updated farm t₂ = f.updated farm t₂)
    (hk : farm.harvestsMap.contains k = true) :
    (f.updated farm t₁).earned farm t₂ k = f.earned farm t₂ k := by
  have hsize : ∀ g : Farmer, (farm.harvestsMap.map
      (fun k _ => (Word.wrap (g.earned farm t₂ k) : TokenAmount))).size = farm.harvestsMap.size :=
    fun _ => Std.TreeMap.size_map
  have hharvests := congrArg Farmer.harvests heq
  rw [harvests_updated, harvests_updated] at hharvests
  have hlist := setHarvests_inj
    ((hsize (f.updated farm t₁)).le.trans (farm.size_harvestsMap_le hfarm.slots))
    ((hsize f).trans (hsize (f.updated farm t₁)).symm) hharvests
  have hmem := written_mem (f.updated farm t₁) t₂ hk
  rw [hlist] at hmem
  exact (Word.wrap_val (hfits'.2 k hk)).symm.trans (mem_written hfits hk hmem)

theorem updated_eq_of_earned (heq : ∀ k : Pubkey, farm.harvestsMap.contains k = true →
      (f.updated farm t₁).earned farm t₂ k = f.earned farm t₂ k) :
    (f.updated farm t₁).updated farm t₂ = f.updated farm t₂ := by
  have hlist : (farm.harvestsMap.map
        (fun k _ => (Word.wrap ((f.updated farm t₁).earned farm t₂ k) : TokenAmount))).toList
      = (farm.harvestsMap.map
        (fun k _ => (Word.wrap (f.earned farm t₂ k) : TokenAmount))).toList := by
    refine Maps.toList_congr (fun k => ?_)
    rw [Std.TreeMap.getElem?_map, Std.TreeMap.getElem?_map]
    cases hget : farm.harvestsMap[k]? with
    | none => rw [Option.map_none, Option.map_none]
    | some h =>
        rw [Option.map_some, Option.map_some, heq k (by
          rw [Std.TreeMap.contains_eq_isSome_getElem?, hget]
          rfl)]
  have hfirst : (f.updated farm t₁).updated farm t₂ = _ := updated_eq
  rw [hlist, setHarvests_updated, ← updated_eq] at hfirst
  exact hfirst

/-- Two farmers after an update until the same slot, of which one has been
updated before. -/
theorem updated_eq_iff (hfarm : farm.WellKept) (hfits : f.Fits farm t₂)
    (hfits' : (f.updated farm t₁).Fits farm t₂) :
    (f.updated farm t₁).updated farm t₂ = f.updated farm t₂ ↔
      ∀ k : Pubkey, farm.harvestsMap.contains k = true →
        (f.updated farm t₁).earned farm t₂ k = f.earned farm t₂ k :=
  ⟨fun heq _ hk => earned_of_updated_eq hfarm hfits hfits' heq hk, updated_eq_of_earned⟩

end Farmer

/-- Where the two updates split evenly, the one fits if they do. -/
theorem Farmer.SplitsEvenly.fits (hfarm : farm.WellKept) (h₁ : f.calculateNextHarvestFrom < t₁)
    (h₂ : t₁.val + 1 < t₂.val) (heven : f.SplitsEvenly farm t₁ t₂) (hfits₁ : f.Fits farm t₁)
    (hfits₂ : (f.updated farm t₁).Fits farm t₂) : f.Fits farm t₂ := by
  refine ⟨hfits₂.1, fun k hk => ?_⟩
  rw [← (Farmer.earned_eq_iff hfarm h₁ h₂ hfits₁).mpr heven k hk]
  exact hfits₂.2 k hk

/-- **Two updates in place of one.** For every farm that is kept as the
program keeps every farm, and every farmer without vested tokens: where an
update until `t₂` succeeds, an update until `t₁` and then one until `t₂`
succeed too, and leave the farmer in the same state if and only if they
split evenly; where they split evenly and succeed, so does the one. -/
theorem updates_split_iff {e : Env} (hp : e.tokenProgram.Lawful) :
    (∀ s, Genesis s → ∀ is F farm,
      (Machine.run (step e) s is).farms.lookup F = some farm → farm.WellKept)
    ∧ ∀ (farm : Farm) (f : Farmer) (t₁ t₂ : Slot), farm.WellKept → f.vested = 0 →
        f.calculateNextHarvestFrom < t₁ → t₁.val + 1 < t₂.val →
        (∀ f', f.checkVestedPeriodAndUpdateHarvest farm t₂ = .ok f' →
          ∃ f₁ f₂, f.checkVestedPeriodAndUpdateHarvest farm t₁ = .ok f₁
            ∧ f₁.checkVestedPeriodAndUpdateHarvest farm t₂ = .ok f₂
            ∧ (f₂ = f' ↔ f.SplitsEvenly farm t₁ t₂))
        ∧ (f.SplitsEvenly farm t₁ t₂ → ∀ f₁ f₂,
          f.checkVestedPeriodAndUpdateHarvest farm t₁ = .ok f₁ →
          f₁.checkVestedPeriodAndUpdateHarvest farm t₂ = .ok f₂ →
          f.checkVestedPeriodAndUpdateHarvest farm t₂ = .ok f₂) := by
  refine ⟨fun s hg is F farm hfarm => run_wellKept hp hg is hfarm, ?_⟩
  intro farm f t₁ t₂ hfarm hv h₁ h₂
  have hlt := Word.lt_def.mp h₁
  have h₂' : f.calculateNextHarvestFrom < t₂ := Word.lt_def.mpr (by omega)
  have hv₁ : (f.updated farm t₁).vested = 0 := hv
  have hcursor : f.Fits farm t₁ → (f.updated farm t₁).calculateNextHarvestFrom < t₂ := by
    intro hfits
    rw [Word.lt_def]
    exact (Word.wrap_val hfits.1).trans_lt h₂
  rw [Farmer.check_of_not_vested hv, Farmer.check_of_not_vested hv]
  simp only [Farmer.updateEligibleHarvest_eq_ok hfarm h₁,
    Farmer.updateEligibleHarvest_eq_ok hfarm h₂']
  constructor
  · -- if the whole update fits, so do its two parts
    rintro _ ⟨hfits, rfl⟩
    have hfits₁ := hfits.first h₁ h₂
    have hfits₂ := hfits.second hfarm h₁ h₂
    refine ⟨f.updated farm t₁, (f.updated farm t₁).updated farm t₂, ⟨hfits₁, rfl⟩, ?_, ?_⟩
    · rw [Farmer.check_of_not_vested hv₁,
        Farmer.updateEligibleHarvest_eq_ok hfarm (hcursor hfits₁)]
      exact ⟨hfits₂, rfl⟩
    · exact (Farmer.updated_eq_iff hfarm hfits hfits₂).trans
        (Farmer.earned_eq_iff hfarm h₁ h₂ hfits₁)
  · rintro heven _ f₂ ⟨hfits₁, rfl⟩ h
    rw [Farmer.check_of_not_vested hv₁,
      Farmer.updateEligibleHarvest_eq_ok hfarm (hcursor hfits₁)] at h
    obtain ⟨hfits₂, rfl⟩ := h
    have hfits := heven.fits hfarm h₁ h₂ hfits₁ hfits₂
    exact ⟨hfits, (Farmer.updated_eq_iff hfarm hfits hfits₂).mpr
      ((Farmer.earned_eq_iff hfarm h₁ h₂ hfits₁).mpr heven)⟩

/-! ## Half a token a slot -/

/-- Two farmers share one token a slot in the slots 11 to 20, and one of
them is updated in slot 11. -/
def halfATokenASlot : List Instr :=
  openFarm ++ [.tick 5, stakeOf 10 20 50, stakeOf 11 21 50, .tick 10, snapshotNow,
    schedule 11 10 1, .tick 11, updateOf 10, .tick 20]

/-- Anyone updates the farmer until these slots, one after the other. -/
def afterUpdates (tils : List Slot) : Option Farmer :=
  (run (step sampleEnv) sampleGenesis (halfATokenASlot
    ++ tils.map (fun til => .updateEligibleHarvestUntil 1 (1, 10) til))).farmers.lookup (1, 10)

def halfFarm : Farm :=
  ((run (step sampleEnv) sampleGenesis halfATokenASlot).farms.lookup 1).getD default

def halfFarmer : Farmer := (afterUpdates []).getD default

/-- Cut after four slots, the update splits evenly. -/
theorem updates_split_even : halfFarmer.SplitsEvenly halfFarm 15 17 := by
  have hproved := updates_split_iff (e := sampleEnv) Token.Reference.lawful
  have hkept : ((run (step sampleEnv) sampleGenesis halfATokenASlot).farms.lookup 1).isSome
      = true := by decide +kernel
  have hlookup : (run (step sampleEnv) sampleGenesis halfATokenASlot).farms.lookup 1
      = some halfFarm := by
    rw [halfFarm, ← Option.get_eq_getD (h := hkept), Option.some_get]
  have hfarm := hproved.1 _ sampleGenesis_genesis halfATokenASlot 1 _ hlookup
  obtain ⟨f', hsingle, hsame⟩ : ∃ f',
      halfFarmer.checkVestedPeriodAndUpdateHarvest halfFarm 17 = .ok f'
      ∧ (do
          let f ← halfFarmer.checkVestedPeriodAndUpdateHarvest halfFarm 15
          f.checkVestedPeriodAndUpdateHarvest halfFarm 17) = .ok f' := by
    refine ⟨((afterUpdates [17]).getD default), ?_, ?_⟩ <;> decide +kernel
  obtain ⟨f₁, f₂, h₁, h₂, heven⟩ := (hproved.2 halfFarm halfFarmer 15 17 hfarm (by decide +kernel)
    (by decide +kernel) (by decide)).1 f' hsingle
  rw [h₁, ok_bind, h₂] at hsame
  exact heven.mp (Except.ok.inj hsame)

/-- Cut after three slots, a token is lost: one for three slots and one for
three slots, in place of three for six. -/
theorem split_update_loses_token :
    (afterUpdates []).map (fun f => (f.vested.val, f.calculateNextHarvestFrom.val))
        = some (0, 12)
    ∧ (afterUpdates [17]).map (fun f => f.unclaimed 200) = some 3
    ∧ (afterUpdates [14, 17]).map (fun f => f.unclaimed 200) = some 2 := by
  decide +kernel

end SolanaAmm.Farming
