import SolanaAmm.Farming.StakeVault

/-!
# Farming — Shares

A snapshot fixes the tokens that stakes are divided by for its whole
window, while the farmers' tokens mature later, are unstaked and deposited
again. What a farmer can still earn with in a window (`claimOn`) is at
most their deposit when the snapshot was taken, and never grows after
that. So the sum over all farmers stays within the snapshot.
-/

namespace SolanaAmm.Farming

open Result

variable {env : Env} {s s₁ s' : FarmingState} {act : Act} {F : Pubkey} {k : FarmerKey}
  {now til : Slot} {newer older : List Snapshot} {w n : Snapshot} {farm : Farm}

/-! ## What a farmer can still earn with -/

namespace Farmer

variable {f f₁ f' : Farmer}

/-- The cursor stands before the end of the window that these newer
snapshots follow. -/
def Reaches (newer : List Snapshot) (f : Farmer) : Prop :=
  ∀ n ∈ newer, f.calculateNextHarvestFrom < n.startedAt

instance : Decidable (f.Reaches newer) := inferInstanceAs (Decidable (∀ n ∈ newer, _))

/-- The most a farmer can still earn with in the window of `w`: vested
tokens older than `w` count from `w` on, if not from before. -/
def claimOn (newer : List Snapshot) (w : Snapshot) (f : Farmer) : ℕ :=
  if f.vested ≠ 0 ∧ f.vestedAt < w.startedAt then f.deposited
  else if f.Reaches newer then f.staked.val
  else 0

theorem staked_le_deposited : f.staked.val ≤ f.deposited := Nat.le_add_right _ _

theorem claimOn_le : f.claimOn newer w ≤ f.deposited := by
  unfold claimOn
  split
  · exact Nat.le_refl _
  · split
    · exact staked_le_deposited
    · exact Nat.zero_le _

/-- A window that was the latest one is closed. -/
theorem claimOn_cons_le : f.claimOn (n :: newer) w ≤ f.claimOn newer w := by
  unfold claimOn
  split
  · exact Nat.le_refl _
  · by_cases hr : f.Reaches newer
    · rw [if_pos hr]
      split
      · exact Nat.le_refl _
      · exact Nat.zero_le _
    · rw [if_neg (fun h => hr (fun m hm => h m (List.mem_cons_of_mem _ hm)))]
      exact Nat.zero_le _

/-- A cursor that moved ahead, a stake that did not grow, and vested tokens
that are as old as they were, unless they came after the window. -/
theorem claimOn_mono (hc : f.calculateNextHarvestFrom ≤ f'.calculateNextHarvestFrom)
    (hs : f'.staked ≤ f.staked)
    (hv : f'.vested ≠ 0 → f'.vestedAt < w.startedAt →
      (f.vested ≠ 0 ∧ f.vestedAt < w.startedAt) ∧ f'.deposited ≤ f.deposited) :
    f'.claimOn newer w ≤ f.claimOn newer w := by
  by_cases hold : f'.vested ≠ 0 ∧ f'.vestedAt < w.startedAt
  · obtain ⟨h, hle⟩ := hv hold.1 hold.2
    rw [claimOn, if_pos hold, claimOn, if_pos h]
    exact hle
  · rw [claimOn, if_neg hold]
    split
    · rename_i hr
      have hr' : f.Reaches newer := fun n hn => hc.trans_lt (hr n hn)
      unfold claimOn
      rw [if_pos hr']
      split
      · exact (Word.le_def.mp hs).trans staked_le_deposited
      · exact hs
    · exact Nat.zero_le _

theorem SameStake.claimOn_le (h : f.SameStake f') : f'.claimOn newer w ≤ f.claimOn newer w := by
  refine claimOn_mono h.cursor.ge h.staked.le (fun hv hat => ⟨⟨?_, ?_⟩, h.deposited.le⟩)
  · rwa [h.vested] at hv
  · rwa [h.vestedAt] at hat

/-- **The check** never adds to a claim: what matures was claimed on every
window from the snapshot on, and the cursor closes the ones before. -/
theorem check_claimOn_le (hchron : Farm.Chronological farm.windows)
    (hw : farm.windows = newer ++ w :: older)
    (h : f.checkVestedPeriodAndUpdateHarvest farm til = .ok f') :
    f'.claimOn newer w ≤ f.claimOn newer w := by
  obtain ⟨f₁, hm, hu⟩ := check_eq_ok.mp h
  have hu := updateEligibleHarvest_ok hu
  have hupdate : f'.claimOn newer w ≤ f₁.claimOn newer w := by
    refine claimOn_mono hu.cursor_le hu.staked.le (fun hv hat => ⟨⟨?_, ?_⟩, hu.deposited.le⟩)
    · rwa [hu.vested] at hv
    · rwa [hu.vestedAt] at hat
  refine hupdate.trans ?_
  rcases hm.cases with ⟨S, hS, hm⟩ | ⟨-, rfl⟩
  · obtain ⟨hv, hfirst⟩ := matureSnapshot_eq_some.mp hS
    by_cases hat : f.vestedAt < w.startedAt
    · refine claimOn_le.trans (hm.deposited.trans ?_).le
      rw [claimOn, if_pos ⟨hv, hat⟩]
    · -- the window ended before the snapshot that the tokens matured with
      have hlater : w.startedAt < S.startedAt :=
        (not_lt.mp hat).trans_lt (Farm.firstSnapshotAfter_lt hfirst)
      have hmem : S ∈ newer := by
        have hS := Farm.firstSnapshotAfter_mem hfirst
        rw [hw] at hS hchron
        rcases List.mem_append.mp hS with hS | hS
        · exact hS
        · exfalso
          have hpair := (List.pairwise_append.mp hchron).2.1
          rcases List.mem_cons.mp hS with rfl | hS
          · exact lt_irrefl _ hlater
          · exact absurd ((List.pairwise_cons.mp hpair).1 S hS) (not_le.mpr hlater)
      have hclosed : ¬ f₁.Reaches newer := fun hr => by
        have := hr S hmem
        rw [hm.cursor] at this
        exact lt_irrefl _ this
      rw [claimOn, if_neg (fun h => h.1 hm.vested), if_neg hclosed]
      exact Nat.zero_le _
  · exact Nat.le_refl _

end Farmer

/-! ## What an act leaves of it -/

section Moves

variable {o o' : Option Farmer}

theorem FarmerMoves.claimOn_le (hm : FarmerMoves act now k o o') (hw : w.startedAt ≤ now) :
    o'.elim 0 (Farmer.claimOn newer w) ≤ o.elim 0 (Farmer.claimOn newer w) := by
  cases hm with
  | absent => exact Nat.le_refl _
  | created hfresh => exact Farmer.claimOn_le.trans hfresh.deposited.le
  | closed _ => exact Nat.zero_le _
  | kept same _ => exact same.claimOn_le
  | staked _ same hstaked =>
      refine (Farmer.claimOn_mono hstaked.cursor.ge hstaked.staked.le (fun _ hat => ?_)).trans
        same.claimOn_le
      rw [hstaked.vestedAt] at hat
      exact absurd hat (not_lt.mpr hw)
  | unstaked hun _ =>
      refine Farmer.claimOn_mono hun.cursor.ge hun.staked_le (fun hv hat => ⟨⟨?_, ?_⟩, ?_⟩)
      · intro h0
        have := hun.vested_le
        rw [h0] at this
        exact hv (Word.val_eq_zero.mp (Nat.le_zero.mp (this.trans_eq Word.val_zero)))
      · rwa [hun.vestedAt] at hat
      · have := hun.deposited
        omega

/-- Only a deposit adds to what a farmer has in the vault. -/
theorem FarmerMoves.deposited_le (hm : FarmerMoves act now k o o') (hact : act ≠ .deposit k) :
    o'.elim 0 Farmer.deposited ≤ o.elim 0 Farmer.deposited := by
  cases hm with
  | absent => exact Nat.le_refl _
  | created hfresh => exact hfresh.deposited.le
  | closed _ => exact Nat.zero_le _
  | kept same _ => exact same.deposited.le
  | staked hdep _ _ => exact absurd hdep hact
  | unstaked hun _ => exact Nat.le.intro hun.deposited

/-- Nobody's stake grows but by maturing. -/
theorem FarmerMoves.staked_le (hm : FarmerMoves act now k o o') :
    o'.elim 0 (fun f => f.staked.val) ≤ o.elim 0 (fun f => f.staked.val) := by
  cases hm with
  | absent => exact Nat.le_refl _
  | created hfresh => exact Farmer.staked_le_deposited.trans hfresh.deposited.le
  | closed _ => exact Nat.zero_le _
  | kept same _ => exact same.staked.le
  | staked _ same hstaked => exact (hstaked.staked.trans same.staked).le
  | unstaked hun _ => exact hun.staked_le

end Moves

/-! ## The invariant -/

/-- The snapshots of a farm are in order and none is from the future. -/
structure Timely (s : FarmingState) (farm : Farm) : Prop where
  chronological : Farm.Chronological farm.windows
  latest_le : farm.latestSnapshot.startedAt ≤ s.slot

theorem Timely.started_le (ht : Timely s farm) (hw : w ∈ farm.windows) :
    w.startedAt ≤ s.slot :=
  (ht.chronological.le_latest hw).trans ht.latest_le

/-- Every retained snapshot covers what can still be earned with in its
window. -/
structure Covered (s : FarmingState) (F : Pubkey) (farm : Farm) : Prop extends
    Timely s farm where
  covered : ∀ newer w older, farm.windows = newer ++ w :: older →
    s.sumOf F (Farmer.claimOn newer w) ≤ w.staked.val

/-- The deposits are backed and the snapshots cover the claims. -/
structure Shared (s : FarmingState) : Prop extends Sound s where
  covers : ∀ F farm, s.farms.lookup F = some farm → Covered s F farm

theorem Harvests.covered {h : Option (FarmerKey × Slot)} (hh : Harvests s h s₁)
    (hc : ∀ F farm, s.farms.lookup F = some farm → Covered s F farm) :
    ∀ F farm, s₁.farms.lookup F = some farm → Covered s₁ F farm := by
  intro F farm hfarm
  cases hh with
  | none => exact hc F farm hfarm
  | @check k til f farm' f' hf hfarm' _ hcheck =>
      have hF := hc F farm hfarm
      refine ⟨⟨hF.chronological, hF.latest_le⟩, fun newer w older hw => ?_⟩
      refine (sumOf_le (s := s) (fun k' hk' => ?_)).trans (hF.covered newer w older hw)
      show ((s.farmers.insert k f').lookup k').elim 0 _ ≤ _
      by_cases he : k' = k
      · subst he
        subst hk'
        rw [AList.lookup_insert, hf]
        obtain rfl : farm = farm' := Option.some.inj (hfarm.symm.trans hfarm')
        exact Farmer.check_claimOn_le hF.chronological hw hcheck
      · rw [AList.lookup_insert_ne he]

theorem Harvests.shared {h : Option (FarmerKey × Slot)} (hh : Harvests s h s₁) (hs : Shared s) :
    Shared s₁ :=
  ⟨⟨hh.custody hs.custody, hh.backed hs.backed⟩, hh.covered hs.covers⟩

/-- A new farm had no vault, so it has no deposits. -/
theorem Acts.covered_created (ha : Acts act s s') (hs : Backed s) {farm : Farm}
    (hvault : s.ledger.balance (.stakeVault F) = 0) (hsnap : farm.snapshots = default) :
    Covered s' F farm := by
  have hwindows : farm.windows = List.replicate SNAPSHOTS_LEN default := by
    rw [Farm.windows, hsnap]
    exact Farm.windows_default
  have hzero : ∀ w ∈ farm.windows, w = default := fun w hw => by
    rw [hwindows] at hw
    exact List.eq_of_mem_replicate hw
  have hdeposits : s.deposits F = 0 := Nat.le_zero.mp (hvault ▸ hs F)
  refine ⟨⟨?_, ?_⟩, fun newer w older hw => ?_⟩
  · rw [Farm.Chronological, hwindows, List.pairwise_replicate]
    exact .inr le_rfl
  · rw [hzero _ Farm.latestSnapshot_mem]
    exact Nat.zero_le _
  · obtain rfl : w = default := hzero w (by rw [hw]; simp)
    have hclaim : ∀ f : Farmer, f.claimOn newer default ≤ f.staked.val := fun f => by
      rw [Farmer.claimOn, if_neg (fun h => absurd h.2 (not_lt.mpr (Nat.zero_le _)))]
      split
      · exact Nat.le_refl _
      · exact Nat.zero_le _
    have hstaked : s'.sumOf F (Farmer.claimOn newer default)
        ≤ s.sumOf F (fun f => f.staked.val) := by
      refine sumOf_le (fun k _ => ?_)
      refine le_trans ?_ (ha.farmer k).staked_le
      cases s'.farmers.lookup k with
      | none => exact Nat.le_refl _
      | some f => exact hclaim f
    refine hstaked.trans ((sumOf_le (fun k _ => ?_)).trans hdeposits.le)
    cases s.farmers.lookup k with
    | none => exact Nat.le_refl _
    | some f => exact Farmer.staked_le_deposited

/-- While the snapshots stay, no claim on a window grows. -/
theorem Acts.covered_kept (ha : Acts act s s') {farm farm' : Farm} (hF : Covered s F farm)
    (hsnap : farm'.snapshots = farm.snapshots) : Covered s' F farm' := by
  have hwindows : farm'.windows = farm.windows := congrArg RingBuffer.newestFirst hsnap
  have hlatest : farm'.latestSnapshot = farm.latestSnapshot := congrArg RingBuffer.latest hsnap
  refine ⟨⟨?_, ?_⟩, fun newer w older hw => ?_⟩
  · rw [hwindows]
    exact hF.chronological
  · rw [hlatest]
    exact hF.latest_le.trans ha.slot_le
  · rw [hwindows] at hw
    have hstarted : w.startedAt ≤ s.slot := hF.started_le (by rw [hw]; simp)
    exact (sumOf_le (fun k _ => (ha.farmer k).claimOn_le hstarted)).trans
      (hF.covered newer w older hw)

/-- A snapshot counts at least the deposits, and older windows have one
newer window more. -/
theorem Acts.covered_snapshot (ha : Acts act s s') (hact : act = .snapshot F) (hs : Backed s)
    {farm farm' : Farm} {n : TokenAmount} (hF : Covered s F farm)
    (hvault : n.val = s.ledger.balance (.stakeVault F))
    (hsnap : farm.Snapped farm' s.slot n) : Covered s' F farm' := by
  have hwindows := hsnap.windows
  refine ⟨⟨hsnap.chronological hF.chronological, ?_⟩, fun newer w older hw => ?_⟩
  · have hcons := farm'.windows_eq_cons
    rw [hwindows] at hcons
    rw [← (List.cons.inj hcons).1]
    exact ha.slot_le
  · rw [hwindows] at hw
    cases newer with
    | nil =>
        -- the new window
        rw [List.nil_append] at hw
        obtain rfl : _ = w := (List.cons.inj hw).1
        have hdeposits : s'.deposits F ≤ s.deposits F :=
          sumOf_le (fun k _ => (ha.farmer k).deposited_le (by rw [hact]; intro h; cases h))
        refine (sumOf_le (fun k _ => ?_)).trans (hdeposits.trans ((hs F).trans hvault.ge))
        cases s'.farmers.lookup k with
        | none => exact Nat.le_refl _
        | some f => exact Farmer.claimOn_le
    | cons m newer =>
        rw [List.cons_append] at hw
        -- an older window was there before, with one snapshot fewer after it
        obtain ⟨oldest, hold⟩ := Farm.windows_of_dropLast (List.cons.inj hw).2
        have hstarted : w.startedAt ≤ s.slot := hF.started_le (by rw [hold]; simp)
        refine (sumOf_le (fun k _ => ?_)).trans (hF.covered newer w (older ++ [oldest]) hold)
        refine le_trans ?_ ((ha.farmer k).claimOn_le hstarted)
        cases s'.farmers.lookup k with
        | none => exact Nat.le_refl _
        | some f => exact Farmer.claimOn_cons_le

/-- **The act**: claims on the windows there are do not grow, and the vault
covers all deposits when a snapshot counts it. -/
theorem Acts.covered (ha : Acts act s s') (hs : Shared s) :
    ∀ F farm, s'.farms.lookup F = some farm → Covered s' F farm := by
  intro F farm' hfarm'
  have hmoves := ha.farm F
  rw [hfarm'] at hmoves
  generalize ho : s.farms.lookup F = o at hmoves
  cases hmoves with
  | created hvault hsnap _ => exact ha.covered_created hs.backed hvault hsnap
  | kept hsnap _ => exact ha.covered_kept (hs.covers F _ ho) hsnap
  | snapped hact hvault hsnap =>
      exact ha.covered_snapshot hact hs.backed (hs.covers F _ ho) hvault hsnap

theorem step_shared (hp : env.tokenProgram.Lawful) (hs : Shared s) {i : Instr}
    (h : step env s i = .ok s') : Shared s' := by
  obtain ⟨s₁, hh, ha⟩ := step_ok hp hs.custody h
  have hs₁ := hh.shared hs
  exact ⟨⟨ha.custody hs₁.custody, ha.backed hs₁.backed⟩, ha.covered hs₁⟩

theorem Genesis.shared (hg : Genesis s) : Shared s where
  toSound := hg.sound
  covers := hg.every_farm

theorem run_shared (hp : env.tokenProgram.Lawful) (hs : Shared s) (is : List Instr) :
    Shared (Machine.run (step env) s is) :=
  Machine.run_invariant' (fun _ _ _ hI h => step_shared hp hI h) hs is

/-! ## Shares -/

/-- The stake that a check credits the window of `w` with, if it does. -/
def Farmer.stakeIn (farm : Farm) (newer : List Snapshot) (w : Snapshot) (f : Farmer) : ℕ :=
  match f.matureSnapshot farm with
  | some S =>
      if S.startedAt ≤ w.startedAt then f.deposited
      else if f.Reaches newer then f.staked.val
      else 0
  | none => if f.Reaches newer then f.staked.val else 0

theorem Farmer.stakeIn_le {f : Farmer} : f.stakeIn farm newer w ≤ f.claimOn newer w := by
  have hreaches : (if f.Reaches newer then f.staked.val else 0) ≤ f.claimOn newer w := by
    by_cases hr : f.Reaches newer
    · rw [if_pos hr, claimOn, if_pos hr]
      split
      · exact staked_le_deposited
      · exact Nat.le_refl _
    · rw [if_neg hr]
      exact Nat.zero_le _
  unfold stakeIn
  cases hS : f.matureSnapshot farm with
  | none => exact hreaches
  | some S =>
      obtain ⟨hv, hfirst⟩ := matureSnapshot_eq_some.mp hS
      dsimp only
      split
      · rename_i hle
        rw [claimOn, if_pos ⟨hv, (Farm.firstSnapshotAfter_lt hfirst).trans_le hle⟩]
      · exact hreaches

/-- The share of a stake in the tokens of a snapshot, in `10 ^ -18` units. -/
def share (w : Snapshot) (stake : ℕ) : ℕ := stake * wad / w.staked.val

/-- This is the division that `harvestSnapshot` makes. -/
theorem tryDiv_eq_share {staked : TokenAmount} {d : Decimal}
    (h : Decimal.tryDiv (ε := FarmingError) (Decimal.ofU64 staked) (Decimal.ofU64 w.staked)
      = .ok d) : d.raw = share w staked.val := by
  rw [Decimal.tryDiv_eq_ok] at h
  rw [h.2, Decimal.ofU64_raw, Decimal.ofU64_raw, share, Nat.mul_div_mul_right _ _ wad_pos]

/-- The staked tokens, and the vested ones that are older than `w`. -/
def Farmer.earning (w : Snapshot) (f : Farmer) : ℕ :=
  f.staked.val + if f.vestedAt < w.startedAt then f.vested.val else 0

theorem Farmer.earning_le {f : Farmer} : f.earning w ≤ f.claimOn [] w := by
  have hreaches : f.Reaches [] := fun _ h => nomatch h
  unfold earning claimOn
  rw [if_pos hreaches]
  by_cases hv : f.vested = 0
  · rw [hv, Word.val_zero, ite_self, if_neg (fun h => h.1 rfl), Nat.add_zero]
  · by_cases hat : f.vestedAt < w.startedAt
    · rw [if_pos hat, if_pos ⟨hv, hat⟩]
      exact Nat.le_refl _
    · rw [if_neg hat, if_neg (fun h => hat h.2), Nat.add_zero]

/-- **Shares.** In every state that a run of the program reaches, the staked
tokens of all farmers of a farm, together with the vested ones from before
its latest snapshot, are at most the tokens that the snapshot counted; and
in the window of every retained snapshot, the shares that the farmers
would be credited with add up to at most one. -/
theorem earning_le_snapshot (hp : env.tokenProgram.Lawful) {is : List Instr} (hg : Genesis s)
    (hfarm : (Machine.run (step env) s is).farms.lookup F = some farm) :
    (Machine.run (step env) s is).sumOf F (Farmer.earning farm.latestSnapshot)
        ≤ farm.latestSnapshot.staked.val
      ∧ ∀ newer w older, farm.windows = newer ++ w :: older →
        (Machine.run (step env) s is).sumOf F (fun f => share w (f.stakeIn farm newer w))
          ≤ wad := by
  have hcovered := ((run_shared hp hg.shared is).covers F farm hfarm).covered
  constructor
  · refine (sumOf_le (fun k _ => ?_)).trans (hcovered [] _ _ farm.windows_eq_cons)
    cases (Machine.run (step env) s is).farmers.lookup k with
    | none => exact Nat.le_refl _
    | some f => exact Farmer.earning_le
  · intro newer w older hw
    have hclaims := hcovered newer w older hw
    have hshares : (Machine.run (step env) s is).sumOf F (fun f => share w (f.stakeIn farm newer w))
        ≤ (Machine.run (step env) s is).sumOf F (Farmer.stakeIn farm newer w)
          * wad / w.staked.val := sumOf_mul_div_le
    have hstakes : (Machine.run (step env) s is).sumOf F (Farmer.stakeIn farm newer w)
        ≤ w.staked.val := by
      refine (sumOf_le (fun k _ => ?_)).trans hclaims
      cases (Machine.run (step env) s is).farmers.lookup k with
      | none => exact Nat.le_refl _
      | some f => exact Farmer.stakeIn_le
    exact hshares.trans (Nat.div_le_of_le_mul (Nat.mul_le_mul_right _ hstakes))

/-- The two farmers of the sample: one stakes 50 tokens before the snapshot
and 5 after it, the other has unstaked 10 of 30. -/
theorem earning_le_snapshot_two :
    ((Machine.run (step sampleEnv) sampleGenesis (openFarm ++ [.tick 5, stakeOf 10 20 50,
        stakeOf 11 21 30, .tick 10, snapshotNow, .tick 20, stakeOf 10 20 5,
        unstakeOf 11 21 10])).farms.lookup 1).any (fun farm =>
      (Machine.run (step sampleEnv) sampleGenesis (openFarm ++ [.tick 5, stakeOf 10 20 50,
        stakeOf 11 21 30, .tick 10, snapshotNow, .tick 20, stakeOf 10 20 5,
        unstakeOf 11 21 10])).sumOf 1 (Farmer.earning farm.latestSnapshot)
          ≤ farm.latestSnapshot.staked.val
      ∧ (Machine.run (step sampleEnv) sampleGenesis (openFarm ++ [.tick 5, stakeOf 10 20 50,
        stakeOf 11 21 30, .tick 10, snapshotNow, .tick 20, stakeOf 10 20 5,
        unstakeOf 11 21 10])).sumOf 1
          (fun f => share farm.latestSnapshot (f.stakeIn farm [] farm.latestSnapshot)) ≤ wad)
      = true := by
  obtain ⟨farm, hfarm⟩ := Option.isSome_iff_exists.mp (show ((Machine.run (step sampleEnv)
      sampleGenesis (openFarm ++ [.tick 5, stakeOf 10 20 50, stakeOf 11 21 30, .tick 10,
        snapshotNow, .tick 20, stakeOf 10 20 5, unstakeOf 11 21 10])).farms.lookup 1).isSome = true
      by decide +kernel)
  rw [hfarm, Option.any_some, decide_eq_true_eq]
  obtain ⟨hearning, hshares⟩ :=
    earning_le_snapshot Token.Reference.lawful sampleGenesis_genesis hfarm
  exact ⟨hearning, hshares [] _ _ farm.windows_eq_cons⟩

end SolanaAmm.Farming
