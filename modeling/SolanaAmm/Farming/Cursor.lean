import SolanaAmm.Farming.Harvesting

/-!
# Farming — Cursor

Which slots a farmer has been credited for. The cursor separates them from
those still to come, as long as it does not step back. It does when vested
tokens mature with a snapshot from before the cursor, which takes an
update and a snapshot in the same slot. In every run without such a check
each slot is credited at most once.
-/

namespace SolanaAmm.Farming

open Result Machine

variable {env : Env} {s s₁ s' : FarmingState} {act : Act} {k : FarmerKey} {now til : Slot}
  {farm : Farm} {t : ℕ} {c : Credit}

/-! ## What was credited -/

/-- A slot that a credited period counts a stake in. -/
def Credit.Covers (t : ℕ) (c : Credit) : Prop := c.stake ≠ 0 ∧ c.since ≤ t ∧ t < c.stop

instance : Decidable (c.Covers t) := inferInstanceAs (Decidable (_ ∧ _))

/-- The periods that a step credited the farmer at `k` with. -/
def creditsOf (k : FarmerKey) (e : Event FarmingState Instr) : List Credit :=
  match e.instr.harvests e.before.slot with
  | some (k', til) =>
      if k' = k then
        ((e.before.farmers.lookup k).bind (fun f => (e.before.farms.lookup k.1).map
          (fun farm => f.credits farm til))).getD []
      else []
  | none => []

/-- How many times a slot has been credited. -/
def timesCredited (h : History FarmingState Instr) (k : FarmerKey) (t : ℕ) : ℕ :=
  (h.flatMap (creditsOf k)).countP (fun c => c.Covers t)

theorem timesCredited_cons {h : History FarmingState Instr} {e : Event FarmingState Instr} :
    timesCredited (e :: h) k t
      = (creditsOf k e).countP (fun c => c.Covers t) + timesCredited h k t := by
  rw [timesCredited, List.flatMap_cons, List.countP_append]
  rfl

/-- The check does not step back: what matures does so at the cursor or
later, or there is no stake yet and the update catches up. -/
def Farmer.KeepsCursor (f : Farmer) (farm : Farm) (til : Slot) : Prop :=
  ∀ S ∈ f.matureSnapshot farm, f.calculateNextHarvestFrom ≤ S.startedAt
    ∨ f.staked = 0 ∧ S.startedAt < til ∧ f.calculateNextHarvestFrom.val ≤ til.val + 1

/-- No check of the instruction steps back. -/
def KeepsCursor (s : FarmingState) (i : Instr) : Prop :=
  ∀ h ∈ i.harvests s.slot, ∀ f ∈ s.farmers.lookup h.1, ∀ farm ∈ s.farms.lookup h.1.1,
    f.KeepsCursor farm h.2

instance {f : Farmer} : Decidable (f.KeepsCursor farm til) :=
  inferInstanceAs (Decidable (∀ S ∈ f.matureSnapshot farm, _))

instance {i : Instr} : Decidable (KeepsCursor s i) :=
  inferInstanceAs (Decidable (∀ h ∈ i.harvests s.slot, _))

/-! ## One check -/

namespace Farmer

variable {f f₁ f' : Farmer}

/-- A slot that the farmer will not be credited for any more: it precedes
the cursor, or without a stake the deposit that is next to earn. -/
def Past (f : Farmer) (t : ℕ) : Prop :=
  (f.staked ≠ 0 → t < f.calculateNextHarvestFrom.val)
    ∧ (f.staked = 0 → f.vested ≠ 0 → t ≤ f.vestedAt.val)

/-- What a check does to the stake and to the cursor. -/
structure Checked (f f' : Farmer) (farm : Farm) (til : Slot) : Prop where
  matured : ∀ S, f.matureSnapshot farm = some S →
    f'.staked.val = f.deposited ∧ f'.vested = 0 ∧ f'.calculateNextHarvestFrom.val =
      if til ≤ S.startedAt then S.startedAt.val else til.val + 1
  unripe : f.matureSnapshot farm = none → Updated f f' til

theorem check_checked (h : f.checkVestedPeriodAndUpdateHarvest farm til = .ok f') :
    Checked f f' farm til := by
  obtain ⟨f₁, hm, hu⟩ := check_eq_ok.mp h
  have hu := updateEligibleHarvest_ok hu
  rcases hm.cases with ⟨S, hS, hm⟩ | ⟨hnone, rfl⟩
  · refine ⟨fun S' hS' => ?_, fun hnone => ?_⟩
    · obtain rfl : S = S' := Option.some.inj (hS.symm.trans hS')
      refine ⟨?_, hu.vested.trans hm.vested, ?_⟩
      · rw [hu.staked]
        exact hm.staked
      · rw [hu.cursor, hm.cursor]
    · rw [hS] at hnone
      cases hnone
  · refine ⟨fun S hS => ?_, fun _ => hu⟩
    rw [hnone] at hS
    cases hS

/-- Tokens that mature are a stake. -/
theorem Checked.staked_ne_zero {S : Snapshot} (hc : Checked f f' farm til)
    (hS : f.matureSnapshot farm = some S) : f'.staked ≠ 0 := by
  obtain ⟨hstaked, -, -⟩ := hc.matured S hS
  obtain ⟨hv, -⟩ := matureSnapshot_eq_some.mp hS
  intro h0
  rw [h0, Word.val_zero, deposited] at hstaked
  exact hv (Word.val_eq_zero.mp (by omega))

theorem Checked.started_le {S : Snapshot} (hc : Checked f f' farm til)
    (hS : f.matureSnapshot farm = some S) :
    S.startedAt.val ≤ f'.calculateNextHarvestFrom.val := by
  obtain ⟨-, -, hcursor⟩ := hc.matured S hS
  rw [hcursor]
  split
  · exact Nat.le_refl _
  · rename_i hlt
    rw [Word.le_def, not_le] at hlt
    omega

/-- The cursor moves ahead. -/
theorem Checked.cursor_le (hc : Checked f f' farm til) (hk : f.KeepsCursor farm til) :
    f.calculateNextHarvestFrom ≤ f'.calculateNextHarvestFrom := by
  cases hS : f.matureSnapshot farm with
  | none => exact (hc.unripe hS).cursor_le
  | some S =>
      rcases hk S hS with hle | ⟨-, hlt, hle⟩
      · exact hle.trans (hc.started_le hS)
      · obtain ⟨-, -, hcursor⟩ := hc.matured S hS
        rw [if_neg (not_le.mpr hlt)] at hcursor
        rw [Word.le_def, hcursor]
        exact hle

theorem Checked.cursor_le_succ (hc : Checked f f' farm til) (htil : til ≤ now)
    (hchron : Farm.Chronological farm.windows) (hlatest : farm.latestSnapshot.startedAt ≤ now)
    (hf : f.calculateNextHarvestFrom.val ≤ now.val + 1) :
    f'.calculateNextHarvestFrom.val ≤ now.val + 1 := by
  rw [Word.le_def] at htil
  cases hS : f.matureSnapshot farm with
  | none =>
      rw [(hc.unripe hS).cursor]
      split <;> omega
  | some S =>
      obtain ⟨-, -, hcursor⟩ := hc.matured S hS
      have hmem := Farm.firstSnapshotAfter_mem (matureSnapshot_eq_some.mp hS).2
      have hS' : S.startedAt.val ≤ now.val := (hchron.le_latest hmem).trans hlatest
      rw [hcursor]
      split <;> omega

/-- What is past stays past. -/
theorem Checked.past (hc : Checked f f' farm til) (hk : f.KeepsCursor farm til) (ht : f.Past t) :
    f'.Past t := by
  cases hS : f.matureSnapshot farm with
  | none =>
      have hu := hc.unripe hS
      unfold Past
      rw [hu.staked, hu.vested, hu.vestedAt]
      exact ⟨fun hs => (ht.1 hs).trans_le hu.cursor_le, ht.2⟩
  | some S =>
      obtain ⟨hv, hfirst⟩ := matureSnapshot_eq_some.mp hS
      refine ⟨fun _ => ?_, fun hs => absurd hs (hc.staked_ne_zero hS)⟩
      have hlt : t < S.startedAt.val := by
        by_cases hs : f.staked = 0
        · exact (ht.2 hs hv).trans_lt (Farm.firstSnapshotAfter_lt hfirst)
        · rcases hk S hS with hle | ⟨h0, -⟩
          · exact (ht.1 hs).trans_le hle
          · exact absurd h0 hs
      exact hlt.trans_le (hc.started_le hS)

theorem creditsUntil_covers {cursor : Slot} {stake : ℕ} (hc : c ∈ creditsUntil cursor til stake)
    (ht : c.Covers t) : stake ≠ 0 ∧ cursor.val ≤ t ∧ t < til.val + 1 ∧ cursor < til := by
  unfold creditsUntil at hc
  split at hc
  · cases hc
  · rename_i hlt
    obtain rfl := List.mem_singleton.mp hc
    exact ⟨ht.1, ht.2.1, ht.2.2, not_le.mp hlt⟩

/-- **A credited slot** was not past, and is past now. -/
theorem Checked.covers (hc : Checked f f' farm til) (hk : f.KeepsCursor farm til)
    (hmem : c ∈ f.credits farm til) (ht : c.Covers t) :
    ¬ f.Past t ∧ f'.Past t := by
  unfold credits at hmem
  cases hS : f.matureSnapshot farm with
  | none =>
      rw [hS] at hmem
      obtain ⟨hs, hge, hle, hlt⟩ := creditsUntil_covers hmem ht
      have hu := hc.unripe hS
      have hs : f.staked ≠ 0 := fun h0 => hs (by rw [h0, Word.val_zero])
      refine ⟨fun hp => absurd (hp.1 hs) (not_lt.mpr hge), fun _ => ?_, fun h0 => ?_⟩
      · rw [hu.cursor, if_neg (not_le.mpr hlt)]
        exact hle
      · rw [hu.staked] at h0
        exact absurd h0 hs
  | some S =>
      rw [hS] at hmem
      obtain ⟨hv, hfirst⟩ := matureSnapshot_eq_some.mp hS
      have hstake' := hc.staked_ne_zero hS
      obtain ⟨-, -, hcursor⟩ := hc.matured S hS
      rcases List.mem_cons.mp hmem with rfl | hmem
      · -- before the tokens matured
        have hs : f.staked ≠ 0 := fun h0 => ht.1 (by rw [h0, Word.val_zero])
        refine ⟨fun hp => absurd (hp.1 hs) (not_lt.mpr ht.2.1), fun _ => ?_,
          fun h0 => absurd h0 hstake'⟩
        exact ht.2.2.trans_le (hc.started_le hS)
      · -- from then on
        obtain ⟨-, hge, hle, hlt⟩ := creditsUntil_covers hmem ht
        refine ⟨fun hp => ?_, fun _ => ?_, fun h0 => absurd h0 hstake'⟩
        · by_cases hs : f.staked = 0
          · have := (hp.2 hs hv).trans_lt (Farm.firstSnapshotAfter_lt hfirst)
            exact absurd this (not_lt.mpr hge)
          · rcases hk S hS with hcur | ⟨h0, -⟩
            · exact absurd ((hp.1 hs).trans_le hcur) (not_lt.mpr hge)
            · exact hs h0
        · rw [hcursor, if_neg (not_le.mpr hlt)]
          exact hle

theorem countP_creditsUntil_le {cursor : Slot} {stake : ℕ} :
    (creditsUntil cursor til stake).countP (fun c => c.Covers t) ≤ 1 := by
  unfold creditsUntil
  split
  · exact Nat.zero_le _
  · exact List.countP_le_length

/-- The periods of one check do not overlap. -/
theorem countP_credits_le : (f.credits farm til).countP (fun c => c.Covers t) ≤ 1 := by
  unfold credits
  cases f.matureSnapshot farm with
  | none => exact countP_creditsUntil_le
  | some S =>
      dsimp only
      rw [List.countP_cons]
      split
      · rename_i ht
        have ht := of_decide_eq_true ht
        have hzero : (creditsUntil S.startedAt til f.deposited).countP (fun c => c.Covers t)
            = 0 := by
          rw [List.countP_eq_zero]
          intro c hc
          rw [decide_eq_true_eq]
          intro hcov
          obtain ⟨-, hge, -, -⟩ := creditsUntil_covers hc hcov
          exact absurd ht.2.2 (not_lt.mpr hge)
        rw [hzero]
      · exact countP_creditsUntil_le

theorem credits_le (hmem : c ∈ f.credits farm til) (ht : c.Covers t)
    (hchron : Farm.Chronological farm.windows) (hlatest : farm.latestSnapshot.startedAt ≤ now)
    (htil : til ≤ now) : t ≤ now.val := by
  unfold credits at hmem
  rw [Word.le_def] at htil
  cases hS : f.matureSnapshot farm with
  | none =>
      rw [hS] at hmem
      obtain ⟨-, -, hle, -⟩ := creditsUntil_covers hmem ht
      omega
  | some S =>
      rw [hS] at hmem
      rcases List.mem_cons.mp hmem with rfl | hmem
      · have hin := Farm.firstSnapshotAfter_mem (matureSnapshot_eq_some.mp hS).2
        have hS' : S.startedAt.val ≤ now.val := (hchron.le_latest hin).trans hlatest
        exact (ht.2.2.trans_le hS').le
      · obtain ⟨-, -, hle, -⟩ := creditsUntil_covers hmem ht
        omega

end Farmer

/-! ## One act -/

section Moves

variable {o o' : Option Farmer}

theorem FarmerMoves.past (hm : FarmerMoves act now k o o') (ht : t ≤ now.val)
    (hp : ∀ f, o = some f → f.Past t) : ∀ f', o' = some f' → f'.Past t := by
  intro f' hf'
  subst hf'
  cases hm with
  | created hfresh =>
      exact ⟨fun h => absurd hfresh.staked_eq h, fun _ h => absurd hfresh.vested_eq h⟩
  | @kept f _ same _ =>
      have hp := hp f rfl
      unfold Farmer.Past
      rw [same.staked, same.vested, same.vestedAt, same.cursor]
      exact hp
  | @staked f f₁ _ n _ same hstaked =>
      have hp := hp f rfl
      unfold Farmer.Past
      rw [hstaked.staked, same.staked, hstaked.cursor, same.cursor, hstaked.vestedAt]
      exact ⟨hp.1, fun _ _ => ht⟩
  | @unstaked f _ max n hun _ =>
      have hp := hp f rfl
      unfold Farmer.Past
      rw [hun.cursor, hun.vestedAt]
      have hle := hun.staked_le
      have hvle := hun.vested_le
      refine ⟨fun hs => hp.1 (fun h0 => hs ?_), fun hs hv => hp.2 ?_ (fun h0 => hv ?_)⟩
      · rw [h0, Word.val_zero] at hle
        exact Word.val_eq_zero.mp (Nat.le_zero.mp hle)
      · rw [← hun.staked_eq (fun h0 => hv (Word.val_eq_zero.mp h0))]
        exact hs
      · rw [h0, Word.val_zero] at hvle
        exact Word.val_eq_zero.mp (Nat.le_zero.mp hvle)

/-- Only crediting moves a cursor. -/
theorem FarmerMoves.cursor_eq {f f' : Farmer} (hm : FarmerMoves act now k (some f) (some f')) :
    f'.calculateNextHarvestFrom = f.calculateNextHarvestFrom := by
  cases hm with
  | kept same _ => exact same.cursor
  | staked _ same hstaked => exact hstaked.cursor.trans same.cursor
  | unstaked hun _ => exact hun.cursor

end Moves

/-! ## The invariant -/

/-- Cursors never pass the slot after the current one. -/
def CursorsBound (s : FarmingState) : Prop :=
  ∀ k f, s.farmers.lookup k = some f → f.calculateNextHarvestFrom.val ≤ s.slot.val + 1

theorem step_cursorsBound (hp : env.tokenProgram.Lawful) (hs : Shared s) (hb : CursorsBound s)
    {i : Instr} (h : step env s i = .ok s') : CursorsBound s' := by
  obtain ⟨s₁, hh, ha⟩ := step_ok hp hs.custody h
  intro k f' hf'
  have hslot : s.slot.val ≤ s'.slot.val := step_slot_le hp hs.custody h
  have hb₁ : ∀ f, s₁.farmers.lookup k = some f →
      f.calculateNextHarvestFrom.val ≤ s.slot.val + 1 := by
    intro f₁ hf₁
    rcases hh.farmer k with ⟨heq, -⟩ | ⟨til, f, farm, f₁', -, hf, hfarm, htil, hcheck, hf₁'⟩
    · rw [heq] at hf₁
      exact hb k f₁ hf₁
    · obtain rfl := Option.some.inj (hf₁.symm.trans hf₁')
      have hF := hs.covers _ _ hfarm
      exact (Farmer.check_checked hcheck).cursor_le_succ htil hF.chronological hF.latest_le
        (hb k f hf)
  have hmoves := ha.farmer k
  rw [hf'] at hmoves
  cases hf₁ : s₁.farmers.lookup k with
  | none =>
      rw [hf₁] at hmoves
      cases hmoves with
      | created hfresh =>
          rw [hfresh.cursor, Word.val_zero]
          exact Nat.zero_le _
  | some f₁ =>
      rw [hf₁] at hmoves
      rw [hmoves.cursor_eq]
      exact (hb₁ f₁ hf₁).trans (Nat.succ_le_succ hslot)

/-- What a run without steps back has credited. -/
structure Credited (p : FarmingState × History FarmingState Instr) : Prop where
  shared : Shared p.1
  bound : CursorsBound p.1
  /-- No cursor has moved back. -/
  kept : ∀ e ∈ p.2, ∀ k f f', e.before.farmers.lookup k = some f →
    e.after.farmers.lookup k = some f' → f.calculateNextHarvestFrom ≤ f'.calculateNextHarvestFrom
  once : ∀ k t, timesCredited p.2 k t ≤ 1
  past : ∀ k t, timesCredited p.2 k t ≠ 0 → t ≤ p.1.slot.val
    ∧ ∀ f, p.1.farmers.lookup k = some f → f.Past t

/-- What one step credits the farmer at `k` with. -/
theorem creditsOf_step {i : Instr} (s' : FarmingState) (hh : Harvests s (i.harvests s.slot) s₁) :
    (creditsOf k ⟨s, i, s'⟩ = [] ∧ s₁.farmers.lookup k = s.farmers.lookup k)
    ∨ ∃ til f farm f', i.harvests s.slot = some (k, til) ∧ s.farmers.lookup k = some f
      ∧ s.farms.lookup k.1 = some farm ∧ til ≤ s.slot ∧ f.Checked f' farm til
      ∧ s₁.farmers.lookup k = some f' ∧ creditsOf k ⟨s, i, s'⟩ = f.credits farm til := by
  rcases hh.farmer k with ⟨heq, hne⟩ | ⟨til, f, farm, f', hi, hf, hfarm, htil, hcheck, hf'⟩
  · refine .inl ⟨?_, heq⟩
    unfold creditsOf
    cases hi : i.harvests s.slot with
    | none => rfl
    | some q =>
        obtain ⟨k', til⟩ := q
        exact if_neg (fun he => hne til (by rw [hi, he]))
  · refine .inr ⟨til, f, farm, f', hi, hf, hfarm, htil, Farmer.check_checked hcheck, hf', ?_⟩
    unfold creditsOf
    dsimp only
    rw [hi]
    dsimp only
    rw [if_pos rfl, hf, hfarm]
    rfl

theorem step_credited (hp : env.tokenProgram.Lawful)
    {p p' : FarmingState × History FarmingState Instr} {i : Instr} (hI : Credited p)
    (hG : KeepsCursor p.1 i) (h : traced (step env) p i = .ok p') : Credited p' := by
  obtain ⟨hstep, htrace⟩ := traced_eq_ok.mp h
  obtain ⟨s₁, hh, ha⟩ := step_ok hp hI.shared.custody hstep
  have hslot : p.1.slot.val ≤ p'.1.slot.val := step_slot_le hp hI.shared.custody hstep
  have hslot₁ : s₁.slot = p.1.slot := hh.slot_eq
  refine ⟨step_shared hp hI.shared hstep, step_cursorsBound hp hI.shared hI.bound hstep, ?_, ?_, ?_⟩
  · -- the check moves the cursor forward, and the act leaves it
    intro e he k f f' hf hf'
    rw [htrace] at he
    rcases List.mem_cons.mp he with rfl | he
    · obtain ⟨f₁, hf₁, hle⟩ : ∃ f₁, s₁.farmers.lookup k = some f₁
          ∧ f.calculateNextHarvestFrom ≤ f₁.calculateNextHarvestFrom := by
        rcases creditsOf_step (k := k) p'.1 hh with
          ⟨-, heq⟩ | ⟨til, g, farm, f₁, hi, hg, hfarm, -, hc, hf₁, -⟩
        · exact ⟨f, heq.trans hf, le_rfl⟩
        · obtain rfl := Option.some.inj (hf.symm.trans hg)
          exact ⟨f₁, hf₁, hc.cursor_le (hG _ hi _ hf _ hfarm)⟩
      have hmoves := ha.farmer k
      rw [hf₁, hf'] at hmoves
      rw [hmoves.cursor_eq]
      exact hle
    · exact hI.kept e he k f f' hf hf'
  · intro k t
    rw [htrace, timesCredited_cons]
    have hold := hI.once k t
    rcases creditsOf_step (k := k) p'.1 hh with
      ⟨hnil, -⟩ | ⟨til, f, farm, f₁, hi, hf, hfarm, -, hc, -, hcredits⟩
    · rw [hnil, List.countP_nil]
      omega
    · rw [hcredits]
      have hcount : (f.credits farm til).countP (fun c => c.Covers t) ≤ 1 := f.countP_credits_le
      by_cases hzero : timesCredited p.2 k t = 0
      · omega
      · -- a slot credited before is past and not credited again
        have hpast := (hI.past k t hzero).2 f hf
        have hnone : (f.credits farm til).countP (fun c => c.Covers t) = 0 := by
          rw [List.countP_eq_zero]
          intro c hmem hcov
          exact (hc.covers (hG _ hi _ hf _ hfarm) hmem (of_decide_eq_true hcov)).1 hpast
        omega
  · -- a slot is past once it is credited, and stays so
    intro k t hne
    rw [htrace, timesCredited_cons] at hne
    have hs₁ : t ≤ p.1.slot.val ∧ ∀ f, s₁.farmers.lookup k = some f → f.Past t := by
      rcases creditsOf_step (k := k) p'.1 hh with
        ⟨hnil, heq⟩ | ⟨til, f, farm, f₁, hi, hf, hfarm, htil, hc, hf₁, hcredits⟩
      · rw [hnil, List.countP_nil, Nat.zero_add] at hne
        rw [heq]
        exact hI.past k t hne
      · have hkeep := hG _ hi _ hf _ hfarm
        have hF := hI.shared.covers _ _ hfarm
        rw [hcredits] at hne
        by_cases hzero : timesCredited p.2 k t = 0
        · rw [hzero, Nat.add_zero] at hne
          obtain ⟨c, hmem, hcov⟩ := List.countP_pos_iff.mp (Nat.pos_of_ne_zero hne)
          have hcov := of_decide_eq_true hcov
          refine ⟨Farmer.credits_le hmem hcov hF.chronological hF.latest_le htil, fun g hg => ?_⟩
          obtain rfl := Option.some.inj (hf₁.symm.trans hg)
          exact (hc.covers hkeep hmem hcov).2
        · obtain ⟨hle, hpast⟩ := hI.past k t hzero
          refine ⟨hle, fun g hg => ?_⟩
          obtain rfl := Option.some.inj (hf₁.symm.trans hg)
          exact hc.past hkeep (hpast f hf)
    exact ⟨hs₁.1.trans hslot, (ha.farmer k).past (hslot₁ ▸ hs₁.1) hs₁.2⟩

theorem Genesis.credited (hg : Genesis s) : Credited (s, []) where
  shared := hg.shared
  bound := hg.every_farmer
  kept _ he := nomatch he
  once _ _ := Nat.zero_le _
  past _ _ hne := absurd rfl hne

theorem run_credited (hp : env.tokenProgram.Lawful) (hg : Genesis s) {is : List Instr}
    (hG : Guarded (step env) KeepsCursor s is) :
    Credited (run (traced (step env)) (s, []) is) :=
  run_invariant (G := fun p i => KeepsCursor p.1 i)
    (fun _ _ _ hI hGi h => step_credited hp hI hGi h) hg.credited (guarded_traced.mpr hG)

/-! ## No slot twice -/

/-- **No slot is harvested twice or early.** In every run in which no check
steps back, a farmer's cursor never decreases and never passes the slot
after the current one, each slot has been credited to a farmer at most
once, and a check adds to what can be claimed at most what the periods it
credits are worth. -/
theorem slots_credited_once (hp : env.tokenProgram.Lawful) (hg : Genesis s) {is : List Instr}
    (hG : Guarded (step env) KeepsCursor s is) :
    (∀ e ∈ (run (traced (step env)) (s, []) is).2, ∀ k f f',
      e.before.farmers.lookup k = some f → e.after.farmers.lookup k = some f' →
        f.calculateNextHarvestFrom ≤ f'.calculateNextHarvestFrom)
    ∧ (∀ k f, (run (step env) s is).farmers.lookup k = some f →
      f.calculateNextHarvestFrom.val ≤ (run (step env) s is).slot.val + 1)
    ∧ (∀ k t, timesCredited (run (traced (step env)) (s, []) is).2 k t ≤ 1)
    ∧ ∀ F farm, (run (step env) s is).farms.lookup F = some farm →
      ∀ (f f' : Farmer) til, f.checkVestedPeriodAndUpdateHarvest farm til = .ok f' →
        ∀ m, f'.unclaimed m * wad ≤ f.unclaimed m * wad
          + ((f.credits farm til).map (Credit.worth farm m)).sum := by
  have hI := run_credited hp hg hG
  have hrun : (run (traced (step env)) (s, []) is).1 = run (step env) s is := run_traced_fst _ _
  refine ⟨hI.kept, hrun ▸ hI.bound, hI.once, fun F farm hfarm f f' til hcheck m => ?_⟩
  exact Farmer.unclaimed_check_le ((hrun ▸ hI.shared).covers F farm hfarm).chronological hcheck

/-- A farmer stakes 10 tokens, and 5 more in the window of the first
snapshot. In slot 30 they are updated, and a second snapshot is taken. -/
def sameSlotSnapshot : List Instr :=
  openFarm ++ [.tick 5, stakeOf 10 20 10, .tick 10, snapshotNow, schedule 30 2 100, .tick 11,
    updateOf 10, .tick 20, stakeOf 10 20 5, .tick 30, updateOf 10, snapshotNow]

/-- Until the second snapshot nothing steps back. -/
theorem slots_credited_once_sample :
    timesCredited (run (traced (step sampleEnv)) (sampleGenesis, []) sameSlotSnapshot).2
      (1, 10) 30 = 1 := by
  have hle : timesCredited (run (traced (step sampleEnv)) (sampleGenesis, [])
      sameSlotSnapshot).2 (1, 10) 30 ≤ 1 :=
    (slots_credited_once Token.Reference.lawful sampleGenesis_genesis
      (by decide +kernel)).2.2.1 (1, 10) 30
  have hpos : timesCredited (run (traced (step sampleEnv)) (sampleGenesis, [])
      sameSlotSnapshot).2 (1, 10) 30 ≠ 0 := by decide +kernel
  omega

def cursorOf (s : FarmingState) (k : FarmerKey) : Option Slot :=
  (s.farmers.lookup k).map Farmer.calculateNextHarvestFrom

/-- The next update takes the cursor from slot 31 back to slot 30, and the
one after it credits slot 30 again: 300 tokens are credited in all, of the
200 that the period was funded with. -/
theorem cursor_steps_back :
    cursorOf (run (step sampleEnv) sampleGenesis sameSlotSnapshot) (1, 10) = some 31
    ∧ cursorOf (run (step sampleEnv) sampleGenesis (sameSlotSnapshot ++ [updateOf 10])) (1, 10)
      = some 30
    ∧ timesCredited (run (traced (step sampleEnv)) (sampleGenesis, [])
        (sameSlotSnapshot ++ [updateOf 10, .tick 31, updateOf 10])).2 (1, 10) 30 = 2
    ∧ ((run (step sampleEnv) sampleGenesis (sameSlotSnapshot
        ++ [updateOf 10, .tick 31, updateOf 10])).farmers.lookup (1, 10)).map
          (fun f => f.unclaimed 200) = some 300 := by
  decide +kernel

end SolanaAmm.Farming
