import SolanaAmm.Farming.Cursor

/-!
# Farming — Projection

A change of a stake must not reach back: every slot up to the current one
has to be credited before it. A check leaves the cursor behind the current
slot unless it finds it, or puts it, at the current slot: the update skips
a cursor that equals the slot, although the cursor is inclusive.
-/

namespace SolanaAmm.Farming

open Result Machine

variable {env : Env} {s s₁ s' : FarmingState} {act : Act} {k : FarmerKey} {now til : Slot}
  {farm : Farm} {i : Instr} {t : ℕ} {c : Credit}

/-- Whose staked or vested tokens an instruction changes after a check. -/
def Instr.stakes : Instr → Option FarmerKey
  | .startFarming accs _ => some accs.farmer
  | .stopFarming accs _ => some accs.farmer
  | .compoundSameFarm accs => some accs.farmer
  | _ => none

/-- The check comes first, and until the current slot. -/
theorem Instr.harvests_of_stakes (h : i.stakes = some k) : i.harvests now = some (k, now) := by
  cases i with
  | startFarming accs _ => cases h; rfl
  | stopFarming accs _ => cases h; rfl
  | compoundSameFarm accs => cases h; rfl
  | _ => cases h

namespace Farmer

/-- The update does not stop at the current slot: neither the cursor is
there, nor do tokens mature with a snapshot of this slot. -/
def Settles (f : Farmer) (farm : Farm) (now : Slot) : Prop :=
  match f.matureSnapshot farm with
  | some S => S.startedAt ≠ now
  | none => f.calculateNextHarvestFrom ≠ now

instance {f : Farmer} : Decidable (f.Settles farm now) := by
  unfold Settles
  split <;> infer_instance

/-- What matures does so at the cursor or later. -/
def MaturesAhead (f : Farmer) (farm : Farm) : Prop :=
  ∀ S ∈ f.matureSnapshot farm, f.calculateNextHarvestFrom ≤ S.startedAt

instance {f : Farmer} : Decidable (f.MaturesAhead farm) :=
  inferInstanceAs (Decidable (∀ S ∈ f.matureSnapshot farm, _))

variable {f f' : Farmer}

theorem advanced_iff {cursor : Slot} (h : cursor.val ≤ now.val + 1) :
    (if now ≤ cursor then cursor.val else now.val + 1) = now.val + 1 ↔ cursor ≠ now := by
  rw [Ne, Word.ext_iff]
  split
  · rename_i hle
    rw [Word.le_def] at hle
    omega
  · rename_i hlt
    rw [Word.le_def] at hlt
    omega

/-- **The cursor after a check** stands behind the current slot exactly if
the update did not stop at it. -/
theorem Checked.cursor_eq_succ_iff (hc : Checked f f' farm now)
    (hchron : Farm.Chronological farm.windows) (hlatest : farm.latestSnapshot.startedAt ≤ now)
    (hf : f.calculateNextHarvestFrom.val ≤ now.val + 1) :
    f'.calculateNextHarvestFrom.val = now.val + 1 ↔ f.Settles farm now := by
  unfold Settles
  cases hS : f.matureSnapshot farm with
  | none =>
      rw [(hc.unripe hS).cursor]
      exact advanced_iff hf
  | some S =>
      obtain ⟨-, -, hcursor⟩ := hc.matured S hS
      have hmem := Farm.firstSnapshotAfter_mem (matureSnapshot_eq_some.mp hS).2
      have hS' : S.startedAt.val ≤ now.val := (hchron.le_latest hmem).trans hlatest
      rw [hcursor]
      exact advanced_iff (hS'.trans (Nat.le_succ _))

/-- No slot up to `t` will be credited any more: the cursor is behind it,
or the deposit that is next to earn came later. -/
def SettledAt (f : Farmer) (t : ℕ) : Prop :=
  t < f.calculateNextHarvestFrom.val ∨ f.staked = 0 ∧ (f.vested = 0 ∨ t ≤ f.vestedAt.val)

/-- What matures ahead does so after a settled slot. -/
theorem SettledAt.lt_started {S : Snapshot} (ht : f.SettledAt t) (ha : f.MaturesAhead farm)
    (hS : f.matureSnapshot farm = some S) : t < S.startedAt.val := by
  obtain ⟨hv, hfirst⟩ := matureSnapshot_eq_some.mp hS
  rcases ht with ht | ⟨-, h0 | ht⟩
  · exact ht.trans_le (ha S hS)
  · exact absurd h0 hv
  · exact ht.trans_lt (Farm.firstSnapshotAfter_lt hfirst)

theorem Checked.settledAt (hc : Checked f f' farm til) (ha : f.MaturesAhead farm)
    (ht : f.SettledAt t) : f'.SettledAt t := by
  cases hS : f.matureSnapshot farm with
  | none =>
      have hu := hc.unripe hS
      unfold SettledAt
      rw [hu.staked, hu.vested, hu.vestedAt]
      exact ht.imp_left (fun h => h.trans_le hu.cursor_le)
  | some S => exact .inl ((ht.lt_started ha hS).trans_le (hc.started_le hS))

/-- Only later slots are credited. -/
theorem SettledAt.lt_of_covers {u : ℕ} (ht : f.SettledAt t) (ha : f.MaturesAhead farm)
    (hmem : c ∈ f.credits farm til) (hu : c.Covers u) : t < u := by
  have hcursor : f.staked.val ≠ 0 → f.calculateNextHarvestFrom.val ≤ u → t < u := by
    intro hs hle
    rcases ht with ht | ⟨h0, -⟩
    · exact ht.trans_le hle
    · rw [h0, Word.val_zero] at hs
      exact absurd rfl hs
  unfold credits at hmem
  cases hS : f.matureSnapshot farm with
  | none =>
      rw [hS] at hmem
      obtain ⟨hs, hge, -, -⟩ := creditsUntil_covers hmem hu
      exact hcursor hs hge
  | some S =>
      rw [hS] at hmem
      rcases List.mem_cons.mp hmem with rfl | hmem
      · exact hcursor hu.1 hu.2.1
      · obtain ⟨-, hge, -, -⟩ := creditsUntil_covers hmem hu
        exact (ht.lt_started ha hS).trans_le hge

end Farmer

theorem FarmerMoves.settledAt {o o' : Option Farmer} (hm : FarmerMoves act now k o o')
    (ht : t ≤ now.val) (hp : ∀ f, o = some f → f.SettledAt t) :
    ∀ f', o' = some f' → f'.SettledAt t := by
  intro f' hf'
  subst hf'
  cases hm with
  | created hfresh =>
      exact .inr ⟨hfresh.staked_eq, .inl hfresh.vested_eq⟩
  | @kept f _ same _ =>
      have hp := hp f rfl
      unfold Farmer.SettledAt
      rwa [same.staked, same.vested, same.vestedAt, same.cursor]
  | @staked f f₁ _ n _ same hstaked =>
      unfold Farmer.SettledAt
      rw [hstaked.staked, same.staked, hstaked.cursor, same.cursor, hstaked.vestedAt]
      exact (hp f rfl).imp_right (fun h => ⟨h.1, .inr ht⟩)
  | @unstaked f _ max n hun _ =>
      unfold Farmer.SettledAt
      rw [hun.cursor, hun.vestedAt]
      refine (hp f rfl).imp_right (fun h => ⟨?_, h.2.imp_left (fun h0 => ?_)⟩)
      · have hle := hun.staked_le
        rw [h.1, Word.val_zero] at hle
        exact Word.val_eq_zero.mp (Nat.le_zero.mp hle)
      · have hle := hun.vested_le
        rw [h0, Word.val_zero] at hle
        exact Word.val_eq_zero.mp (Nat.le_zero.mp hle)

/-! ## Runs -/

/-- An instruction that changes a stake settles it first, and no check
steps back. -/
def Settling (s : FarmingState) (i : Instr) : Prop :=
  (∀ k ∈ i.stakes, ∀ f ∈ s.farmers.lookup k, ∀ farm ∈ s.farms.lookup k.1, f.Settles farm s.slot)
  ∧ ∀ h ∈ i.harvests s.slot, ∀ f ∈ s.farmers.lookup h.1, ∀ farm ∈ s.farms.lookup h.1.1,
    f.MaturesAhead farm

instance : Decidable (Settling s i) := inferInstanceAs (Decidable (_ ∧ _))

/-- The later step credits no slot up to that of the earlier one to a farmer
whose stake that one changed. -/
def CreditsLater (later earlier : Event FarmingState Instr) : Prop :=
  ∀ k, earlier.instr.stakes = some k → ∀ c ∈ creditsOf k later, ∀ t, c.Covers t →
    earlier.before.slot.val < t

/-- What a run of settling instructions has done. -/
structure Settled (p : FarmingState × History FarmingState Instr) : Prop where
  shared : Shared p.1
  bound : CursorsBound p.1
  cursor : ∀ e ∈ p.2, ∀ k f', e.instr.stakes = some k → e.after.farmers.lookup k = some f' →
    f'.calculateNextHarvestFrom.val = e.before.slot.val + 1
  settled : ∀ e ∈ p.2, ∀ k, e.instr.stakes = some k → e.before.slot.val ≤ p.1.slot.val
    ∧ ∀ f, p.1.farmers.lookup k = some f → f.SettledAt e.before.slot.val
  later : p.2.Pairwise CreditsLater

/-- **One change of a stake**, from a state with sound cursors. -/
theorem step_cursor_iff (hp : env.tokenProgram.Lawful) (hs : Shared s) (hb : CursorsBound s)
    {f f' : Farmer} (hi : i.stakes = some k) (h : step env s i = .ok s')
    (hf : s.farmers.lookup k = some f) (hfarm : s.farms.lookup k.1 = some farm)
    (hf' : s'.farmers.lookup k = some f') :
    f'.calculateNextHarvestFrom.val = s.slot.val + 1 ↔ f.Settles farm s.slot := by
  obtain ⟨s₁, hh, ha⟩ := step_ok hp hs.custody h
  rw [Instr.harvests_of_stakes hi] at hh
  rcases hh.farmer k with ⟨-, hne⟩ | ⟨til, g, farm', f₁, htil, hg, hfarm', -, hcheck, hf₁⟩
  · exact absurd rfl (hne _)
  · cases htil
    obtain rfl := Option.some.inj (hf.symm.trans hg)
    obtain rfl := Option.some.inj (hfarm.symm.trans hfarm')
    have hmoves := ha.farmer k
    rw [hf₁, hf'] at hmoves
    rw [hmoves.cursor_eq]
    have hF := hs.covers _ _ hfarm
    exact (Farmer.check_checked hcheck).cursor_eq_succ_iff hF.chronological hF.latest_le
      (hb k f hf)

theorem step_settled (hp : env.tokenProgram.Lawful)
    {p p' : FarmingState × History FarmingState Instr} (hI : Settled p)
    (hG : Settling p.1 i) (h : traced (step env) p i = .ok p') : Settled p' := by
  obtain ⟨hstep, htrace⟩ := traced_eq_ok.mp h
  obtain ⟨s₁, hh, ha⟩ := step_ok hp hI.shared.custody hstep
  have hslot : p.1.slot.val ≤ p'.1.slot.val := step_slot_le hp hI.shared.custody hstep
  have hslot₁ : s₁.slot = p.1.slot := hh.slot_eq
  -- the new step leaves the cursor behind the slot
  have hnew : ∀ k f', i.stakes = some k → p'.1.farmers.lookup k = some f' →
      f'.calculateNextHarvestFrom.val = p.1.slot.val + 1 := by
    intro k f' hi hf'
    have hharvests := hh
    rw [Instr.harvests_of_stakes hi] at hharvests
    rcases hharvests.farmer k with ⟨-, hne⟩ | ⟨til, f, farm, f₁, -, hf, hfarm, -⟩
    · exact absurd rfl (hne _)
    · exact (step_cursor_iff hp hI.shared hI.bound hi hstep hf hfarm hf').mpr
        (hG.1 k hi f hf farm hfarm)
  -- what was settled stays settled
  have hkept : ∀ k t, t ≤ p.1.slot.val → (∀ f, p.1.farmers.lookup k = some f → f.SettledAt t) →
      ∀ f', p'.1.farmers.lookup k = some f' → f'.SettledAt t := by
    intro k t ht hset
    refine (ha.farmer k).settledAt (hslot₁ ▸ ht) (fun f₁ hf₁ => ?_)
    rcases creditsOf_step (k := k) p'.1 hh with
      ⟨-, heq⟩ | ⟨til, f, farm, g, hi, hf, hfarm, -, hc, hg, -⟩
    · exact hset f₁ (heq.symm.trans hf₁)
    · obtain rfl := Option.some.inj (hf₁.symm.trans hg)
      exact hc.settledAt (hG.2 _ hi f hf farm hfarm) (hset f hf)
  refine ⟨step_shared hp hI.shared hstep, step_cursorsBound hp hI.shared hI.bound hstep, ?_, ?_, ?_⟩
  · intro e he k f' hi hf'
    rw [htrace] at he
    rcases List.mem_cons.mp he with rfl | he
    · exact hnew k f' hi hf'
    · exact hI.cursor e he k f' hi hf'
  · intro e he k hi
    rw [htrace] at he
    rcases List.mem_cons.mp he with rfl | he
    · refine ⟨hslot, fun f' hf' => .inl ?_⟩
      rw [hnew k f' hi hf']
      exact Nat.lt_succ_self _
    · obtain ⟨hle, hset⟩ := hI.settled e he k hi
      exact ⟨hle.trans hslot, hkept k _ hle hset⟩
  · rw [htrace]
    refine List.pairwise_cons.mpr ⟨fun e he k hi c hmem t hcov => ?_, hI.later⟩
    obtain ⟨hle, hset⟩ := hI.settled e he k hi
    rcases creditsOf_step (k := k) p'.1 hh with
      ⟨hnil, -⟩ | ⟨til, f, farm, g, hj, hf, hfarm, -, -, -, hcredits⟩
    · rw [hnil] at hmem
      cases hmem
    · rw [hcredits] at hmem
      exact (hset f hf).lt_of_covers (hG.2 _ hj f hf farm hfarm) hmem hcov

theorem Genesis.settled (hg : Genesis s) : Settled (s, []) where
  shared := hg.shared
  bound := hg.every_farmer
  cursor _ he := nomatch he
  settled _ he := nomatch he
  later := List.Pairwise.nil

theorem run_settled (hp : env.tokenProgram.Lawful) (hg : Genesis s) {is : List Instr}
    (hG : Guarded (step env) Settling s is) :
    Settled (run (traced (step env)) (s, []) is) :=
  run_invariant (G := fun p i => Settling p.1 i)
    (fun _ _ _ hI hGi h => step_settled hp hI hGi h) hg.settled (guarded_traced.mpr hG)

theorem run_cursorsBound (hp : env.tokenProgram.Lawful) (hg : Genesis s) (is : List Instr) :
    CursorsBound (run (step env) s is) :=
  (run_invariant' (I := fun t => Shared t ∧ CursorsBound t)
    (fun _ _ _ hI h => ⟨step_shared hp hI.1 h, step_cursorsBound hp hI.1 hI.2 h⟩)
    ⟨hg.shared, hg.credited.bound⟩ is).2

/-- **No projection into the past.** In every state that a run reaches, an
instruction that changes a farmer's stake leaves their cursor behind the
current slot exactly if its update did not stop at the slot. In every run
of settling instructions, all of them do, and no slot up to the one of a
change is credited to the farmer after it. -/
theorem stake_changes_settle (hp : env.tokenProgram.Lawful) (hg : Genesis s) :
    (∀ is i k s' f farm f', i.stakes = some k →
      step env (run (step env) s is) i = .ok s' →
      (run (step env) s is).farmers.lookup k = some f →
      (run (step env) s is).farms.lookup k.1 = some farm →
      s'.farmers.lookup k = some f' →
        (f'.calculateNextHarvestFrom.val = (run (step env) s is).slot.val + 1
          ↔ f.Settles farm (run (step env) s is).slot))
    ∧ ∀ is, Guarded (step env) Settling s is →
      (∀ e ∈ (run (traced (step env)) (s, []) is).2, ∀ k f', e.instr.stakes = some k →
        e.after.farmers.lookup k = some f' →
          f'.calculateNextHarvestFrom.val = e.before.slot.val + 1)
      ∧ (run (traced (step env)) (s, []) is).2.Pairwise CreditsLater := by
  refine ⟨fun is i k s' f farm f' hi h hf hfarm hf' => ?_, fun is hG => ?_⟩
  · exact step_cursor_iff hp (run_shared hp hg.shared is) (run_cursorsBound hp hg is) hi h hf
      hfarm hf'
  · exact ⟨(run_settled hp hg hG).cursor, (run_settled hp hg hG).later⟩

/-- A farmer with 100 staked tokens in slot 20. -/
def stakedInSlot20 : List Instr :=
  openFarm ++ [.tick 5, stakeOf 10 20 100, .tick 10, snapshotNow, schedule 20 10 100, .tick 15,
    updateOf 10, .tick 20]

/-- Unstaking settles first. -/
theorem stake_changes_settle_unstake :
    (run (traced (step sampleEnv)) (sampleGenesis, [])
      (stakedInSlot20 ++ [unstakeOf 10 20 50])).2.Pairwise CreditsLater :=
  ((stake_changes_settle Token.Reference.lawful sampleGenesis_genesis).2 _
    (by decide +kernel)).2

/-- Anyone can update the farmer until the slot before; then the farmer
unstakes. -/
def unstakeAfterUntil (unstakeMax : TokenAmount) : List Instr :=
  stakedInSlot20 ++ [.updateEligibleHarvestUntil 1 (1, 10) 19, unstakeOf 10 20 unstakeMax]

/-- The cursor stays at slot 20, and slot 20 is credited afterwards, with
what is left of the stake: half of it, or a fifth. -/
theorem unstake_projects_back :
    cursorOf (run (step sampleEnv) sampleGenesis (unstakeAfterUntil 50)) (1, 10) = some 20
    ∧ ((run (step sampleEnv) sampleGenesis (unstakeAfterUntil 50 ++ [.tick 21, updateOf 10])
      ).farmers.lookup (1, 10)).map (fun f => f.unclaimed 200) = some 100
    ∧ ((run (step sampleEnv) sampleGenesis (unstakeAfterUntil 80 ++ [.tick 21, updateOf 10])
      ).farmers.lookup (1, 10)).map (fun f => f.unclaimed 200) = some 40 := by
  decide +kernel

end SolanaAmm.Farming
