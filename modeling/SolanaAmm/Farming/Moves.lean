import SolanaAmm.Farming.Steps

/-!
# Farming — Moves

The acts seen from one farmer (`FarmerMoves`) and from one farm
(`FarmMoves`), and the first consequence of the steps: the vaults stay in
the custody of the program along every run.
-/

namespace SolanaAmm.Farming

open Result Token

variable {env : Env} {s s₁ s' : FarmingState} {act : Act} {F : Pubkey} {k : FarmerKey}
  {h : Option (FarmerKey × Slot)}

/-! ## Custody is kept -/

section Custody

variable {l' : Ledger Address Pubkey} {inflow outflow : Address → ℕ}

theorem Custody.flow (hc : Custody s) (hflow : Flow s.ledger l' inflow outflow) :
    Custody (s.setLedger l') where
  vaults := hflow.vaultsHeld hc.vaults
  farm F farm hfarm := (hc.farm F farm hfarm).imp_right
    (hflow.held (.stakeVault F) farm.stakeMint rfl)
  farmer := hc.farmer

theorem Custody.init (hc : Custody s) {v : Address} {m : Pubkey}
    (hinit : Initialized s.ledger l' v m v.signer) : Custody (s.setLedger l') where
  vaults w hw := by
    by_cases he : w = v
    · subst he
      exact .inr ⟨m, _, hinit.created, rfl, rfl, rfl, rfl⟩
    · exact (hc.vaults w hw).imp (hinit.others w he).trans
        (fun ⟨m, hm⟩ => ⟨m, hm.congr (hinit.others w he)⟩)
  farm F farm hfarm := by
    refine (hc.farm F farm hfarm).imp_right (fun hheld => hheld.congr (hinit.others _ ?_))
    rintro rfl
    obtain ⟨a, ha, -⟩ := hheld
    rw [hinit.absent] at ha
    cases ha
  farmer := hc.farmer

theorem Custody.close (hc : Custody s) {m : Pubkey}
    (hclosed : Closed s.ledger l' (.harvestVault F m) (.farmSigner F)) :
    Custody (s.setLedger l') where
  vaults w hw := by
    by_cases he : w = .harvestVault F m
    · subst he
      exact .inl hclosed.removed
    · exact (hc.vaults w hw).imp (hclosed.others w he).trans
        (fun ⟨m, hm⟩ => ⟨m, hm.congr (hclosed.others w he)⟩)
  farm F farm hfarm := (hc.farm F farm hfarm).imp_right
    (fun hheld => hheld.congr (hclosed.others _ (by intro he; cases he)))
  farmer := hc.farmer

theorem Custody.setFarm (hc : Custody s) {farm : Farm}
    (hfarm : farm.stakeVault = .stakeVault F
      ∧ Held s.ledger (.stakeVault F) farm.stakeMint (.farmSigner F)) :
    Custody (s.setFarm F farm) where
  vaults := hc.vaults
  farm := Store.forall_insert hc.farm hfarm
  farmer := hc.farmer

theorem Custody.setFarmer (hc : Custody s) {f : Farmer} (hf : f.farm = k.1) :
    Custody (s.setFarmer k f) where
  vaults := hc.vaults
  farm := hc.farm
  farmer := Store.forall_insert hc.farmer hf

theorem Harvests.custody (hc : Custody s) (hh : Harvests s h s₁) : Custody s₁ := by
  cases hh with
  | none => exact hc
  | check hf _ _ hcheck =>
      exact hc.setFarmer ((Farmer.check_deposited hcheck).2.trans (hc.farmer _ _ hf))

/-- A new mint takes a free slot. -/
theorem addHarvest_cases {farm farm' : Farm} {m : Pubkey} {v : Address}
    (h : farm.addHarvest m v = .ok farm') :
    (∀ h ∈ farm.harvests, h.mint ≠ m) ∧ m ≠ default
      ∧ ∃ old, farm.findHarvest default = some old
        ∧ farm' = farm.setHarvest default ⟨m, v, .replicate _ default⟩ := by
  simp only [Farm.addHarvest, bind_eq_ok, okOr_eq_ok, ensure_eq_ok, pure_eq_ok] at h
  obtain ⟨-, hnew, old, hfind, rfl⟩ := h
  have hall : ∀ h ∈ farm.harvests, h.mint ≠ m := fun h hh he =>
    hnew (List.any_eq_true.mpr ⟨h, hh, decide_eq_true he⟩)
  refine ⟨hall, ?_, old, hfind, rfl⟩
  rintro rfl
  exact hall old (List.mem_of_find?_eq_some hfind) (by simpa using List.find?_some hfind)

theorem addHarvest_sameStake {farm farm' : Farm} {m : Pubkey} {v : Address}
    (h : farm.addHarvest m v = .ok farm') :
    farm'.stakeMint = farm.stakeMint ∧ farm'.stakeVault = farm.stakeVault
      ∧ farm'.snapshots = farm.snapshots := by
  obtain ⟨-, -, _, -, rfl⟩ := addHarvest_cases h
  exact ⟨rfl, rfl, rfl⟩

theorem Acts.custody (hc : Custody s) (ha : Acts act s s') : Custody s' := by
  cases ha with
  | tick _ => exact ⟨hc.vaults, hc.farm, hc.farmer⟩
  | whitelist => exact ⟨hc.vaults, hc.farm, hc.farmer⟩
  | token hflow => exact hc.flow hflow
  | settings hfarm same =>
      refine hc.setFarm ?_
      rw [same.stakeVault, same.stakeMint]
      exact hc.farm _ _ hfarm
  | createFarm hnew hinit =>
      exact (hc.init hinit).setFarm ⟨rfl, _, hinit.created, rfl, rfl, rfl, rfl⟩
  | addHarvest hfarm hadd hinit =>
      have hc' := hc.init hinit
      obtain ⟨hmint, hvault, -⟩ := addHarvest_sameStake hadd
      refine hc'.setFarm ?_
      rw [hvault, hmint]
      exact hc'.farm _ _ hfarm
  | removeHarvest hfarm hfind hclosed =>
      have hheld := (hc.close hclosed).farm _ _ hfarm
      exact (hc.close hclosed).setFarm hheld
  | period hfarm hfind hsched hflow =>
      have hheld := (hc.flow hflow).farm _ _ hfarm
      exact (hc.flow hflow).setFarm hheld
  | snapshot hfarm hvault hsnap =>
      have hheld := hc.farm _ _ hfarm
      rw [hsnap.pushed]
      exact hc.setFarm hheld
  | createFarmer hnew hfresh => exact hc.setFarmer hfresh.farm
  | closeFarmer hf _ _ =>
      refine ⟨hc.vaults, hc.farm, fun k' g hg => ?_⟩
      exact hc.farmer k' g (Store.lookup_of_erase hg)
  | stake hf hstaked hflow =>
      exact (hc.flow hflow).setFarmer (hstaked.farm.trans (hc.farmer _ _ hf))
  | unstake hf hunstaked hflow =>
      exact (hc.flow hflow).setFarmer (hunstaked.farm.trans (hc.farmer _ _ hf))
  | claim hf same hpaid hothers hflow =>
      exact (hc.flow hflow).setFarmer (same.farm.trans (hc.farmer _ _ hf))
  | @compound _ k₁ f₁ m _ _ _ _ _ hf₁ hfind hf₂ hstaked hflow =>
      have hfarm₁ : (f₁.setHarvestTokens m 0).farm = k₁.1 := (hc.farmer k₁ f₁ hf₁ :)
      have hc' := (hc.flow hflow).setFarmer hfarm₁
      exact hc'.setFarmer (hstaked.farm.trans (hc'.farmer _ _ hf₂))
  | @airdrop _ k f m _ t _ _ hf hfind ht hflow =>
      have hfarm : (f.setHarvestTokens m t).farm = k.1 := (hc.farmer k f hf :)
      exact (hc.flow hflow).setFarmer hfarm

/-- Every step keeps the vaults in custody. -/
theorem step_custody (hp : env.tokenProgram.Lawful) (hc : Custody s) {i : Instr}
    (h : step env s i = .ok s') : Custody s' := by
  obtain ⟨s₁, hh, ha⟩ := step_ok hp hc h
  exact ha.custody (hh.custody hc)

end Custody

/-- The state before the program is used: no farms, no farmers, and no
account at a derived address. -/
structure Genesis (s : FarmingState) : Prop where
  farms : s.farms = ∅
  farmers : s.farmers = ∅
  vaults : ∀ v : Address, v.isKey = false → s.ledger.accounts.lookup v = none

theorem Genesis.every_farm (hg : Genesis s) {P : Pubkey → Farm → Prop} :
    ∀ F farm, s.farms.lookup F = some farm → P F farm := by
  intro F farm hfarm
  rw [hg.farms] at hfarm
  cases hfarm

theorem Genesis.every_farmer (hg : Genesis s) {P : FarmerKey → Farmer → Prop} :
    ∀ k f, s.farmers.lookup k = some f → P k f := by
  intro k f hf
  rw [hg.farmers] at hf
  cases hf

theorem Genesis.custody (hg : Genesis s) : Custody s where
  vaults v hv := .inl (hg.vaults v hv)
  farm := hg.every_farm
  farmer := hg.every_farmer

/-! ## Sums over the farmers of a farm -/

/-- A quantity of the farmers of the farm `F`. -/
def ofFarm (F : Pubkey) (g : Farmer → ℕ) (k : FarmerKey) (f : Farmer) : ℕ :=
  if k.1 = F then g f else 0

def FarmingState.sumOf (s : FarmingState) (F : Pubkey) (g : Farmer → ℕ) : ℕ :=
  Store.total (ofFarm F g) s.farmers

/-- What grows for no farmer does not grow in sum. -/
theorem sumOf_le {g g' : Farmer → ℕ} (h : ∀ k : FarmerKey, k.1 = F →
    (s'.farmers.lookup k).elim 0 g' ≤ (s.farmers.lookup k).elim 0 g) :
    s'.sumOf F g' ≤ s.sumOf F g := by
  refine Store.total_le_of_lookup (fun k => ?_)
  by_cases he : k.1 = F
  · have hk := h k he
    have hof : ∀ g : Farmer → ℕ, ofFarm F g k = g := fun g => funext (fun _ => if_pos he)
    rwa [hof, hof]
  · have hof : ∀ g : Farmer → ℕ, ofFarm F g k = fun _ => 0 := fun g => funext (fun _ => if_neg he)
    rw [hof, hof]
    cases s'.farmers.lookup k <;> exact Nat.zero_le _

theorem sumOf_mul_div_le {g : Farmer → ℕ} {a d : ℕ} :
    s.sumOf F (fun f => g f * a / d) ≤ s.sumOf F g * a / d := by
  refine le_trans (Nat.le_of_eq ?_) (Store.total_mul_div_le _ _ a d)
  refine Store.total_congr (fun k f _ => ?_)
  unfold ofFarm
  split
  · rfl
  · rw [Nat.zero_mul, Nat.zero_div]

/-! ## One farmer -/

/-- What an act does to the farmer at one address. -/
inductive FarmerMoves (act : Act) (now : Slot) (k : FarmerKey) :
    Option Farmer → Option Farmer → Prop
  | absent : FarmerMoves act now k none none
  | created {f} (hfresh : Fresh k f) : FarmerMoves act now k none (some f)
  | closed {f} (hdeposited : f.deposited = 0) : FarmerMoves act now k (some f) none
  | kept {f f'} (same : f.SameStake f') (hact : act ≠ .deposit k) :
      FarmerMoves act now k (some f) (some f')
  | staked {f f₁ f' n} (hact : act = .deposit k) (same : f.SameStake f₁)
      (hstaked : f₁.Staked f' now n) : FarmerMoves act now k (some f) (some f')
  | unstaked {f f' max n} (hunstaked : f.Unstaked f' max n) (hact : act ≠ .deposit k) :
      FarmerMoves act now k (some f) (some f')

theorem Farmer.SameStake.refl (f : Farmer) : f.SameStake f := ⟨rfl, rfl, rfl, rfl, rfl⟩

/-- A farmer whose account is not touched. -/
theorem FarmerMoves.same {now : Slot} {o : Option Farmer} (hact : act ≠ .deposit k) :
    FarmerMoves act now k o o := by
  cases o with
  | none => exact .absent
  | some f => exact .kept (.refl f) hact

/-- An act on the farmer at `k` alone. -/
theorem FarmerMoves.of_insert {now : Slot} {t : Store FarmerKey Farmer} {k' : FarmerKey}
    {f' : Farmer} (hk : FarmerMoves act now k' (t.lookup k') (some f'))
    (hother : k ≠ k' → act ≠ .deposit k) :
    FarmerMoves act now k (t.lookup k) ((t.insert k' f').lookup k) := by
  by_cases he : k = k'
  · subst he
    rwa [AList.lookup_insert]
  · rw [AList.lookup_insert_ne he]
    exact .same (hother he)

theorem Acts.farmer (ha : Acts act s s') (k : FarmerKey) :
    FarmerMoves act s.slot k (s.farmers.lookup k) (s'.farmers.lookup k) := by
  have hother : Act.other ≠ .deposit k := by
    intro h
    cases h
  have hne : ∀ {k' : FarmerKey}, k ≠ k' → Act.deposit k' ≠ .deposit k := by
    rintro k' hk ⟨⟩
    exact hk rfl
  cases ha with
  | tick _ => exact .same hother
  | whitelist => exact .same hother
  | token _ => exact .same hother
  | settings _ _ => exact .same hother
  | createFarm _ _ => exact .same hother
  | addHarvest _ _ _ => exact .same hother
  | removeHarvest _ _ _ => exact .same hother
  | period _ _ _ _ => exact .same hother
  | snapshot _ _ _ => exact .same (by intro h; cases h)
  | createFarmer hnew hfresh =>
      refine .of_insert ?_ (fun _ => hother)
      rw [hnew]
      exact .created hfresh
  | @closeFarmer _ k' _ hf hdeposited _ =>
      show FarmerMoves _ _ k (s.farmers.lookup k) ((s.farmers.erase k').lookup k)
      by_cases he : k = k'
      · subst he
        rw [hf, AList.lookup_erase]
        exact .closed hdeposited
      · rw [AList.lookup_erase_ne he]
        exact .same hother
  | stake hf hstaked _ =>
      refine .of_insert ?_ hne
      rw [hf]
      exact .staked rfl (.refl _) hstaked
  | unstake hf hunstaked _ =>
      refine .of_insert ?_ (fun _ => hother)
      rw [hf]
      exact .unstaked hunstaked (by intro h; cases h)
  | claim hf same _ _ _ =>
      refine .of_insert ?_ (fun _ => hother)
      rw [hf]
      exact .kept same (by intro h; cases h)
  | @compound _ k₁ f₁ m n k₂ f₂ f₂' _ hf₁ _ hf₂ hstaked _ =>
      show FarmerMoves _ _ k (s.farmers.lookup k)
        (((s.farmers.insert k₁ (f₁.setHarvestTokens m 0)).insert k₂ f₂').lookup k)
      by_cases hk₂ : k = k₂
      · subst hk₂
        rw [AList.lookup_insert]
        rcases Store.lookup_insert_cases hf₂ with ⟨rfl, rfl⟩ | ⟨-, hf₂⟩
        · rw [hf₁]
          exact .staked rfl Farmer.sameStake_setHarvestTokens hstaked
        · rw [hf₂]
          exact .staked rfl (.refl _) hstaked
      · rw [AList.lookup_insert_ne hk₂]
        by_cases hk₁ : k = k₁
        · subst hk₁
          rw [AList.lookup_insert, hf₁]
          exact .kept Farmer.sameStake_setHarvestTokens (hne hk₂)
        · rw [AList.lookup_insert_ne hk₁]
          exact .same (hne hk₂)
  | airdrop hf _ _ _ =>
      refine .of_insert ?_ (fun _ => hother)
      rw [hf]
      exact .kept Farmer.sameStake_setHarvestTokens (by intro h; cases h)

/-! ## One farm -/

/-- What an act does to the snapshots of one farm. -/
inductive FarmMoves (act : Act) (s : FarmingState) (F : Pubkey) :
    Option Farm → Option Farm → Prop
  | absent : FarmMoves act s F none none
  | created {farm} (hvault : s.ledger.balance (.stakeVault F) = 0)
      (hsnap : farm.snapshots = default) (hact : act ≠ .snapshot F) :
      FarmMoves act s F none (some farm)
  | kept {farm farm'} (hsnap : farm'.snapshots = farm.snapshots) (hact : act ≠ .snapshot F) :
      FarmMoves act s F (some farm) (some farm')
  | snapped {farm farm' n} (hact : act = .snapshot F)
      (hvault : n.val = s.ledger.balance (.stakeVault F))
      (hsnap : Farm.Snapped farm farm' s.slot n) : FarmMoves act s F (some farm) (some farm')

theorem FarmMoves.same {o : Option Farm} (hact : act ≠ .snapshot F) : FarmMoves act s F o o := by
  cases o with
  | none => exact .absent
  | some farm => exact .kept rfl hact

theorem FarmMoves.of_insert {t : Store Pubkey Farm} {G : Pubkey} {g : Farm}
    (hG : FarmMoves act s G (t.lookup G) (some g)) (hother : F ≠ G → act ≠ .snapshot F) :
    FarmMoves act s F (t.lookup F) ((t.insert G g).lookup F) := by
  by_cases he : F = G
  · subst he
    rwa [AList.lookup_insert]
  · rw [AList.lookup_insert_ne he]
    exact .same (hother he)

theorem Acts.farm (ha : Acts act s s') (F : Pubkey) :
    FarmMoves act s F (s.farms.lookup F) (s'.farms.lookup F) := by
  have hother : Act.other ≠ .snapshot F := by
    intro h
    cases h
  cases ha with
  | tick _ => exact .same hother
  | whitelist => exact .same hother
  | token _ => exact .same hother
  | settings hfarm same =>
      refine .of_insert ?_ (fun _ => hother)
      rw [hfarm]
      exact .kept same.snapshots (by intro h; cases h)
  | createFarm hnew hinit =>
      refine .of_insert ?_ (fun _ => hother)
      rw [hnew]
      refine .created ?_ rfl (by intro h; cases h)
      rw [Ledger.balance, hinit.absent]
  | addHarvest hfarm hadd _ =>
      refine .of_insert ?_ (fun _ => hother)
      rw [hfarm]
      exact .kept (addHarvest_sameStake hadd).2.2 (by intro h; cases h)
  | removeHarvest hfarm _ _ =>
      refine .of_insert ?_ (fun _ => hother)
      rw [hfarm]
      exact .kept rfl (by intro h; cases h)
  | period hfarm _ _ _ =>
      refine .of_insert ?_ (fun _ => hother)
      rw [hfarm]
      exact .kept rfl (by intro h; cases h)
  | @snapshot _ G _ _ _ hfarm hvault hsnap =>
      refine .of_insert ?_ ?_
      · rw [hfarm]
        exact .snapped rfl hvault hsnap
      · rintro he ⟨⟩
        exact he rfl
  | createFarmer _ _ => exact .same hother
  | closeFarmer _ _ _ => exact .same hother
  | stake _ _ _ => exact .same (by intro h; cases h)
  | unstake _ _ _ => exact .same hother
  | claim _ _ _ _ _ => exact .same hother
  | compound _ _ _ _ _ => exact .same (by intro h; cases h)
  | airdrop _ _ _ _ => exact .same hother

/-- **The rule for farms**: what holds of a new farm and survives a change of
its settings, of one of its harvests and a snapshot holds of every farm. -/
theorem Acts.everyFarm {P : Farm → Prop}
    (hnew : ∀ {F m admin},
      P { (default : Farm) with admin, stakeMint := m, stakeVault := .stakeVault F })
    (hsettings : ∀ {farm farm'}, P farm → SameFarm farm farm' → P farm')
    (hadd : ∀ {farm farm' m v}, P farm → farm.addHarvest m v = .ok farm' → P farm')
    (hremove : ∀ {farm m h}, P farm → farm.findHarvest m = some h → P (farm.setHarvest m default))
    (hperiod : ∀ {farm m h h' p old now}, P farm → farm.findHarvest m = some h →
      Scheduled now h h' p old → P (farm.setHarvest m h'))
    (hsnap : ∀ {farm farm' now n}, P farm → Farm.Snapped farm farm' now n → P farm')
    (ha : Acts act s s') (hs : ∀ F farm, s.farms.lookup F = some farm → P farm) :
    ∀ F farm, s'.farms.lookup F = some farm → P farm := by
  cases ha with
  | tick _ => exact hs
  | whitelist => exact hs
  | token _ => exact hs
  | settings hfarm same => exact Store.forall_insert hs (hsettings (hs _ _ hfarm) same)
  | createFarm _ _ => exact Store.forall_insert hs hnew
  | addHarvest hfarm h _ => exact Store.forall_insert hs (hadd (hs _ _ hfarm) h)
  | removeHarvest hfarm hfind _ => exact Store.forall_insert hs (hremove (hs _ _ hfarm) hfind)
  | period hfarm hfind hsched _ =>
      exact Store.forall_insert hs (hperiod (hs _ _ hfarm) hfind hsched)
  | snapshot hfarm _ h => exact Store.forall_insert hs (hsnap (hs _ _ hfarm) h)
  | createFarmer _ _ => exact hs
  | closeFarmer _ _ _ => exact hs
  | stake _ _ _ => exact hs
  | unstake _ _ _ => exact hs
  | claim _ _ _ _ _ => exact hs
  | compound _ _ _ _ _ => exact hs
  | airdrop _ _ _ _ => exact hs

/-- The clock does not go back. -/
theorem Acts.slot_le (ha : Acts act s s') : s.slot ≤ s'.slot := by
  cases ha with
  | tick h => exact h
  | _ => exact le_rfl

theorem Harvests.slot_eq (hh : Harvests s h s₁) : s₁.slot = s.slot := by
  cases hh <;> rfl

theorem step_slot_le (hp : env.tokenProgram.Lawful) (hc : Custody s) {i : Instr}
    (h : step env s i = .ok s') : s.slot ≤ s'.slot := by
  obtain ⟨s₁, hh, ha⟩ := step_ok hp hc h
  rw [← hh.slot_eq]
  exact ha.slot_le

/-- Whether the harvest of the farmer at `k` was checked. -/
theorem Harvests.farmer (hh : Harvests s h s₁) (k : FarmerKey) :
    (s₁.farmers.lookup k = s.farmers.lookup k ∧ ∀ til, h ≠ some (k, til))
    ∨ ∃ til f farm f', h = some (k, til) ∧ s.farmers.lookup k = some f
      ∧ s.farms.lookup k.1 = some farm ∧ til ≤ s.slot
      ∧ f.checkVestedPeriodAndUpdateHarvest farm til = .ok f'
      ∧ s₁.farmers.lookup k = some f' := by
  cases hh with
  | none => exact .inl ⟨rfl, fun _ h => nomatch h⟩
  | @check k' til f farm f' hf hfarm htil hcheck =>
      by_cases he : k = k'
      · subst he
        exact .inr ⟨til, f, farm, f', rfl, hf, hfarm, htil, hcheck, AList.lookup_insert _⟩
      · refine .inl ⟨AList.lookup_insert_ne he, fun til' h => he ?_⟩
        cases h
        rfl

theorem Harvests.farms_eq (hh : Harvests s h s₁) : s₁.farms = s.farms := by
  cases hh <;> rfl

end SolanaAmm.Farming
