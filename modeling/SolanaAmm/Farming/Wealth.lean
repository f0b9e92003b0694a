import SolanaAmm.Farming.Outcomes
import SolanaAmm.Farming.Solvency

/-!
# Farming — Wealth

What the program owes a user of one mint: the deposits of the user's
farmers in the farms that stake it, and the credited tokens of it in the
farms that harvest it. Bots update and compound for anybody, and admins
reconfigure their farms; none of this takes anything from a user. Only the
user spends, on their own signature. An admin may drop a mint once its
vault is empty, which takes nothing as long as the vault covers what is
credited.
-/

namespace SolanaAmm.Farming

open Result Token Machine Slots

variable {env : Env} {s s' : FarmingState} {A F M m : Pubkey} {k : FarmerKey} {i : Instr}
  {f f' : Farmer} {farm farm' : Farm} {l : Ledger Address Pubkey}

/-- The farm harvests the mint. -/
def Farm.Lists (farm : Farm) (M : Pubkey) : Prop :=
  M ≠ default ∧ ∃ h ∈ farm.harvests, h.mint = M

instance (farm : Farm) (M : Pubkey) : Decidable (farm.Lists M) :=
  inferInstanceAs (Decidable (_ ∧ _))

/-- What a farm owes a farmer of a mint. -/
def Farm.owes (farm : Farm) (M : Pubkey) (f : Farmer) : ℕ :=
  (if farm.stakeMint = M then f.deposited else 0) + (if farm.Lists M then f.unclaimed M else 0)

/-- What the user `A` is owed through the farmer at `k`. -/
def FarmingState.owes (s : FarmingState) (A M : Pubkey) (k : FarmerKey) (f : Farmer) : ℕ :=
  if k.2 = A then (s.farms.lookup k.1).elim 0 (fun farm => farm.owes M f) else 0

/-- What the user `A` is owed of the mint `M`, over all farms. -/
def FarmingState.owed (s : FarmingState) (A M : Pubkey) : ℕ :=
  Store.total (s.owes A M) s.farmers

/-- The user unstakes or claims. -/
def Instr.Spends (A : Pubkey) : Instr → Prop
  | .stopFarming accs _ => accs.authority = A
  | .claimEligibleHarvest authority _ _ => authority = A
  | _ => False

/-- The mint that an admin drops. -/
def Instr.drops : Instr → Option Pubkey
  | .removeHarvest _ _ m => some m
  | _ => none

/-! ## One farmer -/

/-- The farmer has no less of the mint. -/
structure NoLess (farm : Farm) (M : Pubkey) (f f' : Farmer) : Prop where
  deposited : f.deposited ≤ f'.deposited
  unclaimed : farm.Lists M → f.unclaimed M ≤ f'.unclaimed M

theorem NoLess.owes_le (h : NoLess farm M f f') : farm.owes M f ≤ farm.owes M f' := by
  unfold Farm.owes
  refine Nat.add_le_add ?_ ?_
  · split
    · exact h.deposited
    · exact Nat.le_refl _
  · split
    · rename_i hlists
      exact h.unclaimed hlists
    · exact Nat.le_refl _

/-- An update loses nothing of the mints that the farm harvests. -/
theorem Kept.unclaimed_le (h : Kept farm f.harvests f'.harvests) (hf : Tidy f.harvests)
    (hlists : farm.Lists M) : f.unclaimed M ≤ f'.unclaimed M := by
  rcases h.entries with hsame | hsync
  · exact (Farmer.unclaimed_congr hsame).ge
  · obtain ⟨hM, hmint⟩ := hlists
    by_cases hmem : ∃ a ∈ f.harvests, a.mint = M
    · obtain ⟨a, ha, rfl⟩ := hmem
      obtain ⟨a', ha', hm, hle⟩ := hsync.kept a ha hM hmint
      rw [hf.unclaimed_eq, tokensOf_of_getElem? (hf.getElem?_harvestsMap ha)]
      refine le_trans hle (List.le_sum_of_mem (List.mem_map_of_mem ?_))
      exact List.mem_filter.mpr ⟨ha', decide_eq_true hm⟩
    · rw [Farmer.unclaimed, List.filter_eq_nil_iff.mpr]
      · exact Nat.zero_le _
      · intro b hb
        simpa using fun he => hmem ⟨b, hb, he⟩

theorem Checked.noLess (hs : Reached s) {til : Slot} (h : Checked s k til f f')
    (hfarm : s.farms.lookup k.1 = some farm) : NoLess farm M f f' := by
  obtain ⟨farm', hfarm', hcheck⟩ := h.check
  obtain rfl := Option.some.inj (hfarm.symm.trans hfarm')
  refine ⟨(Farmer.check_deposited hcheck).1.ge, fun hlists => ?_⟩
  exact (hs.check h.farmer hfarm hcheck).unclaimed_le (hs.farmers k f h.farmer) hlists

/-- A deposit is owed if the farm stakes the mint. -/
theorem owes_addToVested {now : Slot} {n : TokenAmount} (h : f.addToVested now n = .ok f') :
    farm.owes M f' = farm.owes M f + (if farm.stakeMint = M then n.val else 0) := by
  have hstaked := Farmer.addToVested_ok h
  unfold Farm.owes
  rw [hstaked.deposited, Farmer.unclaimed_congr hstaked.harvests]
  by_cases hmint : farm.stakeMint = M
  · simp only [if_pos hmint]
    omega
  · simp only [if_neg hmint]
    omega

/-- What is taken of a mint is no longer owed, if it was. -/
theorem owes_setHarvestTokens_zero {h : AvailableHarvest} (hfind : f.findHarvest m = some h) :
    farm.owes M f ≤ farm.owes M (f.setHarvestTokens m 0)
      + (if m = M then h.tokens.val else 0) := by
  have hunclaimed := Farmer.unclaimed_setHarvestTokens M 0 hfind
  rw [Word.val_zero, ite_self, Nat.add_zero] at hunclaimed
  unfold Farm.owes
  rw [Farmer.sameStake_setHarvestTokens.deposited, ← hunclaimed]
  by_cases hlists : farm.Lists M
  · simp only [if_pos hlists]
    omega
  · simp only [if_neg hlists]
    omega

/-! ## The farms -/

/-- No farm stakes something else or drops the mint. -/
def FarmsKeep (M : Pubkey) (s s' : FarmingState) : Prop :=
  ∀ F farm, s.farms.lookup F = some farm → ∃ farm', s'.farms.lookup F = some farm'
    ∧ farm'.stakeMint = farm.stakeMint ∧ (farm.Lists M → farm'.Lists M)

theorem FarmsKeep.of_farms (h : s'.farms = s.farms) : FarmsKeep M s s' := by
  intro F farm hfarm
  exact ⟨farm, h ▸ hfarm, rfl, id⟩

theorem FarmsKeep.setFarm (hfarm : s.farms.lookup F = some farm)
    (hmint : farm'.stakeMint = farm.stakeMint) (hlists : farm.Lists M → farm'.Lists M) :
    FarmsKeep M s ((s.setLedger l).setFarm F farm') := by
  intro G g hg
  by_cases he : G = F
  · subst he
    obtain rfl := Option.some.inj (hfarm.symm.trans hg)
    exact ⟨farm', AList.lookup_insert _, hmint, hlists⟩
  · exact ⟨g, (AList.lookup_insert_ne he).trans hg, rfl, id⟩

/-- A harvest that is written over keeps its mint, or another one is. -/
theorem Farm.Lists.setHarvest {h h' : Harvest} (hlists : farm.Lists M)
    (hfind : farm.findHarvest m = some h) (hne : m = M → h'.mint = M) :
    (farm.setHarvest m h').Lists M := by
  obtain ⟨hM, a, ha, hmint⟩ := hlists
  obtain ⟨hm, l₁, l₂, hl, hset⟩ := Lists.setFirst_of_find? hfind
  have hset' : (farm.setHarvest m h').harvests = l₁ ++ h' :: l₂ := hset _
  rw [Farm.Lists, hset']
  refine ⟨hM, ?_⟩
  rw [hl] at ha
  rcases List.mem_append.mp ha with ha | ha
  · exact ⟨a, List.mem_append_left _ ha, hmint⟩
  · rcases List.mem_cons.mp ha with rfl | ha
    · exact ⟨h', List.mem_append_right _ List.mem_cons_self,
        hne ((of_decide_eq_true hm).symm.trans hmint)⟩
    · exact ⟨a, List.mem_append_right _ (List.mem_cons_of_mem _ ha), hmint⟩

/-! ## All farmers of a user -/

/-- **Farmer by farmer**: what shrinks for no farmer of the user does not
shrink in total. -/
theorem owed_mono (hfarms : FarmsKeep M s s')
    (hfarmers : ∀ (k : FarmerKey) farm, k.2 = A → s.farms.lookup k.1 = some farm →
      ∀ f, s.farmers.lookup k = some f → farm.owes M f = 0
        ∨ ∃ f', s'.farmers.lookup k = some f' ∧ farm.owes M f ≤ farm.owes M f') :
    s.owed A M ≤ s'.owed A M := by
  refine Store.total_le_of_lookup (fun k => ?_)
  cases hf : s.farmers.lookup k with
  | none => exact Nat.zero_le _
  | some f =>
      show s.owes A M k f ≤ _
      rw [FarmingState.owes]
      by_cases hA : k.2 = A
      · rw [if_pos hA]
        cases hfarm : s.farms.lookup k.1 with
        | none => exact Nat.zero_le _
        | some farm =>
            show farm.owes M f ≤ _
            rcases hfarmers k farm hA hfarm f hf with hzero | ⟨f', hf', hle⟩
            · rw [hzero]
              exact Nat.zero_le _
            · obtain ⟨farm', hfarm', hmint, hlists⟩ := hfarms k.1 farm hfarm
              rw [hf']
              show _ ≤ s'.owes A M k f'
              rw [FarmingState.owes, if_pos hA, hfarm']
              refine hle.trans ?_
              show farm.owes M f' ≤ farm'.owes M f'
              unfold Farm.owes
              rw [hmint]
              refine Nat.add_le_add_left ?_ _
              by_cases hl : farm.Lists M
              · rw [if_pos hl, if_pos (hlists hl)]
              · rw [if_neg hl]
                exact Nat.zero_le _
      · rw [if_neg hA]
        exact Nat.zero_le _

/-- The farmers are as before. -/
theorem owed_le_of_farmers (hfarms : FarmsKeep M s s') (h : s'.farmers = s.farmers) :
    s.owed A M ≤ s'.owed A M :=
  owed_mono hfarms (fun _ _ _ _ f hf => .inr ⟨f, h ▸ hf, Nat.le_refl _⟩)

/-- One farmer was written, who has no less or is another user's. -/
theorem owed_le_setFarmer (hf : s.farmers.lookup k = some f)
    (hle : k.2 = A → ∀ farm, s.farms.lookup k.1 = some farm → farm.owes M f ≤ farm.owes M f') :
    s.owed A M ≤ ((s.setLedger l).setFarmer k f').owed A M := by
  refine owed_mono (.of_farms rfl) (fun k' farm hA hfarm g hg => .inr ?_)
  by_cases he : k' = k
  · subst he
    obtain rfl := Option.some.inj (hf.symm.trans hg)
    exact ⟨f', AList.lookup_insert _, hle hA farm hfarm⟩
  · exact ⟨g, (AList.lookup_insert_ne he).trans hg, Nat.le_refl _⟩

/-- **Compounding** across farms moves what is owed from one farmer of a user
to another one. -/
theorem owed_le_compound {k₁ k₂ : FarmerKey} {f₁ g g' : Farmer} {h : AvailableHarvest}
    {now til : Slot} (hs : Reached s) (hne : k₂ ≠ k₁) (hsame : k₂.2 = k₁.2)
    (hfarm : s.farms.lookup k₂.1 = some farm) (hchecked : Checked s k₁ til f f₁)
    (hg : s.farmers.lookup k₂ = some g) (hfind : f₁.findHarvest farm.stakeMint = some h)
    (hstaked : g.addToVested now h.tokens = .ok g') :
    s.owed A M ≤ (((s.setLedger l).setFarmer k₁ (f₁.setHarvestTokens farm.stakeMint 0)).setFarmer
      k₂ g').owed A M := by
  obtain ⟨source, hsource, -⟩ := hchecked.check
  have hg₁ : (s.farmers.insert k₁ (f₁.setHarvestTokens farm.stakeMint 0)).lookup k₂ = some g :=
    (AList.lookup_insert_ne hne).trans hg
  have hfirst := Store.total_insert (g := s.owes A M)
    (w := f₁.setHarvestTokens farm.stakeMint 0) hchecked.farmer
  have hsecond := Store.total_insert (g := s.owes A M) (w := g') hg₁
  have hmoved : s.owes A M k₁ f + s.owes A M k₂ g
      ≤ s.owes A M k₁ (f₁.setHarvestTokens farm.stakeMint 0) + s.owes A M k₂ g' := by
    unfold FarmingState.owes
    rw [hsame, hsource, hfarm]
    by_cases hA : k₁.2 = A
    · simp only [if_pos hA, Option.elim_some]
      have hkept := (hchecked.noLess (M := M) hs hsource).owes_le
      have htaken : source.owes M f₁ ≤ _ := owes_setHarvestTokens_zero hfind
      have hadded : farm.owes M g' = _ := owes_addToVested hstaked
      omega
    · simp only [if_neg hA]
      exact Nat.le_refl _
  show Store.total (s.owes A M) s.farmers ≤ Store.total (s.owes A M) _
  show _ ≤ Store.total (s.owes A M)
    ((s.farmers.insert k₁ (f₁.setHarvestTokens farm.stakeMint 0)).insert k₂ g')
  omega

/-- Dropping a mint that nobody is credited takes nothing. -/
theorem owed_le_dropped (hfarm : s.farms.lookup F = some farm) (hnone : s.unclaimed F M = 0) :
    s.owed A M ≤ ((s.setLedger l).setFarm F (farm.setHarvest M default)).owed A M := by
  refine Store.total_le_of_lookup (fun k => ?_)
  show _ ≤ (s.farmers.lookup k).elim 0 _
  cases hf : s.farmers.lookup k with
  | none => exact Nat.le_refl _
  | some f =>
      show s.owes A M k f ≤ FarmingState.owes _ A M k f
      unfold FarmingState.owes
      by_cases hF : k.1 = F
      · have hle := Store.le_total (g := ofFarm F (fun f => f.unclaimed M)) hf
        rw [ofFarm, if_pos hF] at hle
        have hzero : f.unclaimed M = 0 := Nat.le_zero.mp (hle.trans hnone.le)
        have hinsert : ((s.setLedger l).setFarm F (farm.setHarvest M default)).farms.lookup F
            = some (farm.setHarvest M default) := AList.lookup_insert _
        rw [hF, hfarm, hinsert]
        refine (if_congr Iff.rfl ?_ rfl).le
        show farm.owes M f = (farm.setHarvest M default).owes M f
        unfold Farm.owes
        rw [hzero, ite_self, ite_self]
        rfl
      · have hinsert : ((s.setLedger l).setFarm F (farm.setHarvest M default)).farms.lookup k.1
            = s.farms.lookup k.1 := AList.lookup_insert_ne hF
        rw [hinsert]

/-! ## The step -/

/-- **One step** that the user does not spend with, and that does not drop
the mint, takes nothing. -/
theorem Outcome.owed_le (hs : Reached s) (ho : Outcome env s i s') (hspends : ¬ i.Spends A)
    (hdrops : i.drops ≠ some M) : s.owed A M ≤ s'.owed A M := by
  cases ho with
  | createFarm hnew hinit =>
      refine owed_le_of_farmers (fun G g hg => ⟨g, ?_, rfl, id⟩) rfl
      refine (AList.lookup_insert_ne ?_).trans hg
      rintro rfl
      rw [hnew] at hg
      cases hg
  | addHarvest hadmin hadd hinit =>
      obtain ⟨-, -, old, hfind, rfl⟩ := addHarvest_cases hadd
      refine owed_le_of_farmers (.setFarm hadmin.known rfl (fun hlists => ?_)) rfl
      exact hlists.setHarvest hfind (fun he => absurd he.symm hlists.1)
  | removeHarvest hadmin hfind hclosed =>
      refine owed_le_of_farmers (.setFarm hadmin.known rfl (fun hlists => ?_)) rfl
      exact hlists.setHarvest hfind (fun he => absurd (congrArg some he) hdrops)
  | setFarmOwner hadmin =>
      exact owed_le_of_farmers (.setFarm (l := s.ledger) hadmin.known rfl id) rfl
  | setMinSnapshotWindow hadmin =>
      exact owed_le_of_farmers (.setFarm (l := s.ledger) hadmin.known rfl id) rfl
  | newHarvestPeriod hadmin hfind hsched hfunded hnet =>
      refine owed_le_of_farmers (.setFarm hadmin.known rfl (fun hlists => ?_)) rfl
      refine hlists.setHarvest hfind (fun he => ?_)
      rw [hsched.mint, ← he]
      simpa using List.find?_some hfind
  | takeSnapshot hfarm hvault hsnap =>
      refine owed_le_of_farmers (.setFarm (l := s.ledger) hfarm ?_ ?_) rfl
      · rw [(Farm.snapped hsnap).pushed]
      · rw [(Farm.snapped hsnap).pushed]
        exact id
  | createFarmer hnew hfarm hfresh hauthority =>
      refine owed_mono (.of_farms rfl) (fun k _ _ _ f hf => .inr ⟨f, ?_, Nat.le_refl _⟩)
      refine (AList.lookup_insert_ne ?_).trans hf
      rintro rfl
      rw [hnew] at hf
      cases hf
  | @closeFarmer authority k f hf hauthority hdeposited hunclaimed =>
      refine owed_mono (.of_farms rfl) (fun k' farm _ _ g hg => ?_)
      by_cases he : k' = k
      · -- nothing is owed to a farmer who can be closed
        subst he
        obtain rfl := Option.some.inj (hf.symm.trans hg)
        refine .inl ?_
        rw [Farm.owes, hdeposited, hunclaimed, ite_self, ite_self]
      · exact .inr ⟨g, (AList.lookup_erase_ne he).trans hg, Nat.le_refl _⟩
  | startFarming hchecked hstaked htransfer =>
      refine owed_le_setFarmer hchecked.farmer (fun _ farm hfarm => ?_)
      rw [owes_addToVested hstaked]
      exact (hchecked.noLess hs hfarm).owes_le.trans (Nat.le_add_right _ _)
  | stopFarming hchecked hunstaked htransfer =>
      exact owed_le_setFarmer hchecked.farmer (fun hA => absurd hA hspends)
  | updateEligibleHarvest hchecked =>
      exact owed_le_setFarmer (l := s.ledger) hchecked.farmer
        (fun _ _ hfarm => (hchecked.noLess hs hfarm).owes_le)
  | updateEligibleHarvestUntil hchecked =>
      exact owed_le_setFarmer (l := s.ledger) hchecked.farmer
        (fun _ _ hfarm => (hchecked.noLess hs hfarm).owes_le)
  | claimEligibleHarvest hf hsettles =>
      exact owed_le_setFarmer hf (fun hA => absurd hA hspends)
  | whitelist hadmin => exact owed_le_of_farmers (.of_farms rfl) rfl
  | dewhitelist hadmin => exact owed_le_of_farmers (.of_farms rfl) rfl
  | @compoundSameFarm accs farm f f₁ f₂ h l' hlisted hfarm hchecked hfind hstaked htransfer =>
      refine owed_le_setFarmer hchecked.farmer (fun _ farm' hfarm' => ?_)
      obtain rfl := Option.some.inj (hfarm.symm.trans hfarm')
      rw [owes_addToVested hstaked]
      exact (hchecked.noLess hs hfarm).owes_le.trans (owes_setHarvestTokens_zero hfind)
  | compoundAcrossFarms hne hlisted hfarm hchecked hg hsame hfind hstaked htransfer =>
      refine owed_le_compound hs (fun he => hne (congrArg Prod.fst he)) ?_ hfarm hchecked hg hfind
        hstaked
      rw [← hs.owned _ _ hg, ← hsame]
      exact hs.owned _ _ hchecked.farmer
  | @airdrop accs n m f h t l' hf hfind ht htransfer =>
      refine owed_le_setFarmer hf (fun _ farm _ => NoLess.owes_le ⟨?_, fun _ => ?_⟩)
      · exact Farmer.sameStake_setHarvestTokens.deposited.ge
      · have hunclaimed := Farmer.unclaimed_setHarvestTokens M t hfind
        split at hunclaimed <;> omega
  | tick hle => exact owed_le_of_farmers (.of_farms rfl) rfl
  | token hsign hop => exact owed_le_of_farmers (.of_farms rfl) rfl

/-- **One step** that drops the mint takes nothing either while the harvest
vaults cover what is credited: the vault it closes is empty. -/
theorem Outcome.owed_le_of_solvent (hs : Reached s) (ho : Outcome env s i s')
    (hspends : ¬ i.Spends A)
    (hsolvent : ∀ F, s.unclaimed F M ≤ s.ledger.balance (.harvestVault F M)) :
    s.owed A M ≤ s'.owed A M := by
  by_cases hdrops : i.drops = some M
  · cases ho with
    | @removeHarvest admin F m farm h l' hadmin hfind hclosed =>
        obtain rfl : m = M := Option.some.inj hdrops
        obtain ⟨a, ha, hempty, -⟩ := hclosed.account
        have hzero : s.ledger.balance (.harvestVault F m) = 0 := by
          rw [Ledger.balance, ha]
          exact Word.val_eq_zero.mpr hempty
        exact owed_le_dropped hadmin.known (Nat.le_zero.mp ((hsolvent F).trans hzero.le))
    | _ => cases hdrops
  · exact ho.owed_le hs hspends hdrops

/-- **Nobody else spends what a user is owed.** In every run from a genesis
state, a step that is neither the user's own unstaking or claim nor the
removal of the mint by an admin leaves the user with at least as much of the
mint as before, over all farms: staking, updating and compounding, by
whomever, closing a farmer, and whatever admins schedule or set up. As long
as no farm takes a snapshot in a slot that it releases tokens in and has
credited a farmer for, not even a removal does. -/
theorem owed_never_taken (hp : env.tokenProgram.Lawful) (hg : Genesis s) (is : List Instr)
    (A M : Pubkey) :
    (∀ e ∈ (run (traced (step env)) (s, []) is).2, ¬ e.instr.Spends A → e.instr.drops ≠ some M →
      e.before.owed A M ≤ e.after.owed A M)
    ∧ (Guarded (traced (step env)) KeepsShares (s, []) is →
      ∀ e ∈ (run (traced (step env)) (s, []) is).2, ¬ e.instr.Spends A →
        e.before.owed A M ≤ e.after.owed A M) := by
  refine ⟨events_outcome hp hg is (fun _ _ _ hs ho => ho.owed_le hs), fun hG => ?_⟩
  refine history_traced (I := fun p => SolventRun p ∧ Reached p.1) (fun p i p' hI hGi h => ?_)
    ⟨hg.solventRun, hg.reached⟩ hG
  have hstep := (traced_eq_ok.mp h).1
  refine ⟨⟨step_solvent hp hI.1 hGi h, step_reached hp hI.2 hstep⟩, fun hspends => ?_⟩
  exact (step_outcome hp hI.2.custody hstep).owed_le_of_solvent hI.2 hspends
    (fun F => hI.1.unclaimed_le F M)

/-- Farm 3 harvests what it stakes. User 10 is given 40 tokens in it, which
a bot compounds. -/
def givenAndCompounded : List Instr :=
  [.createFarm 2 3 100, .addHarvest 2 3 100, .whitelistFarmForCompounding 2 3 3,
    .createFarmer 10 3, .airdrop ⟨10, (3, 10), .key 20⟩ 40,
    .compoundSameFarm ⟨3, .harvestVault 3 100, (3, 10)⟩]

theorem owed_never_taken_compounded :
    (∀ e ∈ (run (traced (step sampleEnv)) (sampleGenesis, []) givenAndCompounded).2,
      ¬ e.instr.Spends 10 → e.before.owed 10 100 ≤ e.after.owed 10 100)
    ∧ (run (step sampleEnv) sampleGenesis givenAndCompounded).owed 10 100 = 40
    ∧ (run (step sampleEnv) sampleGenesis givenAndCompounded).deposits 3 = 40 :=
  ⟨(owed_never_taken Token.Reference.lawful sampleGenesis_genesis givenAndCompounded 10 100).2
      (by decide +kernel), by decide +kernel, by decide +kernel⟩

end SolanaAmm.Farming
