import SolanaAmm.Farming.Periods
import SolanaAmm.Farming.StakeVault

/-!
# Farming — Retention

What scheduling a period leaves of the past. A harvest keeps ten periods:
a new one overwrites the one that has not started yet, or takes the place
of the oldest. The snapshots that are still retained ask for the rates
since the oldest of them started (`Retains`), so the oldest period has to
be over by then. The check that says so is only part of a build with the
`prod` feature.
-/

namespace SolanaAmm.Farming

open Result Machine Harvest

variable {env : Env} {s s₁ s' : FarmingState} {act : Act} {F m : Pubkey} {farm farm' : Farm}
  {now now' : Slot} {old new : Harvest} {p : HarvestPeriod} {replaced : Option HarvestPeriod}

/-! ## The periods of a farm -/

/-- All periods but the latest have started. -/
structure InOrder (now : Slot) (h : Harvest) : Prop where
  laidOut : LaidOut h.periods.toList
  started : ∀ p ∈ h.periods.toList.tail, p.startsAt ≤ now

theorem Harvest.periods_eq_concat (h : Harvest) :
    h.periods.toList = h.periods.toList.dropLast ++ [h.periods.last] := by
  have hne : h.periods.toList ≠ [] := by
    rw [h.periods_eq_cons]
    exact List.cons_ne_nil _ _
  have hlast : h.periods.last = h.periods.toList.getLast hne := by
    rw [List.Vector.last_def, List.Vector.get_eq_get_toList, List.getLast_eq_getElem]
    simp [List.get_eq_getElem]
  rw [hlast]
  exact (List.dropLast_append_getLast hne).symm

theorem InOrder.later (h : InOrder now old) (hle : now ≤ now') : InOrder now' old :=
  ⟨h.laidOut, fun p hp => (h.started p hp).trans hle⟩

theorem InOrder.empty {vault : Address} : InOrder now ⟨m, vault, .replicate _ default⟩ where
  laidOut := .empty _
  started p hp := by
    rw [List.eq_of_mem_replicate (List.mem_of_mem_tail hp)]
    exact Nat.zero_le _

/-- **A new period** keeps the order. -/
theorem InOrder.scheduled (h : InOrder now old) (hs : Scheduled now old new p replaced) :
    InOrder now new := by
  obtain ⟨q, hq, hover⟩ := hs.follows
  have hlaid := h.laidOut
  have hstarted := h.started
  rw [old.periods_eq_cons] at hlaid
  rcases hs.periods with ⟨rfl, hfuture, hperiods⟩ | ⟨rfl, hperiods⟩
  · -- the latest period that has started comes right after the overwritten one
    rw [old.periods_eq_cons, List.find?_cons_of_neg (by simpa using hfuture)] at hq
    refine ⟨?_, ?_⟩
    · rw [hperiods]
      generalize old.periods.toList.tail = rest at hq hlaid hstarted
      cases rest with
      | nil => cases hq
      | cons q' rest =>
          rw [List.find?_cons_of_pos (by simpa using hstarted q' List.mem_cons_self)] at hq
          obtain rfl := Option.some.inj hq
          exact hlaid.tail.cons hs.ends.le hover
    · rw [hperiods]
      exact hstarted
  · -- the new period goes in front, and the oldest one is dropped
    have hhead := hs.started rfl
    rw [old.periods_eq_cons, List.find?_cons_of_pos (by simpa using hhead)] at hq
    obtain rfl := Option.some.inj hq
    refine ⟨?_, fun r hr => ?_⟩
    · rw [hperiods, old.periods_eq_cons]
      exact (hlaid.cons hs.ends.le hover).sublist ((List.dropLast_sublist _).cons_cons _)
    · rw [hperiods, List.tail_cons] at hr
      have hr := List.dropLast_subset _ hr
      rw [old.periods_eq_cons] at hr
      rcases List.mem_cons.mp hr with rfl | hr
      · exact hhead
      · exact hstarted r hr

/-- What every harvest of every farm satisfies at the current slot. -/
def EveryHarvest (P : Slot → Harvest → Prop) (s : FarmingState) : Prop :=
  ∀ F farm, s.farms.lookup F = some farm → ∀ h ∈ farm.harvests, P s.slot h

/-- Every harvest of every farm has its periods in order. -/
def PeriodsInOrder (s : FarmingState) : Prop :=
  ∀ F farm, s.farms.lookup F = some farm → ∀ h ∈ farm.harvests, InOrder s.slot h

section Harvests

variable {P : Slot → Harvest → Prop}

theorem EveryHarvest.setFarm (hs : EveryHarvest P s) (hfarm : ∀ h ∈ farm.harvests, P s.slot h) :
    EveryHarvest P (s.setFarm F farm) :=
  Store.forall_insert hs hfarm

/-- One harvest of a farm is written over. -/
theorem every_setHarvest {Q : Harvest → Prop} (hall : ∀ h ∈ farm.harvests, Q h)
    (hfind : farm.findHarvest m = some old) (hnew : Q new) :
    ∀ h ∈ (farm.setHarvest m new).harvests, Q h := by
  obtain ⟨-, l₁, l₂, hl, hset⟩ := Lists.setFirst_of_find? hfind
  have hset' : (farm.setHarvest m new).harvests = l₁ ++ new :: l₂ := hset _
  intro h hh
  rw [hset'] at hh
  rw [hl] at hall
  rcases List.mem_append.mp hh with hh | hh
  · exact hall h (List.mem_append_left _ hh)
  · rcases List.mem_cons.mp hh with rfl | hh
    · exact hnew
    · exact hall h (List.mem_append_right _ (List.mem_cons_of_mem _ hh))

/-- **The rule for harvests**: what holds of an empty harvest, goes on to
hold as time passes and survives a new period holds of every harvest. -/
theorem Acts.everyHarvest (hlater : ∀ {now now' h}, now ≤ now' → P now h → P now' h)
    (hempty : ∀ {now m vault}, P now ⟨m, vault, .replicate _ default⟩)
    (hnew : ∀ {now h h' p old}, P now h → Scheduled now h h' p old → P now h')
    (ha : Acts act s s') (hs : EveryHarvest P s) : EveryHarvest P s' := by
  cases ha with
  | tick hle => exact fun F farm hfarm h hh => hlater hle (hs F farm hfarm h hh)
  | whitelist => exact hs
  | token _ => exact hs
  | settings hfarm same =>
      refine hs.setFarm (fun h hh => ?_)
      rw [same.harvests] at hh
      exact hs _ _ hfarm h hh
  | @createFarm _ F m admin l' hnew hinit =>
      refine EveryHarvest.setFarm (s := s.setLedger l') hs (fun h hh => ?_)
      rw [List.eq_of_mem_replicate hh]
      exact hempty
  | @addHarvest _ F farm farm' m l' hfarm hadd hinit =>
      obtain ⟨-, -, old, hfind, rfl⟩ := addHarvest_cases hadd
      exact EveryHarvest.setFarm (s := s.setLedger l') hs
        (every_setHarvest (hs F farm hfarm) hfind hempty)
  | @removeHarvest _ F farm m h l' hfarm hfind hclosed =>
      exact EveryHarvest.setFarm (s := s.setLedger l') hs
        (every_setHarvest (hs F farm hfarm) hfind hempty)
  | @period _ F farm m h h' p old l' hfarm hfind hsched hflow =>
      have hmem := List.mem_of_find?_eq_some hfind
      exact EveryHarvest.setFarm (s := s.setLedger l') hs (every_setHarvest (hs F farm hfarm)
        hfind (hnew (hs F farm hfarm h hmem) hsched))
  | snapshot hfarm hvault hsnap =>
      refine hs.setFarm (fun h hh => ?_)
      rw [hsnap.pushed] at hh
      exact hs _ _ hfarm h hh
  | createFarmer _ _ => exact hs
  | closeFarmer _ _ _ => exact hs
  | stake _ _ _ => exact hs
  | unstake _ _ _ => exact hs
  | claim _ _ _ _ _ => exact hs
  | compound _ _ _ _ _ => exact hs
  | airdrop _ _ _ _ => exact hs

theorem Harvests.everyHarvest {h : Option (FarmerKey × Slot)} (hh : Harvests s h s₁)
    (hs : EveryHarvest P s) : EveryHarvest P s₁ := by
  cases hh with
  | none => exact hs
  | check _ _ _ _ => exact hs

theorem Genesis.everyHarvest (hg : Genesis s) : EveryHarvest P s := hg.every_farm

end Harvests

theorem Acts.periodsInOrder (ha : Acts act s s') (hs : PeriodsInOrder s) : PeriodsInOrder s' :=
  ha.everyHarvest (fun hle h => InOrder.later h hle) InOrder.empty InOrder.scheduled hs

theorem Harvests.periodsInOrder {h : Option (FarmerKey × Slot)} (hh : Harvests s h s₁)
    (hs : PeriodsInOrder s) : PeriodsInOrder s₁ :=
  hh.everyHarvest hs

theorem Genesis.periodsInOrder (hg : Genesis s) : PeriodsInOrder s := hg.everyHarvest

/-! ## What a new period leaves of the past -/

/-- A new period has to drop one that ended after the oldest retained
snapshot started. -/
def Farm.MustDropRetained (farm : Farm) (now : Slot) (m : Pubkey) : Prop :=
  ∃ h, farm.findHarvest m = some h ∧ h.periods.head.startsAt ≤ now ∧ h.periods.last ≠ default
    ∧ farm.oldestSnapshot.startedAt ≤ h.periods.last.endsAt

/-- A new period leaves what the retained snapshots need: for every harvest
mint, the history assigns the same rate as before to all slots from the
oldest retained snapshot up to the current slot. -/
structure Retains (farm farm' : Farm) (now : Slot) (m : Pubkey) : Prop where
  rates : ∀ m' h, farm.findHarvest m' = some h → ∃ h', farm'.findHarvest m' = some h'
    ∧ ∀ til, ∃ before after, h.tpsHistory til = .ok before ∧ h'.tpsHistory til = .ok after
      ∧ ∀ t, farm.oldestSnapshot.startedAt.val ≤ t → t < now.val →
        assigned after t = assigned before t
  allowed : ¬ farm.MustDropRetained now m

/-- The new period overwrites one that has not started, or the cell it
takes is empty or was over before the oldest retained snapshot. -/
def Farm.SparesHistory (farm : Farm) (now : Slot) (m : Pubkey) : Prop :=
  ∀ h ∈ farm.findHarvest m, now < h.periods.head.startsAt ∨ h.periods.last.endsAt = 0
    ∨ h.periods.last.endsAt < farm.oldestSnapshot.startedAt

theorem Scheduled.rateAt_of_before (hs : Scheduled now old new p replaced) {t : ℕ}
    (ht : t < now.val) (hdropped : replaced = none → old.periods.last.rateAt t = 0) :
    new.rateAt t = old.rateAt t := by
  have hzero : ∀ q : HarvestPeriod, now ≤ q.startsAt → q.rateAt t = 0 := by
    intro q hq
    rw [Word.le_def] at hq
    exact if_neg (by omega)
  have hnew := hzero p hs.starts
  unfold Harvest.rateAt
  rcases hs.periods with ⟨rfl, hfuture, hperiods⟩ | ⟨hnone, hperiods⟩
  · rw [hperiods, old.periods_eq_cons, List.map_cons, List.map_cons, List.sum_cons, List.sum_cons,
      hnew, hzero _ hfuture.le, List.tail_cons]
  · rw [hperiods, List.map_cons, List.sum_cons, hnew, old.periods_eq_concat, List.map_append,
      List.sum_append, List.map_singleton, List.sum_singleton, hdropped hnone,
      List.dropLast_concat, Nat.zero_add, Nat.add_zero]

/-- **One new period.** Where the farm's periods are in order, it retains
the history if and only if it spares it. -/
theorem retains_iff (hall : ∀ h ∈ farm.harvests, InOrder now h)
    (hfind : farm.findHarvest m = some old) (hs : Scheduled now old new p replaced) :
    Retains farm (farm.setHarvest m new) now m ↔ farm.SparesHistory now m := by
  have hmem := List.mem_of_find?_eq_some hfind
  have hmint : old.mint = m := by simpa using List.find?_some hfind
  have hold := hall old hmem
  have hlast : old.periods.last = default ∨ old.periods.last.Live := by
    refine hold.laidOut.cells _ ?_
    rw [old.periods_eq_concat]
    exact List.mem_append_right _ List.mem_cons_self
  constructor
  · intro hr h hh
    obtain rfl := Option.some.inj (hfind.symm.trans hh)
    by_contra hspare
    obtain ⟨hstarted, hlive, hreach⟩ := not_or.mp hspare |>.imp_right not_or.mp
    refine hr.allowed ⟨old, hfind, not_lt.mp hstarted, fun he => hlive ?_, not_lt.mp hreach⟩
    rw [he]
    rfl
  · intro hspare
    have hspared := hspare old hfind
    refine ⟨fun m' h hh => ?_, ?_⟩
    · have hset : (farm.setHarvest m new).findHarvest m'
          = if m' = m then some new else farm.findHarvest m' :=
        Lists.find?_setFirst hfind (hs.mint.trans hmint)
      by_cases hm : m' = m
      · subst hm
        obtain rfl := Option.some.inj (hfind.symm.trans hh)
        refine ⟨new, by rw [hset, if_pos rfl], fun til => ?_⟩
        obtain ⟨before, hbefore, -, -⟩ := tpsHistory_ok hold.laidOut til
        have hnew := (hold.scheduled hs).laidOut
        obtain ⟨after, hafter, -, -⟩ := tpsHistory_ok hnew til
        refine ⟨before, after, hbefore, hafter, fun t holdest ht => ?_⟩
        rw [assigned_tpsHistory hold.laidOut hbefore, assigned_tpsHistory hnew hafter,
          ← hold.laidOut.sum_rateAt, ← hnew.sum_rateAt]
        refine hs.rateAt_of_before ht (fun hnone => ?_)
        -- the dropped period releases nothing in the slot
        rcases hspared with hfuture | hempty | hover
        · exact absurd hfuture (not_lt.mpr (hs.started hnone))
        · rcases hlast with he | hlive
          · rw [he]
            exact HarvestPeriod.rateAt_default
          · have := hlive.starts
            have := Word.le_def.mp hlive.ends
            rw [hempty, Word.val_zero] at this
            omega
        · rw [Word.lt_def] at hover
          exact if_neg (by omega)
      · refine ⟨h, by rw [hset, if_neg hm, hh], fun til => ?_⟩
        obtain ⟨history, hhistory, -, -⟩ :=
          tpsHistory_ok (hall h (List.mem_of_find?_eq_some hh)).laidOut til
        exact ⟨history, history, hhistory, hhistory, fun _ _ _ => rfl⟩
    · rintro ⟨h, hh, hstarted, hne, hreach⟩
      obtain rfl := Option.some.inj (hfind.symm.trans hh)
      rcases hspared with hfuture | hempty | hover
      · exact not_lt.mpr hstarted hfuture
      · rcases hlast with he | hlive
        · exact hne he
        · have := hlive.starts
          have := Word.le_def.mp hlive.ends
          rw [hempty, Word.val_zero] at this
          omega
      · exact not_lt.mpr hreach hover

/-- **With the `prod` feature** the check spares the history. -/
theorem newHarvestPeriod_spares {period : Slot × Slot} {tps : TokenAmount}
    (h : farm.newHarvestPeriod true now m period tps = .ok (farm', replaced)) :
    farm.SparesHistory now m := by
  simp only [Farm.newHarvestPeriod, bind_eq_ok, okOr_eq_ok, ensure_eq_ok] at h
  obtain ⟨harvest, hfind, -, -, _, -, -, -, h⟩ := h
  intro h' hh'
  obtain rfl := Option.some.inj (hfind.symm.trans hh')
  split at h
  · exact .inl ‹_›
  · simp only [bind_eq_ok, ensure_eq_ok] at h
    obtain ⟨-, hcheck, -⟩ := h
    by_cases hempty : harvest.periods.last.endsAt = 0
    · exact .inr (.inl hempty)
    · refine .inr (.inr (not_le.mp (fun hreach => hcheck ⟨?_, hreach⟩)))
      rw [Bool.true_and]
      exact decide_eq_true hempty

/-! ## All runs -/

/-- A step that schedules a period retains the history. -/
def HistoryRetained (e : Event FarmingState Instr) : Prop :=
  match e.instr with
  | .newHarvestPeriod accs m _ _ _ =>
      ∀ farm ∈ e.before.farms.lookup accs.farm, ∀ farm' ∈ e.after.farms.lookup accs.farm,
        Retains farm farm' e.before.slot m
  | _ => True

/-- A call that schedules a period spares the history of its farm. -/
def SparesHistory (s : FarmingState) : Instr → Prop
  | .newHarvestPeriod accs m _ _ _ =>
      ∀ farm ∈ s.farms.lookup accs.farm, farm.SparesHistory s.slot m
  | _ => True

instance : Decidable (farm.SparesHistory now m) :=
  inferInstanceAs (Decidable (∀ h ∈ farm.findHarvest m, _))

instance {i : Instr} : Decidable (SparesHistory s i) := by
  unfold SparesHistory
  cases i <;> infer_instance

theorem newHarvestPeriod_scheduled {accs : NewHarvestPeriod} {startsAt : Slot} {len : U64}
    {tps : TokenAmount} (h : newHarvestPeriod env s accs m startsAt len tps = .ok s') :
    ∃ farm old new p replaced, s.farms.lookup accs.farm = some farm
      ∧ farm.findHarvest m = some old ∧ Scheduled s.slot old new p replaced
      ∧ s'.farms = s.farms.insert accs.farm (farm.setHarvest m new) := by
  simp only [newHarvestPeriod, FarmingState.farm, bind_eq_ok, ensure_eq_ok, okOr_eq_ok,
    pure_eq_ok, Prod.exists] at h
  obtain ⟨_, -, _, -, farm, hfarm, -, -, -, -, start, hstart, _, -, stop, -, farm', replaced,
    hnew, _, -, _, -, l', -, rfl⟩ := h
  obtain ⟨old, new, hfind, rfl, hsched⟩ := farmNewHarvestPeriod_ok (periodStart_ok hstart) hnew
  exact ⟨farm, old, new, _, _, hfarm, hfind, hsched, rfl⟩

/-- What holds of every reachable state for this. -/
structure Retaining (s : FarmingState) : Prop where
  custody : Custody s
  inOrder : PeriodsInOrder s

theorem step_retaining (hp : env.tokenProgram.Lawful) {i : Instr} (hI : Retaining s)
    (h : step env s i = .ok s') : Retaining s' := by
  obtain ⟨s₁, hh, ha⟩ := step_ok hp hI.custody h
  exact ⟨step_custody hp hI.custody h, ha.periodsInOrder (hh.periodsInOrder hI.inOrder)⟩

/-- **The periods of every reachable farm** are laid out. -/
theorem run_periodsInOrder (hp : env.tokenProgram.Lawful) (hg : Genesis s) (is : List Instr) :
    PeriodsInOrder (run (step env) s is) :=
  (run_invariant' (fun _ _ _ hI h => step_retaining hp hI h)
    ⟨hg.custody, hg.periodsInOrder⟩ is : Retaining _).inOrder

/-- **The history of emissions.** In every run, a step that schedules a
period retains the history that the snapshots need if and only if it
spares it. -/
theorem history_retained_iff (hp : env.tokenProgram.Lawful) (hg : Genesis s) (is : List Instr) :
    ∀ e ∈ (run (traced (step env)) (s, []) is).2,
      HistoryRetained e ↔ SparesHistory e.before e.instr := by
  refine history_invariant (I := Retaining) (fun s i s' hI h => ⟨step_retaining hp hI h, ?_⟩)
    ⟨hg.custody, hg.periodsInOrder⟩ is
  cases i with
  | newHarvestPeriod accs m startsAt len tps =>
      obtain ⟨farm, old, new, p, replaced, hfarm, hfind, hsched, hfarms⟩ :=
        newHarvestPeriod_scheduled h
      have hafter : s'.farms.lookup accs.farm = some (farm.setHarvest m new) := by
        rw [hfarms, AList.lookup_insert]
      have hiff := retains_iff (hI.inOrder _ _ hfarm) hfind hsched
      constructor
      · intro hr farm' hfarm'
        obtain rfl := Option.some.inj (hfarm.symm.trans hfarm')
        exact hiff.mp (hr _ hfarm _ hafter)
      · intro hspare farm₁ hfarm₁ farm' hfarm'
        obtain rfl := Option.some.inj (hfarm.symm.trans hfarm₁)
        obtain rfl := Option.some.inj (hfarm'.symm.trans hafter)
        exact hiff.mpr (hspare _ hfarm)
  | _ => exact Iff.rfl

/-! ## The eleventh period -/

/-- The rate that the history of a harvest until `til` assigns to a slot. -/
def rateIn (s : FarmingState) (F m : Pubkey) (til : Slot) (t : ℕ) : Option ℕ := do
  let farm ← s.farms.lookup F
  let h ← farm.findHarvest m
  let history ← (h.tpsHistory til).toOption
  pure (assigned history t)

/-- Retaining the history is keeping these rates. -/
theorem HistoryRetained.rateIn_eq {accs : NewHarvestPeriod} {startsAt til : Slot} {len : U64}
    {tps : TokenAmount} {t n : ℕ} {m' : Pubkey}
    (hr : HistoryRetained ⟨s, .newHarvestPeriod accs m startsAt len tps, s'⟩)
    (hfarm' : (s'.farms.lookup accs.farm).isSome)
    (holdest : ∀ farm ∈ s.farms.lookup accs.farm, farm.oldestSnapshot.startedAt.val ≤ t)
    (ht : t < s.slot.val) (hrate : rateIn s accs.farm m' til t = some n) :
    rateIn s' accs.farm m' til t = some n := by
  simp only [rateIn, Option.bind_eq_bind, Option.bind_eq_some_iff] at hrate
  obtain ⟨farm, hfarm, h, hfind, history, hhistory, hn⟩ := hrate
  obtain ⟨farm', hfarm'⟩ := Option.isSome_iff_exists.mp hfarm'
  obtain ⟨h', hfind', hkept⟩ := (hr farm hfarm farm' hfarm').rates m' h hfind
  obtain ⟨before, after, hbefore, hafter, heq⟩ := hkept til
  rw [hbefore] at hhistory
  obtain rfl := Option.some.inj hhistory
  simp only [rateIn, hfarm', hfind', hafter, Option.bind_eq_bind, Option.bind_some]
  rw [← hn, ← heq t (holdest farm hfarm) ht]
  rfl

/-- Ten periods of two slots, one after the other from slot 10 on, each
scheduled when the one before it starts. -/
def tenPeriods : List Instr :=
  openFarm ++ (List.range 10).flatMap (fun k =>
    [.tick (Word.wrap (8 + 2 * k)), schedule (Word.wrap (10 + 2 * k)) 2 5])

/-- All of them take empty cells: the first one is still there. -/
theorem history_retained_ten :
    rateIn (run (step sampleEnv) sampleGenesis tenPeriods) 1 200 28 10 = some 5
    ∧ ∀ e ∈ (run (traced (step sampleEnv)) (sampleGenesis, []) tenPeriods).2,
      HistoryRetained e := by
  have hspare : ∀ e ∈ (run (traced (step sampleEnv)) (sampleGenesis, []) tenPeriods).2,
      SparesHistory e.before e.instr := by decide +kernel
  refine ⟨by decide +kernel, ?_⟩
  intro e he
  exact (history_retained_iff Token.Reference.lawful sampleGenesis_genesis tenPeriods e he).mpr
    (hspare e he)

/-- **The eleventh period** drops the first, although the oldest retained
snapshot started in slot 0: what was released in slot 10 is forgotten. -/
theorem eleventh_drops_first :
    sampleEnv.prodFeature = false
    ∧ rateIn (run (step sampleEnv) sampleGenesis (tenPeriods ++ [.tick 28])) 1 200 28 10 = some 5
    ∧ rateIn (run (step sampleEnv) sampleGenesis (tenPeriods ++ [.tick 28] ++ [schedule 30 2 5]))
      1 200 28 10 = some 0
    ∧ ¬ ∀ e ∈ (run (traced (step sampleEnv)) (sampleGenesis, [])
        (tenPeriods ++ [.tick 28] ++ [schedule 30 2 5])).2, HistoryRetained e := by
  have hbefore : rateIn (run (step sampleEnv) sampleGenesis (tenPeriods ++ [.tick 28])) 1 200 28 10
      = some 5 := by decide +kernel
  have hafter : rateIn (run (step sampleEnv) sampleGenesis
      (tenPeriods ++ [.tick 28] ++ [schedule 30 2 5])) 1 200 28 10 = some 0 := by decide +kernel
  refine ⟨rfl, hbefore, hafter, fun hall => ?_⟩
  rw [run_append, run_cons, run_nil] at hafter
  rcases exec_cases (step sampleEnv) (run (step sampleEnv) sampleGenesis (tenPeriods ++ [.tick 28]))
    (schedule 30 2 5) with hstep | hstep
  · have hr := hall _ (mem_history hstep)
    have hkept := HistoryRetained.rateIn_eq hr (by decide +kernel) (by decide +kernel)
      (by decide +kernel) hbefore
    have hne := hafter.symm.trans hkept
    cases hne
  · rw [hstep, hbefore] at hafter
    cases hafter

end SolanaAmm.Farming
