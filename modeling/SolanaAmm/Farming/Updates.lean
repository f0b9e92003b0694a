import SolanaAmm.Farming.PerSlot
import SolanaAmm.Farming.Retention

/-!
# Farming — Updates

What one update does to a farmer, exactly, in terms of all snapshots that
the farm retains (`creditIn`): which of them an update selects does not
matter, since the others have no slots between the cursor and the slot of
the update. A farm that the program can reach is `WellKept`, which is all
that this takes.
-/

namespace SolanaAmm.Farming

open Result Decimal Harvest

variable {env : Env} {s s₁ s' : FarmingState} {act : Act} {F : Pubkey} {farm farm' : Farm}
  {rate : ℕ → ℕ} {since stake stop : ℕ} {ws : List Snapshot} {til : Slot}

/-! ## All retained snapshots -/

/-- What a stake earns in the windows of the snapshots between two slots. -/
def creditIn (rate : ℕ → ℕ) (since stake : ℕ) : ℕ → List Snapshot → ℕ
  | _, [] => 0
  | stop, w :: ws =>
      snapshotTokens rate since stake stop w
        + creditIn rate since stake (min stop w.startedAt.val) ws

/-- Newer snapshots started later, in front of the empty cells. -/
def Spaced (ws : List Snapshot) : Prop :=
  ws.Pairwise (fun newer older => older.startedAt.val = 0 ∨ older.startedAt < newer.startedAt)

/-- A window without slots. -/
theorem snapshotTokens_eq_zero {w : Snapshot} (h : stop ≤ max w.startedAt.val since) :
    snapshotTokens rate since stake stop w = 0 := by
  unfold snapshotTokens
  split
  · rw [windowTokens, Finset.Ico_eq_empty_of_le h, Finset.sum_empty, Nat.mul_zero, Nat.zero_div]
  · rfl

theorem creditIn_eq_zero (h : stop ≤ since) : creditIn rate since stake stop ws = 0 := by
  induction ws generalizing stop with
  | nil => rfl
  | cons w ws ih =>
      rw [creditIn, snapshotTokens_eq_zero (h.trans (le_max_right _ _)),
        ih ((Nat.min_le_left _ _).trans h)]

/-- From the newest snapshot that started on, the loop walks down to the
one the cursor is in. -/
theorem creditIn_eq_take {cursor : Slot} (hspaced : Spaced ws)
    (hhead : ∀ w ∈ ws.head?, w.startedAt.val < stop) (hstop : cursor.val < stop) :
    Windowed cursor.val stop
        (ws.take ((ws.takeWhile (fun w => cursor < w.startedAt)).length + 1))
      ∧ ∀ rate stake, creditIn rate cursor.val stake stop ws = creditOf rate cursor.val stake stop
        (ws.take ((ws.takeWhile (fun w => cursor < w.startedAt)).length + 1)) := by
  induction ws generalizing stop with
  | nil => exact ⟨trivial, fun _ _ => rfl⟩
  | cons w ws ih =>
      have hw := hhead w rfl
      obtain ⟨hbelow, hspaced⟩ := List.pairwise_cons.mp hspaced
      by_cases hc : cursor < w.startedAt
      · have hlt := Word.lt_def.mp hc
        have hhead' : ∀ v ∈ ws.head?, v.startedAt.val < w.startedAt.val := by
          intro v hv
          rcases hbelow v (List.mem_of_mem_head? hv) with hzero | hlt'
          · omega
          · exact hlt'
        obtain ⟨hwindowed, hcredit⟩ := ih hspaced hhead' hlt
        rw [List.takeWhile_cons_of_pos (by simpa using hc), List.length_cons, List.take_succ_cons]
        refine ⟨⟨hw, hstop, hwindowed⟩, fun rate stake => ?_⟩
        rw [creditIn, creditOf, Nat.min_eq_right hw.le, hcredit]
      · have hle : w.startedAt.val ≤ cursor.val := not_lt.mp hc
        rw [List.takeWhile_cons_of_neg (by simpa using hc), List.length_nil, List.take_succ_cons,
          List.take_zero]
        refine ⟨⟨hw, hstop, trivial⟩, fun rate stake => ?_⟩
        rw [creditIn, creditOf, creditOf, creditIn_eq_zero ((Nat.min_le_right _ _).trans hle)]

/-- **The selected snapshots** are worth what all of them are worth. -/
theorem creditIn_eq_selected {cursor : Slot} (hspaced : Spaced ws) (htil : cursor ≤ til) :
    Windowed cursor.val (til.val + 1)
        ((ws.take ((ws.takeWhile (fun w => cursor < w.startedAt)).length + 1)).dropWhile
          (fun w => til < w.startedAt))
      ∧ ∀ rate stake, creditIn rate cursor.val stake (til.val + 1) ws
        = creditOf rate cursor.val stake (til.val + 1)
          ((ws.take ((ws.takeWhile (fun w => cursor < w.startedAt)).length + 1)).dropWhile
            (fun w => til < w.startedAt)) := by
  induction ws with
  | nil => exact ⟨trivial, fun _ _ => rfl⟩
  | cons w ws ih =>
      by_cases hw : til < w.startedAt
      · -- a later snapshot has no slots before the end
        obtain ⟨hwindowed, hcredit⟩ := ih (List.pairwise_cons.mp hspaced).2
        have hc : cursor < w.startedAt := lt_of_le_of_lt htil hw
        have hlt := Word.lt_def.mp hw
        rw [List.takeWhile_cons_of_pos (by simpa using hc), List.length_cons, List.take_succ_cons,
          List.dropWhile_cons_of_pos (by simpa using hw)]
        refine ⟨hwindowed, fun rate stake => ?_⟩
        rw [creditIn, snapshotTokens_eq_zero (hlt.trans_le (le_max_left _ _)), Nat.zero_add,
          Nat.min_eq_left hlt, hcredit]
      · -- it started by the end, and so did all older ones
        have hle : w.startedAt.val ≤ til.val := not_lt.mp hw
        have hhead : ∀ v ∈ (w :: ws).head?, v.startedAt.val < til.val + 1 := by
          rintro _ ⟨⟩
          exact Nat.lt_succ_of_le hle
        obtain ⟨hwindowed, hcredit⟩ := creditIn_eq_take hspaced hhead (Nat.lt_succ_of_le htil)
        have hkept : ∀ n, ((w :: ws).take (n + 1)).dropWhile (fun w => til < w.startedAt)
            = (w :: ws).take (n + 1) := by
          intro n
          rw [List.take_succ_cons]
          exact List.dropWhile_cons_of_neg (by simpa using hw)
        rw [hkept]
        exact ⟨hwindowed, hcredit⟩

/-! ## Well-kept farms -/

/-- What holds of every farm that the program keeps. -/
structure Farm.WellKept (farm : Farm) : Prop where
  laidOut : farm.LaidOut
  spaced : Spaced farm.windows
  slots : farm.harvests.length = MAX_HARVEST_MINTS

theorem Farm.size_harvestsMap_le (farm : Farm) (h : farm.harvests.length = MAX_HARVEST_MINTS) :
    farm.harvestsMap.size ≤ MAX_HARVEST_MINTS := by
  refine Std.TreeMap.size_ofList_le.trans ?_
  rw [List.length_map, h]

/-- The snapshots and the number of slots of every farm. -/
def FarmsKept (s : FarmingState) : Prop :=
  ∀ F farm, s.farms.lookup F = some farm →
    Spaced farm.windows ∧ farm.harvests.length = MAX_HARVEST_MINTS

theorem spaced_empty : Spaced (default : Farm).windows := by
  rw [Farm.windows_default]
  exact List.pairwise_replicate.mpr (.inr (.inl rfl))

/-- A snapshot comes after those that are retained. -/
theorem Farm.Snapped.spaced {clock : Slot} {n : TokenAmount} (h : Farm.Snapped farm farm' clock n)
    (hspaced : Spaced farm.windows) : Spaced farm'.windows := by
  rw [h.windows]
  refine List.pairwise_cons.mpr ⟨fun w hw => ?_, hspaced.sublist (List.dropLast_sublist _)⟩
  have hmem := List.dropLast_subset _ hw
  rw [farm.windows_eq_cons] at hmem
  unfold Spaced at hspaced
  rw [farm.windows_eq_cons] at hspaced
  rcases List.mem_cons.mp hmem with rfl | hmem
  · exact .inr h.later
  · exact ((List.pairwise_cons.mp hspaced).1 w hmem).imp_right (fun hlt => hlt.trans h.later)

theorem Acts.farmsKept (ha : Acts act s s') (hs : FarmsKept s) : FarmsKept s' := by
  refine ha.everyFarm ?hnew ?hsettings ?hadd ?hremove ?hperiod ?hsnap hs
  case hnew => exact ⟨spaced_empty, List.length_replicate⟩
  case hsettings =>
    intro farm farm' hfarm same
    unfold Farm.windows
    rw [same.harvests, same.snapshots]
    exact hfarm
  case hadd =>
    intro farm farm' m v hfarm hadd
    obtain ⟨_, -, rfl⟩ := addHarvest_cases hadd |>.2.2
    exact hfarm.imp_right (Lists.length_setFirst.trans ·)
  case hremove => exact fun hfarm _ => hfarm.imp_right (Lists.length_setFirst.trans ·)
  case hperiod => exact fun hfarm _ _ => hfarm.imp_right (Lists.length_setFirst.trans ·)
  case hsnap =>
    intro farm farm' now n hfarm hsnap
    refine ⟨hsnap.spaced hfarm.1, ?_⟩
    rw [hsnap.pushed]
    exact hfarm.2

theorem Harvests.farmsKept {h : Option (FarmerKey × Slot)} (hh : Harvests s h s₁)
    (hs : FarmsKept s) : FarmsKept s₁ := by
  cases hh with
  | none => exact hs
  | check _ _ _ _ => exact hs

/-- **Every reachable farm** is well kept. -/
theorem run_wellKept (hp : env.tokenProgram.Lawful) (hg : Genesis s) (is : List Instr)
    (hfarm : (Machine.run (step env) s is).farms.lookup F = some farm) : farm.WellKept := by
  have hkept : Custody (Machine.run (step env) s is) ∧ FarmsKept (Machine.run (step env) s is) := by
    refine Machine.run_invariant' (I := fun s => Custody s ∧ FarmsKept s) (fun s i s' hI h => ?_)
      ⟨hg.custody, hg.every_farm⟩ is
    obtain ⟨s₁, hh, ha⟩ := step_ok hp hI.1 h
    exact ⟨step_custody hp hI.1 h, ha.farmsKept (hh.farmsKept hI.2)⟩
  obtain ⟨hspaced, hslots⟩ := hkept.2 F farm hfarm
  exact ⟨fun h hh => (run_periodsInOrder hp hg is F farm hfarm h hh).laidOut, hspaced, hslots⟩

/-! ## The maps of an update -/

section Maps

variable {k k' : Pubkey} {u : Harvested} {farmHarvests : BTreeMap Harvest}

/-- One mint is added unless it is there. -/
theorem getElem?_insert_missing :
    (if u.contains k' then u else u.insert k' 0)[k]?
      = if k = k' then some (u.getD k 0) else u[k]? := by
  by_cases hk : k = k'
  · subst hk
    rw [if_pos rfl, Std.TreeMap.getD_eq_getD_getElem?]
    by_cases hc : u.contains k = true
    · rw [if_pos hc]
      rw [Std.TreeMap.contains_eq_isSome_getElem?] at hc
      obtain ⟨v, hv⟩ := Option.isSome_iff_exists.mp hc
      rw [hv, Option.getD_some]
    · rw [if_neg hc, Std.TreeMap.getElem?_insert_self]
      rw [Std.TreeMap.contains_eq_isSome_getElem?, Bool.not_eq_true, Option.isSome_eq_false_iff,
        Option.isNone_iff_eq_none] at hc
      rw [hc, Option.getD_none]
  · rw [if_neg hk]
    split
    · rfl
    · exact getElem?_insert_ne hk

/-- A farmer's map gets exactly the mints of the farm. -/
theorem getElem?_syncHarvestMints :
    (syncHarvestMints farmHarvests u)[k]?
      = if farmHarvests.contains k then some (u.getD k 0) else none := by
  have hfold : ∀ (ks : List Pubkey) (u : Harvested),
      (ks.foldl (fun u mint => if u.contains mint then u else u.insert mint 0) u)[k]?
        = if k ∈ ks then some (u.getD k 0) else u[k]? := by
    intro ks
    induction ks with
    | nil => exact fun u => (if_neg List.not_mem_nil).symm
    | cons k' ks ih =>
        intro u
        have hstep : (if u.contains k' then u else u.insert k' 0)[k]? = _ :=
          getElem?_insert_missing
        rw [List.foldl_cons, ih, Std.TreeMap.getD_eq_getD_getElem?, hstep]
        by_cases hk : k = k'
        · rw [if_pos hk, Option.getD_some, ite_self, if_pos (hk ▸ List.mem_cons_self)]
        · rw [if_neg hk, ← Std.TreeMap.getD_eq_getD_getElem?]
          simp only [List.mem_cons, hk, false_or]
  have hkeys : k ∈ farmHarvests.keys ↔ farmHarvests.contains k = true := by
    rw [Std.TreeMap.mem_keys, Std.TreeMap.mem_iff_contains]
  unfold syncHarvestMints
  rw [hfold]
  by_cases hc : farmHarvests.contains k = true
  · rw [if_pos (hkeys.mpr hc), if_pos hc, Std.TreeMap.getD_filter',
      Std.TreeMap.getD_eq_getD_getElem?]
    cases u[k]? with
    | none => rfl
    | some v => rw [Option.filter_some, if_pos hc]
  · rw [if_neg (fun h => hc (hkeys.mp h)), if_neg hc, Std.TreeMap.getElem?_filter']
    cases u[k]? with
    | none => rfl
    | some v => rw [Option.filter_some, if_neg hc]

end Maps

/-! ## One update -/

/-- What a farm releases of a mint to a stake between two slots. -/
def Farm.gain (farm : Farm) (since stake stop : ℕ) (k : Pubkey) : ℕ :=
  if k = default then 0
  else farm.harvestsMap[k]?.elim 0 (fun h => creditIn h.rateAt since stake stop farm.windows)

namespace Farmer

variable {f f' : Farmer} {k : Pubkey} {out : Harvested}

/-- The tokens of a farmer after an update. -/
def earned (f : Farmer) (farm : Farm) (til : Slot) (k : Pubkey) : ℕ :=
  tokensOf f.harvestsMap k
    + farm.gain f.calculateNextHarvestFrom.val f.staked.val (til.val + 1) k

/-- The farmer after an update. -/
def updated (f : Farmer) (farm : Farm) (til : Slot) : Farmer :=
  { f.setHarvests (farm.harvestsMap.map (fun k _ => Word.wrap (f.earned farm til k))).toList with
    calculateNextHarvestFrom := Word.wrap (til.val + 1) }

/-- Every amount of an update fits. -/
def Fits (f : Farmer) (farm : Farm) (til : Slot) : Prop :=
  til.val + 1 < 2 ^ 64 ∧ ∀ k : Pubkey, farm.harvestsMap.contains k = true →
    f.earned farm til k < 2 ^ 64

theorem selected_windowed (hfarm : farm.WellKept) (htil : f.calculateNextHarvestFrom ≤ til) :
    Windowed f.calculateNextHarvestFrom.val (til.val + 1)
        ((farm.getWindowSnapshotsEligibleToHarvest f.calculateNextHarvestFrom).dropWhile
          (fun s => til < s.startedAt))
      ∧ ∀ rate stake, creditIn rate f.calculateNextHarvestFrom.val stake (til.val + 1) farm.windows
        = creditOf rate f.calculateNextHarvestFrom.val stake (til.val + 1)
          ((farm.getWindowSnapshotsEligibleToHarvest f.calculateNextHarvestFrom).dropWhile
            (fun s => til < s.startedAt)) := by
  rw [Farm.getWindowSnapshotsEligibleToHarvest_eq]
  exact creditIn_eq_selected hfarm.spaced htil

/-- What the farmer's map holds after crediting. -/
theorem eligibleHarvestUntil_entry (hfarm : farm.WellKept)
    (htil : f.calculateNextHarvestFrom ≤ til) (h : f.eligibleHarvestUntil farm til = .ok out)
    (hc : farm.harvestsMap.contains k = true) :
    ∃ v, out[k]? = some v ∧ v.val = f.earned farm til k := by
  have hmap := hfarm.laidOut.harvestsMap
  obtain ⟨hwindowed, hcredit⟩ := selected_windowed (f := f) hfarm htil
  have hadds := eligibleHarvestUntil_adds hmap hwindowed h
  have hsync : (syncHarvestMints farm.harvestsMap f.harvestsMap)[k]?
      = some (f.harvestsMap.getD k 0) := by rw [getElem?_syncHarvestMints, if_pos hc]
  obtain ⟨harvest, hharvest⟩ : ∃ harvest, farm.harvestsMap[k]? = some harvest := by
    rw [Std.TreeMap.contains_eq_isSome_getElem?] at hc
    exact Option.isSome_iff_exists.mp hc
  obtain ⟨v, hv⟩ := Option.isSome_iff_exists.mp (hadds.keys k (by rw [hsync]; rfl))
  refine ⟨v, hv, ?_⟩
  unfold earned Farm.gain
  by_cases hk : k = default
  · have hother : k ∉ (initialised farm.harvestsMap).map Harvest.mint := by
      intro hmem
      obtain ⟨h', hh', rfl⟩ := List.mem_map.mp hmem
      exact (hmap.mem_initialised.mp hh').2 hk
    rw [hadds.others k hother, hsync] at hv
    rw [if_pos hk, Nat.add_zero, ← Option.some.inj hv]
    rfl
  · obtain rfl := hmap.mint k harvest hharvest
    have hadded := hadds.added harvest (hmap.mem_initialised.mpr ⟨hharvest, hk⟩)
    rw [tokensOf_of_getElem? hv, tokensOf_of_getElem? hsync] at hadded
    rw [if_neg hk, hharvest, Option.elim_some, hcredit, hadded]
    rfl

theorem eligibleHarvestUntil_none (hfarm : farm.WellKept)
    (htil : f.calculateNextHarvestFrom ≤ til) (h : f.eligibleHarvestUntil farm til = .ok out)
    (hc : ¬ farm.harvestsMap.contains k = true) : out[k]? = none := by
  have hmap := hfarm.laidOut.harvestsMap
  have hadds := eligibleHarvestUntil_adds hmap (selected_windowed (f := f) hfarm htil).1 h
  have hother : k ∉ (initialised farm.harvestsMap).map Harvest.mint := by
    intro hmem
    obtain ⟨h', hh', rfl⟩ := List.mem_map.mp hmem
    rw [Std.TreeMap.contains_eq_isSome_getElem?, (hmap.mem_initialised.mp hh').1] at hc
    exact hc rfl
  rw [hadds.others k hother, getElem?_syncHarvestMints, if_neg hc]

/-- **One update** does exactly this, and fails only if an amount does not
fit. -/
theorem updateEligibleHarvest_eq_ok (hfarm : farm.WellKept)
    (hlt : f.calculateNextHarvestFrom < til) :
    f.updateEligibleHarvest farm til = .ok f' ↔ f.Fits farm til ∧ f' = f.updated farm til := by
  have hmap := hfarm.laidOut.harvestsMap
  -- the map that crediting returns
  have hlist : ∀ out, f.eligibleHarvestUntil farm til = .ok out → out.toList
      = (farm.harvestsMap.map (fun k _ => Word.wrap (f.earned farm til k))).toList := by
    intro out hout
    refine Maps.toList_congr (fun k => ?_)
    rw [Std.TreeMap.getElem?_map]
    by_cases hc : farm.harvestsMap.contains k = true
    · obtain ⟨v, hv, hval⟩ := eligibleHarvestUntil_entry hfarm hlt.le hout hc
      rw [Std.TreeMap.contains_eq_isSome_getElem?] at hc
      obtain ⟨harvest, hharvest⟩ := Option.isSome_iff_exists.mp hc
      rw [hv, hharvest, Option.map_some, ← hval]
      exact congrArg some (Word.ext (Word.wrap_val v.isLt).symm)
    · rw [eligibleHarvestUntil_none hfarm hlt.le hout hc]
      rw [Std.TreeMap.contains_eq_isSome_getElem?, Bool.not_eq_true, Option.isSome_eq_false_iff,
        Option.isNone_iff_eq_none] at hc
      rw [hc, Option.map_none]
  unfold updateEligibleHarvest updated
  rw [if_neg (not_le.mpr hlt)]
  simp only [bind_eq_ok, Slot.succ_eq_ok, pure_eq_ok]
  constructor
  · rintro ⟨out, hout, next, hnext, rfl⟩
    have hfit := next.isLt
    refine ⟨⟨by omega, fun k hc => ?_⟩, ?_⟩
    · obtain ⟨v, -, hval⟩ := eligibleHarvestUntil_entry hfarm hlt.le hout hc
      rw [← hval]
      exact v.isLt
    · rw [hlist out hout, ← hnext]
      congr 1
      exact Word.ext (Word.wrap_val hfit).symm
  · rintro ⟨⟨hnext, hfits⟩, rfl⟩
    obtain ⟨hwindowed, hcredit⟩ := selected_windowed (f := f) hfarm hlt.le
    have hout : ∃ out, f.eligibleHarvestUntil farm til = .ok out := by
      refine eligibleHarvestUntil_fits hmap hwindowed hnext (fun h hh => ?_)
      obtain ⟨hget, hne⟩ := hmap.mem_initialised.mp hh
      have hc : farm.harvestsMap.contains h.mint = true := by
        rw [Std.TreeMap.contains_eq_isSome_getElem?, hget]
        rfl
      have hfit := hfits h.mint hc
      rw [earned, Farm.gain, if_neg hne, hget, Option.elim_some, hcredit] at hfit
      rw [tokensOf, Std.TreeMap.getD_eq_getD_getElem?, getElem?_syncHarvestMints, if_pos hc]
      exact hfit
    obtain ⟨out, hout⟩ := hout
    refine ⟨out, hout, Word.wrap (til.val + 1), Word.wrap_val hnext, ?_⟩
    rw [hlist out hout]

end Farmer

end SolanaAmm.Farming
