import SolanaAmm.Farming.Outcomes

/-!
# Farming — Governance

What becomes of a farm while its admin signs nothing. Everybody else may
call any endpoint on it; the farm takes snapshots, each at least a window
after the one before, and that is all: its admin, mints, vault, harvests,
window and whitelisted targets stay.
-/

namespace SolanaAmm.Farming

open Result Token Machine

variable {env : Env} {s s' : FarmingState} {F : Pubkey} {i : Instr} {farm farm' : Farm}

/-- The farm that an instruction sets up, and the admin who signs for it. -/
def Instr.governs : Instr → Option (Pubkey × Pubkey)
  | .addHarvest admin farm _ => some (farm, admin)
  | .removeHarvest admin farm _ => some (farm, admin)
  | .setFarmOwner admin _ farm => some (farm, admin)
  | .setMinSnapshotWindow admin farm _ => some (farm, admin)
  | .newHarvestPeriod accs _ _ _ _ => some (accs.farm, accs.admin)
  | .whitelistFarmForCompounding admin sourceFarm _ => some (sourceFarm, admin)
  | .dewhitelistFarmForCompounding admin sourceFarm _ => some (sourceFarm, admin)
  | _ => none

/-! ## Snapshots -/

/-- The farm took the snapshots `ws`, newest first, and did nothing else. -/
structure OnlySnapshots (farm farm' : Farm) (ws : List Snapshot) : Prop where
  taken : farm' = { farm with snapshots := ws.foldr (fun w buffer => buffer.push w) farm.snapshots }
  /-- Each one is at least a window after the one before it. -/
  spaced : List.IsChain (fun w v : Snapshot =>
    v.startedAt.val + farm.snapshotWindowSlots.val ≤ w.startedAt.val) (ws ++ [farm.latestSnapshot])

namespace OnlySnapshots

variable {ws : List Snapshot}

theorem refl (farm : Farm) : OnlySnapshots farm farm [] :=
  ⟨rfl, List.isChain_singleton _⟩

theorem window (h : OnlySnapshots farm farm' ws) :
    farm'.snapshotWindowSlots = farm.snapshotWindowSlots := by
  rw [h.taken]
  rfl

/-- The latest snapshot comes first. -/
theorem head?_eq (h : OnlySnapshots farm farm' ws) :
    (ws ++ [farm.latestSnapshot]).head? = some farm'.latestSnapshot := by
  rw [h.taken]
  cases ws with
  | nil => rfl
  | cons w ws => exact congrArg some (RingBuffer.latest_push _ w).symm

/-- **One more snapshot**, after a window. -/
theorem takeSnapshot (h : OnlySnapshots farm farm' ws) {clock : Slot} {n : TokenAmount}
    {farm'' : Farm} (hsnap : farm'.takeSnapshot clock n = .ok farm'') :
    OnlySnapshots farm farm'' (⟨n, clock⟩ :: ws) := by
  have hhead := h.head?_eq
  have hwindow := h.window
  simp only [Farm.takeSnapshot, bind_eq_ok, okOr_eq_ok, Word.checkedAdd_eq_some, ensure_eq_ok,
    pure_eq_ok, not_lt] at hsnap
  obtain ⟨next, hnext, -, hle, rfl⟩ := hsnap
  refine ⟨?_, ?_⟩
  · rw [h.taken, List.foldr_cons]
  · rw [List.cons_append, List.isChain_cons]
    refine ⟨fun v hv => ?_, h.spaced⟩
    rw [hhead, Option.mem_some_iff] at hv
    subst hv
    rw [← hwindow, ← hnext]
    exact hle

end OnlySnapshots

/-! ## The step -/

/-- The whitelisted targets of a farm are as before. -/
def SameTargets (F : Pubkey) (s s' : FarmingState) : Prop :=
  ∀ G, s'.whitelist.lookup (F, G) = s.whitelist.lookup (F, G)

/-- An instruction that signs for another farm, or with another key, has not
the farm's admin behind it. -/
theorem AdminOf.ne {G admin : Pubkey} {farm farm' : Farm} (h : AdminOf s G admin farm')
    (hfarm : s.farms.lookup F = some farm) (hi : some (G, admin) ≠ some (F, farm.admin)) :
    F ≠ G := by
  rintro rfl
  obtain rfl := Option.some.inj (hfarm.symm.trans h.known)
  exact hi (by rw [h.signed])

/-- **One step** without the signature of the farm's admin. -/
theorem Outcome.onlySnapshots (ho : Outcome env s i s') (hfarm : s.farms.lookup F = some farm)
    (hi : i.governs ≠ some (F, farm.admin)) :
    (s'.farms.lookup F = some farm
      ∨ ∃ n farm', farm.takeSnapshot s.slot n = .ok farm' ∧ s'.farms.lookup F = some farm')
    ∧ SameTargets F s s' := by
  have hsame : SameTargets F s s := fun _ => rfl
  cases ho with
  | createFarm hnew hinit =>
      refine ⟨.inl ?_, hsame⟩
      refine (AList.lookup_insert_ne ?_).trans hfarm
      rintro rfl
      rw [hnew] at hfarm
      cases hfarm
  | addHarvest hadmin hadd hinit =>
      exact ⟨.inl ((AList.lookup_insert_ne (hadmin.ne hfarm hi)).trans hfarm), hsame⟩
  | removeHarvest hadmin hfind hclosed =>
      exact ⟨.inl ((AList.lookup_insert_ne (hadmin.ne hfarm hi)).trans hfarm), hsame⟩
  | setFarmOwner hadmin =>
      exact ⟨.inl ((AList.lookup_insert_ne (hadmin.ne hfarm hi)).trans hfarm), hsame⟩
  | setMinSnapshotWindow hadmin =>
      exact ⟨.inl ((AList.lookup_insert_ne (hadmin.ne hfarm hi)).trans hfarm), hsame⟩
  | newHarvestPeriod hadmin hfind hsched hfunded hnet =>
      exact ⟨.inl ((AList.lookup_insert_ne (hadmin.ne hfarm hi)).trans hfarm), hsame⟩
  | @takeSnapshot G vault g g' n hg hvault hsnap =>
      refine ⟨?_, hsame⟩
      by_cases he : F = G
      · subst he
        obtain rfl := Option.some.inj (hfarm.symm.trans hg)
        exact .inr ⟨n, g', hsnap, AList.lookup_insert _⟩
      · exact .inl ((AList.lookup_insert_ne he).trans hfarm)
  | whitelist hadmin =>
      refine ⟨.inl hfarm, fun G => AList.lookup_insert_ne (fun he => ?_)⟩
      exact hadmin.ne hfarm hi (congrArg Prod.fst he)
  | dewhitelist hadmin =>
      refine ⟨.inl hfarm, fun G => AList.lookup_erase_ne (fun he => ?_)⟩
      exact hadmin.ne hfarm hi (congrArg Prod.fst he)
  | _ => exact ⟨.inl hfarm, hsame⟩

/-! ## The run -/

/-- **A farm answers to its admin.** From any state that is reached, and
through any further run in which the farm's admin signs no instruction for
it, the farm only takes snapshots, each at least its window after the one
before, and it compounds to the same targets. -/
theorem farm_answers_to_admin (hp : env.tokenProgram.Lawful) (hg : Genesis s) (is : List Instr)
    (hfarm : (run (step env) s is).farms.lookup F = some farm) {js : List Instr}
    (hjs : ∀ j ∈ js, j.governs ≠ some (F, farm.admin)) :
    (∃ farm' ws, (run (step env) (run (step env) s is) js).farms.lookup F = some farm'
      ∧ OnlySnapshots farm farm' ws)
    ∧ SameTargets F (run (step env) s is) (run (step env) (run (step env) s is) js) := by
  have hguarded : Guarded (step env) (fun _ j => j.governs ≠ some (F, farm.admin))
      (run (step env) s is) js := Guarded.of_forall hjs
  have hend := run_invariant
    (I := fun t => Reached t
      ∧ (∃ farm' ws, t.farms.lookup F = some farm' ∧ OnlySnapshots farm farm' ws)
      ∧ SameTargets F (run (step env) s is) t)
    ?step ⟨run_reached hp hg is, ⟨farm, [], hfarm, .refl farm⟩, fun _ => rfl⟩ hguarded
  case step =>
    rintro t j t' ⟨ht, ⟨farm', ws, hfarm', honly⟩, htargets⟩ hj h
    have hadmin : farm'.admin = farm.admin := by rw [honly.taken]
    obtain ⟨hnext, hsame⟩ := (step_outcome hp ht.custody h).onlySnapshots hfarm'
      (by rw [hadmin]; exact hj)
    refine ⟨step_reached hp ht h, ?_, fun G => (hsame G).trans (htargets G)⟩
    rcases hnext with hkept | ⟨n, farm'', hsnap, hkept⟩
    · exact ⟨farm', ws, hkept, honly⟩
    · exact ⟨farm'', _, hkept, honly.takeSnapshot hsnap⟩
  exact hend.2

/-- Users stake, take snapshots and try to close the window of the farm of
the admin 2. -/
def strangersAtWork : List Instr :=
  [.tick 5, stakeOf 10 20 50, snapshotNow, .setMinSnapshotWindow 10 1 9, .tick 9, snapshotNow]

theorem farm_answers_to_admin_strangers :
    ∃ farm farm' ws, (run (step sampleEnv) sampleGenesis openFarm).farms.lookup 1 = some farm
      ∧ (run (step sampleEnv) (run (step sampleEnv) sampleGenesis openFarm)
        strangersAtWork).farms.lookup 1 = some farm'
      ∧ OnlySnapshots farm farm' ws ∧ farm'.latestSnapshot = ⟨50, 9⟩ := by
  obtain ⟨farm, hfarm, hadmin⟩ := Option.map_eq_some_iff.mp (show
    ((run (step sampleEnv) sampleGenesis openFarm).farms.lookup 1).map (·.admin) = some 2 by
      decide +kernel)
  have hjs : ∀ j ∈ strangersAtWork, j.governs ≠ some (1, farm.admin) := by
    rw [hadmin]
    decide
  obtain ⟨⟨farm', ws, hfarm', honly⟩, -⟩ := farm_answers_to_admin Token.Reference.lawful
    sampleGenesis_genesis openFarm hfarm hjs
  have hlatest : ((run (step sampleEnv) (run (step sampleEnv) sampleGenesis openFarm)
      strangersAtWork).farms.lookup 1).map (·.latestSnapshot) = some ⟨50, 9⟩ := by
    decide +kernel
  rw [hfarm'] at hlatest
  exact ⟨farm, farm', ws, hfarm, hfarm', honly, Option.some.inj hlatest⟩

end SolanaAmm.Farming
