import SolanaAmm.Farming.Cursor

/-!
# Farming — Vesting

When vested tokens start to earn. All of a farmer's vested tokens share one
amount and one slot, while the rule speaks of every deposit on its own:
it earns from the first snapshot after it on. So the history is asked for
what the accounts have forgotten, the slots of the deposits that are still
vested (`pendingOf`) and the snapshots that the ring buffer has
overwritten (`snapshotsOf`). The two agree with the accounts as long as no
deposit is stamped anew past a snapshot.
-/

namespace SolanaAmm.Farming

open Result Machine

variable {env : Env} {s s₁ s' : FarmingState} {act : Act} {F : Pubkey} {k : FarmerKey}
  {farm : Farm} {i : Instr} {h : History FarmingState Instr} {e : Event FarmingState Instr}
  {V : Slot} {S : Snapshot} {p p' : FarmingState × History FarmingState Instr}

/-! ## All snapshots of a farm -/

/-- The snapshots that a farm has taken, newest first. -/
def snapshotsOf (F : Pubkey) (h : History FarmingState Instr) : List Snapshot :=
  h.filterMap (fun e =>
    if e.instr.act = .snapshot F then (e.after.farms.lookup F).map Farm.latestSnapshot else none)

theorem snapshotsOf_cons_of_ne (hact : e.instr.act ≠ .snapshot F) :
    snapshotsOf F (e :: h) = snapshotsOf F h :=
  List.filterMap_cons_none (if_neg hact)

/-- The history in front of the cells that were never written. -/
def recordOf (F : Pubkey) (h : History FarmingState Instr) : List Snapshot :=
  snapshotsOf F h ++ List.replicate SNAPSHOTS_LEN default

/-- The buffer holds the last snapshots of the history. -/
structure Recorded (p : FarmingState × History FarmingState Instr) : Prop where
  absent : ∀ F, p.1.farms.lookup F = none → snapshotsOf F p.2 = []
  windows : ∀ F farm, p.1.farms.lookup F = some farm →
    farm.windows = (recordOf F p.2).take SNAPSHOTS_LEN
  chronological : ∀ F, Farm.Chronological (recordOf F p.2)

theorem latestSnapshot_of_windows {l : List Snapshot}
    (hw : farm.windows = l.take SNAPSHOTS_LEN) : ∃ l', l = farm.latestSnapshot :: l' := by
  cases l with
  | nil =>
      have := farm.length_windows
      rw [hw] at this
      cases this
  | cons w l =>
      rw [Farm.windows_eq_cons, List.take_succ_cons] at hw
      exact ⟨l, by rw [(List.cons.inj hw).1]⟩

theorem length_recordOf : SNAPSHOTS_LEN ≤ (recordOf F h).length := by
  rw [recordOf, List.length_append, List.length_replicate]
  exact Nat.le_add_left _ _

theorem Recorded.step (hr : Recorded p) (hh : Harvests p.1 (i.harvests p.1.slot) s₁)
    (ha : Acts i.act s₁ s') : Recorded (s', ⟨p.1, i, s'⟩ :: p.2) := by
  have hmoves : ∀ F, FarmMoves i.act s₁ F (p.1.farms.lookup F) (s'.farms.lookup F) := fun F => by
    have := ha.farm F
    rwa [hh.farms_eq] at this
  -- one farm: its history and its buffer
  have key : ∀ F, (s'.farms.lookup F = none → snapshotsOf F (⟨p.1, i, s'⟩ :: p.2) = [])
      ∧ (∀ farm, s'.farms.lookup F = some farm →
        farm.windows = (recordOf F (⟨p.1, i, s'⟩ :: p.2)).take SNAPSHOTS_LEN)
      ∧ Farm.Chronological (recordOf F (⟨p.1, i, s'⟩ :: p.2)) := by
    intro F
    have hm := hmoves F
    generalize ho : p.1.farms.lookup F = o at hm
    generalize ho' : s'.farms.lookup F = o' at hm
    cases hm with
    | absent =>
        have hsame : snapshotsOf F (⟨p.1, i, s'⟩ :: p.2) = snapshotsOf F p.2 := by
          by_cases hact : i.act = .snapshot F
          · refine List.filterMap_cons_none ?_
            rw [if_pos hact, ho']
            rfl
          · exact snapshotsOf_cons_of_ne hact
        refine ⟨fun _ => hsame.trans (hr.absent F ho), fun _ h => (nomatch h), ?_⟩
        rw [recordOf, hsame]
        exact hr.chronological F
    | @created farm hvault hsnap hact =>
        have hsame : snapshotsOf F (⟨p.1, i, s'⟩ :: p.2) = snapshotsOf F p.2 :=
          snapshotsOf_cons_of_ne hact
        refine ⟨fun h => (nomatch h), fun g hg => ?_, ?_⟩
        · obtain rfl := Option.some.inj hg
          rw [recordOf, hsame, hr.absent F ho, List.nil_append,
            List.take_of_length_le (Nat.le_of_eq List.length_replicate), Farm.windows, hsnap]
          exact Farm.windows_default
        · rw [recordOf, hsame]
          exact hr.chronological F
    | @kept farm farm' hsnap hact =>
        have hsame : snapshotsOf F (⟨p.1, i, s'⟩ :: p.2) = snapshotsOf F p.2 :=
          snapshotsOf_cons_of_ne hact
        refine ⟨fun h => (nomatch h), fun g hg => ?_, ?_⟩
        · obtain rfl := Option.some.inj hg
          rw [recordOf, hsame, ← recordOf, ← hr.windows F farm ho]
          exact congrArg RingBuffer.newestFirst hsnap
        · rw [recordOf, hsame]
          exact hr.chronological F
    | @snapped farm farm' n hact hvault hsnap =>
        have hlatest : farm'.latestSnapshot = ⟨n, s₁.slot⟩ := by
          have hcons := farm'.windows_eq_cons
          rw [hsnap.windows] at hcons
          exact (List.cons.inj hcons).1.symm
        have hnew : recordOf F (⟨p.1, i, s'⟩ :: p.2) = ⟨n, s₁.slot⟩ :: recordOf F p.2 := by
          have hcons : snapshotsOf F (⟨p.1, i, s'⟩ :: p.2) = ⟨n, s₁.slot⟩ :: snapshotsOf F p.2 := by
            refine List.filterMap_cons_some ?_
            rw [if_pos hact, ho', Option.map_some, hlatest]
          rw [recordOf, hcons]
          rfl
        refine ⟨fun h => (nomatch h), fun g hg => ?_, ?_⟩
        · obtain rfl := Option.some.inj hg
          rw [hnew, hsnap.windows, hr.windows F farm ho,
            List.dropLast_take_eq_take_dropLast, List.dropLast_eq_take, List.take_take,
            show SNAPSHOTS_LEN = SNAPSHOTS_LEN - 1 + 1 from rfl, List.take_succ_cons,
            Nat.add_sub_cancel, Nat.min_eq_left]
          have := length_recordOf (F := F) (h := p.2)
          omega
        · rw [hnew]
          obtain ⟨older, holder⟩ := latestSnapshot_of_windows (hr.windows F farm ho)
          refine List.pairwise_cons.mpr ⟨fun w hw => ?_, hr.chronological F⟩
          have hchron := hr.chronological F
          rw [holder] at hw hchron
          rcases List.mem_cons.mp hw with rfl | hw
          · exact hsnap.later.le
          · exact ((List.pairwise_cons.mp hchron).1 w hw).trans hsnap.later.le
  exact ⟨fun F => (key F).1, fun F farm => (key F).2.1 farm, fun F => (key F).2.2⟩

/-- The latest snapshot of the buffer is that of the history. -/
theorem Recorded.le_latest {w : Snapshot} (hr : Recorded p) (hw : w ∈ snapshotsOf F p.2) :
    ∃ farm, p.1.farms.lookup F = some farm ∧ w.startedAt ≤ farm.latestSnapshot.startedAt := by
  cases hfarm : p.1.farms.lookup F with
  | none =>
      rw [hr.absent F hfarm] at hw
      cases hw
  | some farm =>
      refine ⟨farm, rfl, ?_⟩
      obtain ⟨rest, hrest⟩ := latestSnapshot_of_windows (hr.windows F farm hfarm)
      have hchron := hr.chronological F
      have hmem : w ∈ recordOf F p.2 := List.mem_append_left _ hw
      rw [hrest] at hchron hmem
      rcases List.mem_cons.mp hmem with rfl | hmem
      · exact le_rfl
      · exact (List.pairwise_cons.mp hchron).1 w hmem

/-- The first snapshot after a slot, among all that the farm has taken. -/
def FirstAfter (l : List Snapshot) (V : Slot) (S : Snapshot) : Prop :=
  ∃ newer older, l = newer ++ S :: older ∧ V < S.startedAt ∧ ∀ w ∈ older, w.startedAt ≤ V

/-- **The buffer finds it**, if it finds any. -/
theorem Recorded.firstSnapshotAfter (hr : Recorded p) (hfarm : p.1.farms.lookup F = some farm)
    (hfirst : FirstAfter (snapshotsOf F p.2) V S) (hsome : farm.firstSnapshotAfter V ≠ none) :
    farm.firstSnapshotAfter V = some S := by
  obtain ⟨newer, older, hl, hV, holder⟩ := hfirst
  obtain ⟨S', hS'⟩ := Option.ne_none_iff_exists'.mp hsome
  obtain ⟨newer', w, older', hw, hnewer', hVS', hwV⟩ := Farm.firstSnapshotAfter_eq_some.mp hS'
  have hchron := hr.chronological F
  have hwindows := hr.windows F farm hfarm
  -- both end the part of the record that is later than the slot
  have hrecord : (recordOf F p.2).takeWhile (fun s => V < s.startedAt) = newer ++ [S] := by
    have hsplit : recordOf F p.2
        = (newer ++ [S]) ++ (older ++ List.replicate SNAPSHOTS_LEN default) := by
      rw [recordOf, hl]
      simp
    rw [hsplit] at hchron ⊢
    refine Lists.takeWhile_append (fun s hs => decide_eq_true ?_)
      (fun s hs => decide_eq_false (not_lt.mpr ?_))
    · rcases List.mem_append.mp hs with hs | hs
      · exact hV.trans_le ((List.pairwise_append.mp (List.pairwise_append.mp hchron).1).2.2 s hs S
          List.mem_cons_self)
      · exact List.mem_singleton.mp hs ▸ hV
    · rcases List.mem_append.mp (List.mem_of_mem_head? hs) with hs | hs
      · exact holder s hs
      · rw [List.eq_of_mem_replicate hs]
        exact Nat.zero_le _
  have hbuffer : (recordOf F p.2).takeWhile (fun s => V < s.startedAt) = newer' ++ [S'] := by
    obtain ⟨rest, hrest⟩ : farm.windows <+: recordOf F p.2 := hwindows ▸ List.take_prefix _ _
    have hsplit : recordOf F p.2 = (newer' ++ [S']) ++ (w :: older' ++ rest) := by
      rw [← hrest, hw]
      simp
    rw [hsplit]
    refine Lists.takeWhile_append (fun s hs => decide_eq_true ?_)
      (fun s hs => decide_eq_false (not_lt.mpr ?_))
    · rcases List.mem_append.mp hs with hs | hs
      · exact hnewer' s hs
      · exact List.mem_singleton.mp hs ▸ hVS'
    · cases hs
      exact hwV
  rw [hrecord] at hbuffer
  obtain ⟨-, heq⟩ := List.append_inj' hbuffer rfl
  rw [hS', List.singleton_inj.mp heq]

/-! ## What is still vested -/

/-- The snapshot that the tokens of the farmer at `k` matured with. -/
def maturedBy (k : FarmerKey) (e : Event FarmingState Instr) : Option Snapshot := do
  let (key, _) ← e.instr.harvests e.before.slot
  guard (key = k)
  let farmer ← e.before.farmers.lookup k
  let farm ← e.before.farms.lookup k.1
  farmer.matureSnapshot farm

/-- The slots in which tokens were deposited that are vested after a step,
from those before it: maturing clears them, a deposit adds its slot, and
without vested tokens there are none. -/
def pendingAfter (k : FarmerKey) (e : Event FarmingState Instr) (pending : List Slot) :
    List Slot :=
  if (e.after.farmers.lookup k).any (fun f => f.vested ≠ 0) then
    (if e.instr.act = .deposit k then [e.before.slot] else [])
      ++ if (maturedBy k e).isSome then [] else pending
  else []

def pendingOf (k : FarmerKey) (h : History FarmingState Instr) : List Slot :=
  h.foldr (pendingAfter k) []

theorem mem_pendingAfter {vs : List Slot} (hV : V ∈ pendingAfter k e vs) :
    (∃ f', e.after.farmers.lookup k = some f' ∧ f'.vested ≠ 0)
    ∧ (e.instr.act = .deposit k ∧ V = e.before.slot ∨ maturedBy k e = none ∧ V ∈ vs) := by
  unfold pendingAfter at hV
  split at hV
  · rename_i hvested
    refine ⟨?_, ?_⟩
    · cases hf' : e.after.farmers.lookup k with
      | none => rw [hf'] at hvested; cases hvested
      | some f' => rw [hf'] at hvested; exact ⟨f', rfl, of_decide_eq_true hvested⟩
    rcases List.mem_append.mp hV with hV | hV
    · split at hV
      · rename_i hact
        exact .inl ⟨hact, List.mem_singleton.mp hV⟩
      · cases hV
    · split at hV
      · cases hV
      · rename_i hnone
        exact .inr ⟨Option.not_isSome_iff_eq_none.mp hnone, hV⟩
  · cases hV

theorem maturedBy_step {f : Farmer} {til : Slot} (hi : i.harvests s.slot = some (k, til))
    (hf : s.farmers.lookup k = some f) (hfarm : s.farms.lookup k.1 = some farm) :
    maturedBy k ⟨s, i, s'⟩ = f.matureSnapshot farm := by
  unfold maturedBy
  dsimp only
  rw [hi, Option.bind_eq_bind, Option.bind_some]
  dsimp only
  rw [Result.guard_eq_some (u := ()).mpr rfl, hf, hfarm]
  rfl

/-! ## The conditions -/

/-- Whose vested tokens an act adds to. -/
def Act.target : Act → Option FarmerKey
  | .deposit k => some k
  | _ => none

/-- Which farm takes a snapshot. -/
def Act.snapshotOf : Act → Option Pubkey
  | .snapshot F => some F
  | _ => none

/-- An instruction does not stamp tokens anew that a snapshot has made ripe,
or makes ripe in this slot: a deposit without a check finds none, and no
snapshot comes in a slot in which a farmer added to older tokens. A check
finds the snapshot that tokens are ripe with in the buffer. -/
structure KeepsVested (p : FarmingState × History FarmingState Instr) (i : Instr) : Prop where
  deposit : ∀ k ∈ i.act.target, (i.harvests p.1.slot).map Prod.fst ≠ some k →
    ∀ f ∈ p.1.farmers.lookup k, ∀ farm ∈ p.1.farms.lookup k.1,
      f.vested = 0 ∨ farm.latestSnapshot.startedAt ≤ f.vestedAt
  snapshot : ∀ F ∈ i.act.snapshotOf, ∀ e ∈ p.1.farmers.entries, e.1.1 = F →
    ∀ V ∈ pendingOf e.1 p.2, V = p.1.slot ∨ e.2.vestedAt < p.1.slot
  check : ∀ q ∈ i.harvests p.1.slot, ∀ f ∈ p.1.farmers.lookup q.1,
    ∀ farm ∈ p.1.farms.lookup q.1.1,
      f.vested = 0 ∨ farm.latestSnapshot.startedAt ≤ f.vestedAt
        ∨ farm.firstSnapshotAfter f.vestedAt ≠ none

instance : Decidable (KeepsVested p i) :=
  decidable_of_iff (_ ∧ _ ∧ _) ⟨fun h => ⟨h.1, h.2.1, h.2.2⟩, fun h => ⟨h.1, h.2, h.3⟩⟩

/-! ## Runs -/

/-- The check of a step counts every deposit that a snapshot has made ripe
from the first such snapshot on: it credits what comes before the snapshot
with the staked tokens, and then continues at the snapshot with the vested
ones added. -/
def CountsRipe (e : Event FarmingState Instr) (h : History FarmingState Instr) : Prop :=
  ∀ k til f farm, e.instr.harvests e.before.slot = some (k, til) →
    e.before.farmers.lookup k = some f → e.before.farms.lookup k.1 = some farm →
    ∀ V ∈ pendingOf k h, ∀ S, FirstAfter (snapshotsOf k.1 h) V S →
      ∃ f₁ f', f.checkVestedPeriodAndUpdateHarvest farm til = .ok f'
        ∧ f.stakeVestedFrom farm S = .ok f₁ ∧ f.Matured f₁ S
        ∧ f₁.updateEligibleHarvest farm til = .ok f'

/-- Every check of the history did. -/
def OnTime (h : History FarmingState Instr) : Prop :=
  ∀ e earlier, e :: earlier <:+ h → CountsRipe e earlier

theorem OnTime.cons (he : CountsRipe e h) (hh : OnTime h) : OnTime (e :: h) := by
  intro e' earlier hsuffix
  rcases List.suffix_cons_iff.mp hsuffix with heq | hsuffix
  · obtain ⟨rfl, rfl⟩ := List.cons.inj heq
    exact he
  · exact hh e' earlier hsuffix

/-- A deposit that is still vested is not older than a snapshot that its
stamp is not older than, too. -/
structure Unripe (p : FarmingState × History FarmingState Instr) (k : FarmerKey) (V : Slot)
    (f : Farmer) : Prop where
  farmer : p.1.farmers.lookup k = some f
  vested : f.vested ≠ 0
  le : V ≤ f.vestedAt
  between : ∀ w ∈ snapshotsOf k.1 p.2, V < w.startedAt → f.vestedAt < w.startedAt

structure Vested (p : FarmingState × History FarmingState Instr) : Prop where
  shared : Shared p.1
  recorded : Recorded p
  pending : ∀ k, ∀ V ∈ pendingOf k p.2, V ≤ p.1.slot ∧ ∃ f, Unripe p k V f
  onTime : OnTime p.2

/-- **The check**: what is ripe matures with the first snapshot after it. -/
theorem Vested.countsRipe (hI : Vested p) (hG : KeepsVested p i)
    (hh : Harvests p.1 (i.harvests p.1.slot) s₁) : CountsRipe ⟨p.1, i, s'⟩ p.2 := by
  intro k til f farm hi hf hfarm V hV S hfirst
  obtain ⟨-, f', hun⟩ := hI.pending k V hV
  obtain rfl : f = f' := Option.some.inj (hf.symm.trans hun.farmer)
  obtain ⟨newer, older, hl, hVS, holder⟩ := id hfirst
  have hSmem : S ∈ snapshotsOf k.1 p.2 := by rw [hl]; simp
  have hstamp : f.vestedAt < S.startedAt := hun.between S hSmem hVS
  have hfirst' : FirstAfter (snapshotsOf k.1 p.2) f.vestedAt S :=
    ⟨newer, older, hl, hstamp, fun w hw => (holder w hw).trans hun.le⟩
  -- the latest snapshot is no earlier, so the buffer finds one
  have hlatest : f.vestedAt < farm.latestSnapshot.startedAt := by
    obtain ⟨farm', hfarm', hle⟩ := hI.recorded.le_latest hSmem
    obtain rfl := Option.some.inj (hfarm.symm.trans hfarm')
    exact hstamp.trans_le hle
  have hsome : farm.firstSnapshotAfter f.vestedAt ≠ none := by
    rcases hG.check (k, til) hi f hf farm hfarm with h0 | hle | hsome
    · exact absurd h0 hun.vested
    · exact absurd hlatest (not_lt.mpr hle)
    · exact hsome
  have hmature : f.matureSnapshot farm = some S :=
    Farmer.matureSnapshot_eq_some.mpr
      ⟨hun.vested, hI.recorded.firstSnapshotAfter hfarm hfirst' hsome⟩
  rcases hh.farmer k with ⟨-, hne⟩ | ⟨til', g, farm', f'', hi', hg, hfarm', -, hcheck, -⟩
  · exact absurd hi (hne til)
  · obtain rfl : til = til' := by
      rw [hi] at hi'
      cases hi'
      rfl
    obtain rfl := Option.some.inj (hf.symm.trans hg)
    obtain rfl := Option.some.inj (hfarm.symm.trans hfarm')
    obtain ⟨f₁, hm, hu⟩ := Farmer.check_eq_ok.mp hcheck
    unfold Farmer.MaturedIf at hm
    rw [hmature] at hm
    exact ⟨f₁, f'', hcheck, hm, Farmer.stakeVestedFrom_ok hm, hu⟩

/-- A deposit finds nothing that is ripe: its own check has matured it, or
the condition says so. -/
theorem KeepsVested.latest_le {f : Farmer} (hG : KeepsVested p i) (hact : i.act = .deposit k)
    (hf : p.1.farmers.lookup k = some f) (hv : f.vested ≠ 0)
    (hfarm : p.1.farms.lookup k.1 = some farm) (hunripe : maturedBy k ⟨p.1, i, s'⟩ = none) :
    farm.latestSnapshot.startedAt ≤ f.vestedAt := by
  by_cases hkey : (i.harvests p.1.slot).map Prod.fst = some k
  · obtain ⟨⟨k', til⟩, hi, rfl⟩ := Option.map_eq_some_iff.mp hkey
    rw [maturedBy_step hi hf hfarm] at hunripe
    rcases Farmer.matureSnapshot_eq_none.mp hunripe with h0 | hnone
    · exact absurd h0 hv
    · rcases hG.check _ hi f hf farm hfarm with h0 | hle | hsome
      · exact absurd h0 hv
      · exact hle
      · exact absurd hnone hsome
  · rcases hG.deposit k (by rw [hact]; rfl) hkey f hf farm hfarm with h0 | hle
    · exact absurd h0 hv
    · exact hle

/-- A snapshot is from before the step, or taken by it. -/
theorem mem_snapshotsOf_step {w : Snapshot}
    (hh : Harvests p.1 (i.harvests p.1.slot) s₁) (ha : Acts i.act s₁ s')
    (hw : w ∈ snapshotsOf F (⟨p.1, i, s'⟩ :: p.2)) :
    w ∈ snapshotsOf F p.2 ∨ i.act = .snapshot F ∧ w.startedAt = p.1.slot := by
  by_cases hact : i.act = .snapshot F
  · unfold snapshotsOf at hw
    rw [List.filterMap_cons, if_pos hact] at hw
    have hmoves := ha.farm F
    generalize s₁.farms.lookup F = o at hmoves
    cases hfarm : s'.farms.lookup F with
    | none =>
        rw [hfarm] at hw
        exact .inl hw
    | some farm' =>
        rw [hfarm] at hw hmoves
        rcases List.mem_cons.mp hw with rfl | hw
        · refine .inr ⟨hact, ?_⟩
          rw [← hh.slot_eq]
          cases hmoves with
          | created _ _ hne => exact absurd hact hne
          | kept _ hne => exact absurd hact hne
          | snapped _ _ hsnap =>
              have hcons := farm'.windows_eq_cons
              rw [hsnap.windows] at hcons
              rw [← (List.cons.inj hcons).1]
        · exact .inl hw
  · rw [snapshotsOf_cons_of_ne hact] at hw
    exact .inl hw

theorem step_vested (hp : env.tokenProgram.Lawful) (hI : Vested p) (hG : KeepsVested p i)
    (h : traced (step env) p i = .ok p') : Vested p' := by
  obtain ⟨hstep, htrace⟩ := traced_eq_ok.mp h
  obtain ⟨s', h'⟩ := p'
  dsimp only at hstep htrace
  subst htrace
  obtain ⟨s₁, hh, ha⟩ := step_ok hp hI.shared.custody hstep
  have hslot : p.1.slot ≤ s'.slot := step_slot_le hp hI.shared.custody hstep
  have hslot₁ : s₁.slot = p.1.slot := hh.slot_eq
  have hshared := step_shared hp hI.shared hstep
  refine ⟨hshared, hI.recorded.step hh ha, fun k V hV => ?_, hI.onTime.cons (hI.countsRipe hG hh)⟩
  obtain ⟨⟨f', hf', hv'⟩, hcases⟩ := mem_pendingAfter hV
  dsimp only at hf' hcases
  have hmoves := ha.farmer k
  rw [hf', hslot₁] at hmoves
  -- no snapshot comes with a deposit
  have hsnaps : ∀ w ∈ snapshotsOf k.1 (⟨p.1, i, s'⟩ :: p.2), w.startedAt ≤ p.1.slot := by
    intro w hw
    rcases mem_snapshotsOf_step hh ha hw with hw | ⟨-, heq⟩
    · obtain ⟨farm, hfarm, hle⟩ := hI.recorded.le_latest hw
      exact hle.trans (hI.shared.covers _ _ hfarm).latest_le
    · exact heq.le
  rcases hcases with ⟨hact, rfl⟩ | ⟨hunripe, hV⟩
  · -- the deposit of this step
    refine ⟨hslot, f', hf', hv', ?_, fun w hw hlt => absurd (hsnaps w hw) (not_le.mpr hlt)⟩
    generalize s₁.farmers.lookup k = o at hmoves
    cases hmoves with
    | created hfresh => exact absurd hfresh.vested_eq hv'
    | kept _ hne => exact absurd hact hne
    | staked _ _ hstaked => exact hstaked.vestedAt.ge
    | unstaked _ hne => exact absurd hact hne
  · -- a deposit from before it, which did not mature
    obtain ⟨hle, f, hun⟩ := hI.pending k V hV
    obtain ⟨f₁, hf₁, hstamp⟩ : ∃ f₁, s₁.farmers.lookup k = some f₁ ∧ f₁.vestedAt = f.vestedAt := by
      rcases hh.farmer k with ⟨heq, -⟩ | ⟨til, g, farm, f₁, hi, hg, hfarm, -, hcheck, hf₁⟩
      · exact ⟨f, heq.trans hun.farmer, rfl⟩
      · obtain rfl := Option.some.inj (hun.farmer.symm.trans hg)
        rw [maturedBy_step hi hg hfarm] at hunripe
        exact ⟨f₁, hf₁, ((Farmer.check_checked hcheck).unripe hunripe).vestedAt⟩
    -- the stamp stays, and a snapshot of this step comes after it
    have hkept : f'.vestedAt = f₁.vestedAt → Unripe (s', ⟨p.1, i, s'⟩ :: p.2) k V f' := by
      intro heq
      rw [hstamp] at heq
      refine ⟨hf', hv', heq ▸ hun.le, fun w hw hlt => ?_⟩
      rw [heq]
      rcases mem_snapshotsOf_step hh ha hw with hw | ⟨hact, hnow⟩
      · exact hun.between w hw hlt
      · have hentry : (⟨k, f⟩ : Sigma fun _ : FarmerKey => Farmer) ∈ p.1.farmers.entries :=
          AList.mem_lookup_iff.mp hun.farmer
        rw [hnow] at hlt ⊢
        rcases hG.snapshot k.1 (by rw [hact]; rfl) _ hentry rfl V hV with heq | hlt'
        · exact absurd heq hlt.ne
        · exact hlt'
    refine ⟨hle.trans hslot, f', ?_⟩
    rw [hf₁] at hmoves
    cases hmoves with
    | kept same _ => exact hkept same.vestedAt
    | unstaked hun' _ => exact hkept hun'.vestedAt
    | staked hact _ hstaked =>
        -- stamped anew, but no snapshot has come since the deposit
        refine ⟨hf', hv', hstaked.vestedAt ▸ hle, fun w hw hlt => ?_⟩
        rcases mem_snapshotsOf_step hh ha hw with hw | ⟨hsnap, -⟩
        · obtain ⟨farm, hfarm, hlatest⟩ := hI.recorded.le_latest hw
          have hripe := hG.latest_le hact hun.farmer hun.vested hfarm hunripe
          exact absurd (hun.between w hw hlt) (not_lt.mpr (hlatest.trans hripe))
        · rw [hact] at hsnap
          cases hsnap

theorem Genesis.vested (hg : Genesis s) : Vested (s, []) where
  shared := hg.shared
  recorded :=
    { absent := fun _ _ => rfl
      windows := hg.every_farm
      chronological := fun _ => List.pairwise_replicate.mpr (.inr le_rfl) }
  pending _ _ hV := nomatch hV
  onTime _ _ hsuffix := nomatch List.eq_nil_of_suffix_nil hsuffix

theorem run_vested (hp : env.tokenProgram.Lawful) (hg : Genesis s) {is : List Instr}
    (hG : Guarded (traced (step env)) KeepsVested (s, []) is) :
    Vested (run (traced (step env)) (s, []) is) :=
  run_invariant (fun _ _ _ hI hGi h => step_vested hp hI hGi h) hg.vested hG

/-- **The vesting rule.** In every run whose instructions do not stamp ripe
tokens anew, and find in the buffer the snapshot that tokens are ripe
with, every check counts each deposit that is still vested as staked from
the first snapshot after it on. -/
theorem deposits_counted_on_time (hp : env.tokenProgram.Lawful) (hg : Genesis s)
    {is : List Instr} (hG : Guarded (traced (step env)) KeepsVested (s, []) is) :
    OnTime (run (traced (step env)) (s, []) is).2 :=
  (run_vested hp hg hG).onTime

/-- Farm 3 stakes what farm 1 harvests and harvests what farm 1 stakes, and
its harvest may be compounded to farm 1. User 10 has a farmer in both. -/
def openSecondFarm : List Instr :=
  [.createFarm 2 3 200, .addHarvest 2 3 100, .createFarmer 10 3,
    .whitelistFarmForCompounding 2 3 1]

/-- 100 tokens are deposited in slot 5, and a snapshot is taken in slot 10. -/
def ripeInSlot11 : List Instr :=
  openFarm ++ openSecondFarm ++ [.tick 5, stakeOf 10 20 100, .tick 10, snapshotNow, .tick 11]

/-- An update counts them. -/
theorem deposits_counted_on_time_sample :
    OnTime (run (traced (step sampleEnv)) (sampleGenesis, []) (ripeInSlot11 ++ [updateOf 10])).2 :=
  deposits_counted_on_time Token.Reference.lawful sampleGenesis_genesis
    (by decide +kernel)

/-- Anyone can compound what the user has harvested in farm 3, which is
nothing. -/
def compoundFirst : List Instr :=
  ripeInSlot11 ++ [.compoundAcrossFarms ⟨3, 1, .harvestVault 3 100, (3, 10), (1, 10)⟩]

/-- The deposit of slot 5 is still vested and the snapshot of slot 10 is the
only one, but the stamp is slot 11: the update in slot 12 stakes nothing
and moves the cursor past slots 10 to 12. -/
theorem compounding_postpones :
    pendingOf (1, 10) (run (traced (step sampleEnv)) (sampleGenesis, []) compoundFirst).2 = [11, 5]
    ∧ snapshotsOf 1 (run (traced (step sampleEnv)) (sampleGenesis, []) compoundFirst).2
      = [⟨100, 10⟩]
    ∧ ((run (step sampleEnv) sampleGenesis (compoundFirst ++ [.tick 12, updateOf 10])
      ).farmers.lookup (1, 10)).map
        (fun f => (f.staked, f.vested, f.vestedAt, f.calculateNextHarvestFrom))
      = some (0, 100, 11, 13) := by
  decide +kernel

end SolanaAmm.Farming
