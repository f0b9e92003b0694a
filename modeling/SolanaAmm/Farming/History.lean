import SolanaAmm.Farming.Snapshots

/-!
# Farming — History

The ring buffer of a farm as the bounded history that it stands for. After
any number of snapshots on a fresh farm, `Remembers` tells its cells from
the list of the snapshots that were taken: the last thousand of them, and
never-written cells after these. What the look-ups return follows.
-/

namespace SolanaAmm.Farming

open Result

/-! ## Runs of snapshots -/

/-- One call of `take_snapshot`, with the setting that is in force then. -/
structure SnapshotCall where
  minSnapshotWindowSlots : U64
  clock : Slot
  stakeVault : TokenAmount

/-- The entry that it writes. -/
def SnapshotCall.snapshot (c : SnapshotCall) : Snapshot := ⟨c.stakeVault, c.clock⟩

namespace Farm

variable {farm farm' : Farm} {taken : List Snapshot} {calls : List SnapshotCall} {S : Snapshot}
  {c : Slot}

/-- One call after the other. -/
def takeSnapshots (farm : Farm) (calls : List SnapshotCall) : Except FarmingError Farm :=
  calls.foldlM (fun farm c =>
    { farm with minSnapshotWindowSlots := c.minSnapshotWindowSlots }.takeSnapshot c.clock
      c.stakeVault) farm

/-- The farm has taken these snapshots, newest first. -/
structure Remembers (farm : Farm) (taken : List Snapshot) : Prop where
  windows : farm.windows
    = (taken ++ List.replicate SNAPSHOTS_LEN default).take SNAPSHOTS_LEN
  started : ∀ s ∈ taken, 0 < s.startedAt.val
  descending : taken.Pairwise (fun newer older => older.startedAt < newer.startedAt)

theorem Remembers.fresh (h : farm.snapshots = (default : Farm).snapshots) :
    farm.Remembers [] where
  windows := by
    rw [Farm.windows, h]
    exact windows_default.trans (List.take_of_length_le (by simp)).symm
  started := fun _ hs => absurd hs List.not_mem_nil
  descending := .nil

/-- The newest snapshot is in the cell of the tip. -/
theorem Remembers.latest (h : farm.Remembers (S :: taken)) : farm.latestSnapshot = S := by
  have hhead := farm.windows_head?
  rw [h.windows] at hhead
  exact (Option.some.inj hhead).symm

/-- **One snapshot more.** -/
theorem Remembers.snapped {clock : Slot} {staked : TokenAmount} (h : farm.Remembers taken)
    (hsnap : Snapped farm farm' clock staked) : farm'.Remembers (⟨staked, clock⟩ :: taken) := by
  have hlater := Word.lt_def.mp hsnap.later
  constructor
  · have hlen : SNAPSHOTS_LEN < (taken ++ List.replicate SNAPSHOTS_LEN (default : Snapshot)).length
        ∨ taken = [] := by
      cases taken with
      | nil => exact .inr rfl
      | cons S taken =>
          left
          rw [List.length_append, List.length_cons, List.length_replicate]
          omega
    rw [hsnap.windows, h.windows]
    -- the oldest of the thousand goes, or the last cell that was never written
    rcases hlen with hlen | rfl
    · rw [List.dropLast_take hlen, List.cons_append]
      exact (List.take_succ_cons (i := SNAPSHOTS_LEN - 1)).symm
    · rw [List.nil_append, List.take_of_length_le (by simp), List.dropLast_replicate]
      exact (congrArg (List.cons _) (List.take_replicate (i := SNAPSHOTS_LEN - 1)
        (n := SNAPSHOTS_LEN) (a := default))).symm
  · intro s hs
    rcases List.mem_cons.mp hs with rfl | hs
    · exact Nat.zero_lt_of_lt hlater
    · exact h.started s hs
  · refine List.pairwise_cons.mpr ⟨fun s hs => ?_, h.descending⟩
    rw [Word.lt_def]
    cases taken with
    | nil => cases hs
    | cons S taken =>
        rw [h.latest] at hlater
        rcases List.mem_cons.mp hs with rfl | hs
        · exact hlater
        · exact (Word.lt_def.mp ((List.pairwise_cons.mp h.descending).1 s hs)).trans hlater

/-- **Every run**: the snapshots that were taken are remembered in order. -/
theorem Remembers.run (hfarm : farm.Remembers taken)
    (h : farm.takeSnapshots calls = .ok farm') :
    farm'.Remembers ((calls.map SnapshotCall.snapshot).reverse ++ taken) := by
  induction calls generalizing farm taken with
  | nil =>
      cases h
      exact hfarm
  | cons call calls ih =>
      rw [takeSnapshots, List.foldlM_cons, bind_eq_ok] at h
      obtain ⟨next, hnext, h⟩ := h
      have hset : { farm with
          minSnapshotWindowSlots := call.minSnapshotWindowSlots }.Remembers taken :=
        ⟨hfarm.windows, hfarm.started, hfarm.descending⟩
      have hrest := ih (hset.snapped (Farm.snapped hnext)) h
      rw [List.map_cons, List.reverse_cons, List.append_assoc]
      exact hrest

/-! ## The look-ups -/

/-- The retained entries that were written. -/
def retained (farm : Farm) : List Snapshot := farm.windows.filter (fun s => s.startedAt ≠ 0)

/-- The eligible entries that were written. -/
def eligible (farm : Farm) (c : Slot) : List Snapshot :=
  (farm.getWindowSnapshotsEligibleToHarvest c).filter (fun s => s.startedAt ≠ 0)

theorem filter_written_eq_self {l : List Snapshot} (h : ∀ s ∈ l, 0 < s.startedAt.val) :
    l.filter (fun s => s.startedAt ≠ 0) = l := by
  refine List.filter_eq_self.mpr (fun s hs => decide_eq_true (fun h0 => ?_))
  have hpos := h s hs
  rw [h0] at hpos
  exact absurd hpos (lt_irrefl 0)

theorem filter_written_replicate (n : ℕ) :
    (List.replicate n (default : Snapshot)).filter (fun s => s.startedAt ≠ 0) = [] := by
  refine List.filter_eq_nil_iff.mpr (fun s hs => ?_)
  rw [List.eq_of_mem_replicate hs]
  decide

/-- The cells are the last thousand snapshots and never-written ones. -/
theorem Remembers.split (h : farm.Remembers taken) :
    farm.windows = taken.take SNAPSHOTS_LEN
      ++ List.replicate (SNAPSHOTS_LEN - taken.length) default := by
  rw [h.windows, List.take_append, List.take_replicate, Nat.min_eq_left (Nat.sub_le _ _)]

theorem Remembers.started_recent (h : farm.Remembers taken) :
    ∀ s ∈ taken.take SNAPSHOTS_LEN, 0 < s.startedAt.val :=
  fun s hs => h.started s (List.mem_of_mem_take hs)

/-- The oldest cell: never written before the thousandth snapshot. -/
theorem Remembers.oldest (h : farm.Remembers taken) :
    farm.oldestSnapshot = taken[SNAPSHOTS_LEN - 1]?.getD default := by
  have hcell : farm.windows[SNAPSHOTS_LEN - 1]? = some farm.oldestSnapshot := by
    have hlast := farm.snapshots.newestFirst_getElem (k := SNAPSHOTS_LEN - 1) (by decide)
    rw [Farm.windows, hlast, oldestSnapshot, RingBuffer.oldest]
    simp only [farm.snapshots.oldestIndex_eq]
  rw [h.windows, List.getElem?_take_of_lt (by decide)] at hcell
  by_cases hlen : SNAPSHOTS_LEN - 1 < taken.length
  · rw [List.getElem?_append_left hlen] at hcell
    rw [hcell, Option.getD_some]
  · rw [List.getElem?_append_right (not_lt.mp hlen),
      List.getElem?_replicate_of_lt
        (Nat.lt_of_le_of_lt (Nat.sub_le _ _) (by decide))] at hcell
    rw [List.getElem?_eq_none (not_lt.mp hlen), Option.getD_none]
    exact (Option.some.inj hcell).symm

/-- Where a retained snapshot started by `c`, the eligible ones go back to
the newest of these. -/
theorem Remembers.eligible_back_to {l₁ l₂ : List Snapshot} (h : farm.Remembers taken)
    (hsplit : taken.take SNAPSHOTS_LEN = l₁ ++ S :: l₂) (hnewer : ∀ s ∈ l₁, c < s.startedAt)
    (hS : S.startedAt ≤ c) :
    farm.eligible c = l₁ ++ [S] := by
  have hstarted := h.started_recent
  have hwindows := h.split
  rw [hsplit] at hstarted hwindows
  have hafter : farm.after c = l₁ := by
    refine after_eq (hwindows.trans (List.append_assoc _ _ _)) hnewer (fun s hs => ?_)
    cases hs
    exact hS
  rw [eligible, getWindowSnapshotsEligibleToHarvest_eq, hafter, hwindows, List.append_assoc,
    List.take_length_add_append, List.cons_append, List.take_succ_cons, List.take_zero]
  refine filter_written_eq_self (fun s hs => hstarted s ?_)
  rcases List.mem_append.mp hs with hs | hs
  · exact List.mem_append_left _ hs
  · exact List.mem_append_right _ (List.mem_singleton.mp hs ▸ List.mem_cons_self)

/-- Where none did, all retained ones are eligible. -/
theorem Remembers.eligible_all (h : farm.Remembers taken)
    (hnewer : ∀ s ∈ taken.take SNAPSHOTS_LEN, c < s.startedAt) :
    farm.eligible c = taken.take SNAPSHOTS_LEN := by
  have hnever : ¬ c < (default : Snapshot).startedAt := not_lt.mpr (Word.le_def.mpr (Nat.zero_le _))
  have hafter : farm.after c = taken.take SNAPSHOTS_LEN := by
    refine after_eq h.split hnewer (fun s hs => ?_)
    rw [List.eq_of_mem_replicate (List.mem_of_mem_head? hs)]
    exact not_lt.mp hnever
  rw [eligible, getWindowSnapshotsEligibleToHarvest_eq, hafter, h.split,
    List.take_length_add_append, List.take_replicate, List.filter_append,
    filter_written_replicate, List.append_nil, filter_written_eq_self h.started_recent]

/-- **The bounded history.** After any run of snapshots on a fresh farm, the
look-ups answer as the list of the last thousand snapshots does. -/
theorem ring_buffer_is_history (hfresh : farm.snapshots = (default : Farm).snapshots)
    (h : farm.takeSnapshots calls = .ok farm') :
    let taken := (calls.map SnapshotCall.snapshot).reverse
    (∀ c, (∃ l₁ S l₂, taken.take SNAPSHOTS_LEN = l₁ ++ S :: l₂ ∧ (∀ s ∈ l₁, c < s.startedAt)
          ∧ S.startedAt ≤ c ∧ farm'.eligible c = l₁ ++ [S])
        ∨ ((∀ s ∈ taken.take SNAPSHOTS_LEN, c < s.startedAt)
          ∧ farm'.eligible c = taken.take SNAPSHOTS_LEN))
      ∧ (∀ S, taken.head? = some S → farm'.latestSnapshot = S)
      ∧ farm'.oldestSnapshot = taken[SNAPSHOTS_LEN - 1]?.getD default := by
  have hrun := (Remembers.fresh hfresh).run h
  rw [List.append_nil] at hrun
  generalize (calls.map SnapshotCall.snapshot).reverse = taken at hrun
  refine ⟨fun c => ?_, fun S hS => ?_, hrun.oldest⟩
  · by_cases hall : ∀ s ∈ taken.take SNAPSHOTS_LEN, c < s.startedAt
    · exact .inr ⟨hall, hrun.eligible_all hall⟩
    · left
      obtain ⟨rest, hsplit, hnewer, hstop⟩ := Lists.exists_takeWhile
        (fun s : Snapshot => c < s.startedAt) (taken.take SNAPSHOTS_LEN)
      replace hnewer := fun s hs => of_decide_eq_true (hnewer s hs)
      cases rest with
      | nil =>
          rw [List.append_nil] at hsplit
          exact absurd (fun s hs => hnewer s (hsplit ▸ hs)) hall
      | cons S l₂ =>
          have hS : S.startedAt ≤ c := not_lt.mp (of_decide_eq_false (hstop S rfl))
          exact ⟨_, S, l₂, hsplit, hnewer, hS, hrun.eligible_back_to hsplit hnewer hS⟩
  · cases taken with
    | nil => cases hS
    | cons T taken =>
        cases hS
        exact hrun.latest

/-- Two snapshots, in the slots 10 and 20. -/
def twoCalls : List SnapshotCall := [⟨1, 10, 50⟩, ⟨5, 20, 60⟩]

theorem ring_buffer_is_history_two :
    ∃ farm, (default : Farm).takeSnapshots twoCalls = .ok farm
      ∧ farm.latestSnapshot = ⟨60, 20⟩ ∧ farm.oldestSnapshot = default := by
  have hok : ((default : Farm).takeSnapshots twoCalls).isOk = true := by decide +kernel
  cases h : (default : Farm).takeSnapshots twoCalls with
  | error e => rw [h] at hok; cases hok
  | ok farm =>
      obtain ⟨-, hlatest, holdest⟩ := ring_buffer_is_history rfl h
      exact ⟨farm, rfl, hlatest _ rfl, holdest⟩

/-! ## The first snapshot after a slot -/

/-- The look-up finds the first retained snapshot that started later, and
nothing only if there is none. -/
structure FindsFirstLater (farm : Farm) (slot : Slot) : Prop where
  none_iff : farm.firstSnapshotAfter slot = none ↔ ∀ s ∈ farm.retained, ¬ slot < s.startedAt
  least : ∀ S, farm.firstSnapshotAfter slot = some S → S ∈ farm.retained ∧ slot < S.startedAt
    ∧ ∀ s ∈ farm.retained, slot < s.startedAt → S.startedAt ≤ s.startedAt

theorem mem_retained_of_lt {s : Snapshot} (hs : s ∈ farm.windows) (h : c < s.startedAt) :
    s ∈ farm.retained := by
  refine List.mem_filter.mpr ⟨hs, decide_eq_true (fun h0 => ?_)⟩
  rw [h0] at h
  exact absurd (Word.lt_def.mp h) (Nat.not_lt_zero _)

/-- The cells are in the order of the snapshots. -/
theorem Remembers.chronological (h : farm.Remembers taken) : Chronological farm.windows := by
  unfold Chronological
  rw [h.windows]
  refine (List.pairwise_append.mpr ⟨?_, ?_, ?_⟩).sublist (List.take_sublist _ _)
  · exact h.descending.imp (fun hlt => hlt.le)
  · exact List.pairwise_replicate.mpr (.inr le_rfl)
  · intro s _ s' hs'
    rw [List.eq_of_mem_replicate hs']
    exact Word.le_def.mpr (Nat.zero_le _)

theorem Remembers.findsFirstLater_iff (h : farm.Remembers taken) :
    FindsFirstLater farm c ↔ ∃ s ∈ farm.windows, s.startedAt ≤ c := by
  constructor
  · intro hfinds
    by_contra hnone
    have hall : ∀ s ∈ farm.windows, c < s.startedAt := fun s hs =>
      not_le.mp (fun hle => hnone ⟨s, hs, hle⟩)
    -- the search finds none of them, although the latest is one
    have hlatest : farm.latestSnapshot ∈ farm.windows := latestSnapshot_mem
    have hfound := hfinds.none_iff.mp (firstSnapshotAfter_eq_none.mpr (.inr hall))
    exact hfound _ (mem_retained_of_lt hlatest (hall _ hlatest)) (hall _ hlatest)
  · rintro ⟨w, hw, hwc⟩
    constructor
    · rw [firstSnapshotAfter_eq_none]
      constructor
      · rintro (hlatest | hall) s hs
        · exact not_lt.mpr
            ((h.chronological.le_latest (List.mem_of_mem_filter hs)).trans hlatest)
        · exact absurd (hall w hw) (not_lt.mpr hwc)
      · intro hnone
        left
        have hlatest : farm.latestSnapshot ∈ farm.windows := latestSnapshot_mem
        by_contra hlt
        exact hnone _ (mem_retained_of_lt hlatest (not_le.mp hlt)) (not_le.mp hlt)
    · intro S hS
      have hlt := firstSnapshotAfter_lt hS
      refine ⟨mem_retained_of_lt (firstSnapshotAfter_mem hS) hlt, hlt, fun s hs hcs => ?_⟩
      obtain ⟨l₁, w', l₂, hsplit, -, -, hw'⟩ := firstSnapshotAfter_eq_some.mp hS
      -- where the other snapshot stands in the buffer tells when it started
      have hchron := h.chronological
      have hmem := List.mem_of_mem_filter hs
      unfold Chronological at hchron
      rw [hsplit] at hchron hmem
      obtain ⟨-, htail, hcross⟩ := List.pairwise_append.mp hchron
      rcases List.mem_append.mp hmem with hmem | hmem
      · exact hcross s hmem S List.mem_cons_self
      · rcases List.mem_cons.mp hmem with rfl | hmem
        · exact le_rfl
        · -- the older ones started by the slot
          have holder := (List.pairwise_cons.mp (List.pairwise_cons.mp htail).2).1
          have hle : s.startedAt ≤ c := by
            rcases List.mem_cons.mp hmem with rfl | hmem
            · exact hw'
            · exact (holder s hmem).trans hw'
          exact absurd hcs (not_lt.mpr hle)

/-- **The first later snapshot.** After any run of snapshots on a fresh farm
the look-up finds the first retained snapshot after a slot if and only if
some cell started by the slot: a snapshot that did, or a cell that was
never written. -/
theorem firstSnapshotAfter_least_iff (hfresh : farm.snapshots = (default : Farm).snapshots)
    (h : farm.takeSnapshots calls = .ok farm') (slot : Slot) :
    FindsFirstLater farm' slot ↔ ∃ s ∈ farm'.windows, s.startedAt ≤ slot :=
  ((Remembers.fresh hfresh).run h).findsFirstLater_iff

/-- After the two snapshots, the cells that were never written are still
there. -/
theorem firstSnapshotAfter_least_two :
    ∃ farm, (default : Farm).takeSnapshots twoCalls = .ok farm ∧ FindsFirstLater farm 15 := by
  have hok : ((default : Farm).takeSnapshots twoCalls).toOption.any (fun farm =>
      farm.windows.any (fun s => s.startedAt ≤ (15 : Slot))) = true := by decide +kernel
  cases h : (default : Farm).takeSnapshots twoCalls with
  | error e => rw [h] at hok; cases hok
  | ok farm =>
      rw [h] at hok
      obtain ⟨s, hs, hle⟩ := List.any_eq_true.mp hok
      exact ⟨farm, rfl, (firstSnapshotAfter_least_iff rfl h 15).mpr ⟨s, hs, of_decide_eq_true hle⟩⟩

/-! ## A thousand snapshots -/

/-- With windows of one slot, snapshots in ascending slots succeed. -/
theorem exists_takeSnapshots (hwindow : ∀ call ∈ calls, call.minSnapshotWindowSlots = 1)
    (hasc : calls.Pairwise (fun a b => a.clock < b.clock))
    (hstart : ∀ call ∈ calls, farm.latestSnapshot.startedAt < call.clock) :
    ∃ farm', farm.takeSnapshots calls = .ok farm' := by
  induction calls generalizing farm with
  | nil => exact ⟨farm, rfl⟩
  | cons call calls ih =>
      have hlt := Word.lt_def.mp (hstart call List.mem_cons_self)
      obtain ⟨next, hnext⟩ : ∃ next, { farm with
          minSnapshotWindowSlots := call.minSnapshotWindowSlots }.takeSnapshot call.clock
            call.stakeVault = .ok next := by
        have hfit := call.clock.isLt
        rw [hwindow call List.mem_cons_self]
        simp only [takeSnapshot, bind_eq_ok, okOr_eq_ok, Word.checkedAdd_eq_some, ensure_eq_ok,
          pure_eq_ok]
        exact ⟨_, ⟨farm.latestSnapshot.startedAt.val + 1, by omega⟩, rfl, (),
          not_lt.mpr (Word.le_def.mpr hlt), rfl⟩
      obtain ⟨hall, hasc'⟩ := List.pairwise_cons.mp hasc
      have hlatest : next.latestSnapshot = call.snapshot := by
        have hhead := next.windows_head?
        rw [(snapped hnext).windows] at hhead
        exact (Option.some.inj hhead).symm
      obtain ⟨farm', hrest⟩ := ih (fun b hb => hwindow b (List.mem_cons_of_mem _ hb)) hasc'
        (fun b hb => by rw [hlatest]; exact hall b hb)
      refine ⟨farm', ?_⟩
      rw [takeSnapshots, List.foldlM_cons, hnext, ok_bind]
      exact hrest

/-- A snapshot in each of the slots 10 to 1009. -/
def aThousandCalls : List SnapshotCall :=
  (List.range 1000).map (fun k => ⟨1, .wrap (10 + k), 50⟩)

theorem clock_aThousandCalls {k : ℕ} (hk : k < 1000) : (Word.wrap (10 + k) : Slot).val = 10 + k :=
  Word.wrap_val (by omega)

/-- **Everything is later than slot 5**, and nothing is found. -/
theorem firstSnapshotAfter_misses :
    ∃ farm, (default : Farm).takeSnapshots aThousandCalls = .ok farm
      ∧ farm.firstSnapshotAfter 5 = none ∧ ∃ s ∈ farm.retained, (5 : Slot) < s.startedAt := by
  have hmem : ∀ call ∈ aThousandCalls, call.minSnapshotWindowSlots = 1 ∧ 10 ≤ call.clock.val := by
    intro call hcall
    obtain ⟨k, hk, rfl⟩ := List.mem_map.mp hcall
    refine ⟨rfl, ?_⟩
    rw [clock_aThousandCalls (List.mem_range.mp hk)]
    omega
  have hasc : aThousandCalls.Pairwise (fun a b => a.clock < b.clock) := by
    refine List.pairwise_map.mpr (List.pairwise_lt_range.imp_of_mem (fun ha hb hab => ?_))
    rw [Word.lt_def, clock_aThousandCalls (List.mem_range.mp ha),
      clock_aThousandCalls (List.mem_range.mp hb)]
    omega
  have hstart : ∀ call ∈ aThousandCalls, (default : Farm).latestSnapshot.startedAt < call.clock :=
    fun call hcall => Word.lt_def.mpr (Nat.lt_of_lt_of_le (by decide) (hmem call hcall).2)
  obtain ⟨farm, hfarm⟩ := exists_takeSnapshots (fun call hcall => (hmem call hcall).1) hasc hstart
  have hrun := (Remembers.fresh rfl).run hfarm
  rw [List.append_nil] at hrun
  have hlen : (aThousandCalls.map SnapshotCall.snapshot).reverse.length = SNAPSHOTS_LEN := by
    rw [List.length_reverse, List.length_map, aThousandCalls, List.length_map, List.length_range]
  -- every cell of the buffer is overwritten
  have hwindows := hrun.split
  rw [List.take_of_length_le hlen.le, hlen, Nat.sub_self, List.replicate_zero,
    List.append_nil] at hwindows
  have hall : ∀ s ∈ farm.windows, (5 : Slot) < s.startedAt := by
    intro s hs
    rw [hwindows, List.mem_reverse] at hs
    obtain ⟨call, hcall, rfl⟩ := List.mem_map.mp hs
    exact Word.lt_def.mpr (Nat.lt_of_lt_of_le (by decide) (hmem call hcall).2)
  have hlatest : farm.latestSnapshot ∈ farm.windows := latestSnapshot_mem
  exact ⟨farm, hfarm, firstSnapshotAfter_eq_none.mpr (.inr hall), _,
    mem_retained_of_lt hlatest (hall _ hlatest), hall _ hlatest⟩

end Farm

end SolanaAmm.Farming
