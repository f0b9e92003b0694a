import SolanaAmm.Farming.Farm

/-!
# Farming — Snapshots

What the two look-ups of a farm find, in terms of the list of its
snapshots from the newest to the oldest: `firstSnapshotAfter` the last one
of those that started later, if an earlier one is still retained, and
`getWindowSnapshotsEligibleToHarvest` those that started later and the one
before them.
-/

namespace SolanaAmm.Farming

namespace Farm

variable {farm farm' : Farm} {slot : Slot} {S : Snapshot}

/-- The retained snapshots, newest first. -/
def windows (farm : Farm) : List Snapshot := farm.snapshots.newestFirst

@[simp] theorem length_windows : farm.windows.length = SNAPSHOTS_LEN :=
  farm.snapshots.length_newestFirst

theorem windows_head? : farm.windows.head? = some farm.latestSnapshot :=
  farm.snapshots.newestFirst_head?

theorem windows_eq_cons : farm.windows = farm.latestSnapshot :: farm.windows.tail := by
  have h := farm.windows_head?
  cases hw : farm.windows with
  | nil => rw [hw] at h; cases h
  | cons a l => rw [hw] at h; cases h; rfl

theorem latestSnapshot_mem : farm.latestSnapshot ∈ farm.windows := by
  rw [windows_eq_cons]
  exact List.mem_cons_self

/-- What stands before the oldest snapshot stands among all. -/
theorem windows_of_dropLast {l l' : List Snapshot} (h : farm.windows.dropLast = l ++ l') :
    ∃ oldest, farm.windows = l ++ (l' ++ [oldest]) := by
  have hne : farm.windows ≠ [] := List.ne_nil_of_mem latestSnapshot_mem
  refine ⟨farm.windows.getLast hne, ?_⟩
  rw [← List.append_assoc, ← h, List.dropLast_append_getLast]

/-- The snapshots that started after `slot`, as far as they are retained. -/
def after (farm : Farm) (slot : Slot) : List Snapshot :=
  farm.windows.takeWhile (fun s => slot < s.startedAt)

/-- They end with the first one that started by the slot. -/
theorem after_eq {l l' : List Snapshot} (hl : farm.windows = l ++ l')
    (hlater : ∀ s ∈ l, slot < s.startedAt) (hstop : ∀ s ∈ l'.head?, s.startedAt ≤ slot) :
    farm.after slot = l := by
  rw [after, hl]
  exact Lists.takeWhile_append (fun s hs => decide_eq_true (hlater s hs))
    (fun s hs => decide_eq_false (not_lt.mpr (hstop s hs)))

theorem exists_after (farm : Farm) (slot : Slot) :
    ∃ l, farm.windows = farm.after slot ++ l ∧ (∀ s ∈ farm.after slot, slot < s.startedAt)
      ∧ ∀ s ∈ l.head?, s.startedAt ≤ slot := by
  obtain ⟨l, hl, hlater, hstop⟩ :=
    Lists.exists_takeWhile (fun s : Snapshot => slot < s.startedAt) farm.windows
  exact ⟨l, hl, fun s hs => of_decide_eq_true (hlater s hs),
    fun s hs => not_lt.mp (of_decide_eq_false (hstop s hs))⟩

theorem after_length_le : (farm.after slot).length ≤ SNAPSHOTS_LEN := by
  rw [← farm.length_windows]
  exact (List.takeWhile_prefix _).length_le

theorem find?_walk_eq :
    farm.snapshots.walk.find? (fun s => s.1.startedAt ≤ slot)
      = farm.snapshots.walk[(farm.after slot).length]? := by
  rw [farm.snapshots.find?_walk (fun s => s.startedAt ≤ slot), after, windows]
  simp only [← decide_not, not_le]

theorem after_eq_nil : farm.after slot = [] ↔ farm.latestSnapshot.startedAt ≤ slot := by
  rw [after, windows_eq_cons, List.takeWhile_cons]
  split
  · rename_i h
    simpa using h
  · rename_i h
    simpa using h

theorem firstSnapshotAfter_eq :
    farm.firstSnapshotAfter slot =
      if 0 < (farm.after slot).length ∧ (farm.after slot).length < SNAPSHOTS_LEN
      then farm.windows[(farm.after slot).length - 1]? else none := by
  unfold firstSnapshotAfter
  by_cases hlatest : farm.latestSnapshot.startedAt ≤ slot
  · rw [if_pos hlatest, if_neg]
    rw [after_eq_nil.mpr hlatest]
    simp
  · have hne : farm.after slot ≠ [] := fun h => hlatest (after_eq_nil.mp h)
    have hpos : 0 < (farm.after slot).length := List.length_pos_iff.mpr hne
    rw [if_neg hlatest, find?_walk_eq]
    rcases Nat.lt_or_ge (farm.after slot).length SNAPSHOTS_LEN with hlt | hge
    · rw [if_pos ⟨hpos, hlt⟩, farm.snapshots.walk_getElem hlt]
      obtain ⟨k, hk⟩ := Nat.exists_eq_succ_of_ne_zero (Nat.pos_iff_ne_zero.mp hpos)
      simp only [hk, Nat.succ_eq_add_one, Option.bind_eq_bind, Option.bind_some,
        Nat.add_sub_cancel]
      exact farm.snapshots.getElem?_next (by omega)
    · rw [if_neg (by omega), List.getElem?_eq_none (by rw [farm.snapshots.length_walk]; exact hge)]
      rfl

/-- **The first snapshot after a slot**: everything newer started after the
slot too, and the next older one did not. -/
theorem firstSnapshotAfter_eq_some :
    farm.firstSnapshotAfter slot = some S ↔
      ∃ l₁ w l₂, farm.windows = l₁ ++ S :: w :: l₂ ∧ (∀ s ∈ l₁, slot < s.startedAt)
        ∧ slot < S.startedAt ∧ w.startedAt ≤ slot := by
  rw [firstSnapshotAfter_eq]
  constructor
  · intro h
    split at h
    · rename_i hlen
      obtain ⟨rest, hsplit, hafter, hstop⟩ := farm.exists_after slot
      obtain ⟨l₁, T, hT⟩ : ∃ l₁ T, farm.after slot = l₁ ++ [T] :=
        ⟨_, _, (List.dropLast_append_getLast (List.length_pos_iff.mp hlen.1)).symm⟩
      rw [hT] at hafter hsplit h
      cases rest with
      | nil =>
          rw [List.append_nil] at hsplit
          have hfull := farm.length_windows
          rw [hsplit, ← hT] at hfull
          omega
      | cons w l₂ =>
          rw [List.append_assoc, List.singleton_append] at hsplit
          have hS : T = S := by
            rw [hsplit] at h
            simpa using h
          subst hS
          exact ⟨l₁, w, l₂, hsplit, fun s hs => hafter s (List.mem_append_left _ hs),
            hafter T (by simp), hstop w rfl⟩
    · cases h
  · rintro ⟨l₁, w, l₂, hl, h₁, hS, hw⟩
    have hsplit : farm.windows = (l₁ ++ [S]) ++ w :: l₂ := by
      rw [hl, List.append_assoc, List.singleton_append]
    have hafter : farm.after slot = l₁ ++ [S] := by
      refine after_eq hsplit (fun s hs => ?_) (fun s hs => ?_)
      · rcases List.mem_append.mp hs with hs | hs
        · exact h₁ s hs
        · exact List.mem_singleton.mp hs ▸ hS
      · cases hs
        exact hw
    have hfull := farm.length_windows
    rw [hl] at hfull
    simp only [List.length_append, List.length_cons] at hfull
    rw [hafter, List.length_append, List.length_singleton, if_pos (by omega), hl]
    simp

theorem firstSnapshotAfter_eq_none :
    farm.firstSnapshotAfter slot = none ↔
      farm.latestSnapshot.startedAt ≤ slot ∨ ∀ s ∈ farm.windows, slot < s.startedAt := by
  have hpre : farm.after slot <+: farm.windows := List.takeWhile_prefix _
  rw [firstSnapshotAfter_eq, ← after_eq_nil]
  constructor
  · intro h
    by_cases hnil : farm.after slot = []
    · exact .inl hnil
    · refine .inr (fun s hs => ?_)
      have hpos : 0 < (farm.after slot).length := List.length_pos_iff.mpr hnil
      rcases Nat.lt_or_ge (farm.after slot).length SNAPSHOTS_LEN with hlt | hge
      · rw [if_pos ⟨hpos, hlt⟩, List.getElem?_eq_none_iff, length_windows] at h
        omega
      · have hall : farm.after slot = farm.windows :=
          hpre.eq_of_length_le (by rw [length_windows]; exact hge)
        obtain ⟨_, -, hafter, -⟩ := farm.exists_after slot
        exact hafter s (hall ▸ hs)
  · rintro (h | h)
    · rw [h]
      rfl
    · have hall : farm.after slot = farm.windows :=
        after_eq (List.append_nil _).symm h (fun _ hs => nomatch hs)
      rw [hall, length_windows]
      rfl

theorem firstSnapshotAfter_lt (h : farm.firstSnapshotAfter slot = some S) :
    slot < S.startedAt := by
  obtain ⟨-, -, -, -, -, hS, -⟩ := firstSnapshotAfter_eq_some.mp h
  exact hS

theorem firstSnapshotAfter_mem (h : farm.firstSnapshotAfter slot = some S) :
    S ∈ farm.windows := by
  obtain ⟨_, _, _, hl, -⟩ := firstSnapshotAfter_eq_some.mp h
  rw [hl]
  simp

/-- **The eligible windows**: the snapshots after the slot and the one
before them. -/
theorem getWindowSnapshotsEligibleToHarvest_eq :
    farm.getWindowSnapshotsEligibleToHarvest slot
      = farm.windows.take ((farm.after slot).length + 1) := by
  have hle : (farm.after slot).length ≤ SNAPSHOTS_LEN := farm.after_length_le
  unfold getWindowSnapshotsEligibleToHarvest
  rw [find?_walk_eq]
  rcases Nat.lt_or_ge (farm.after slot).length SNAPSHOTS_LEN with hlt | hge
  · rw [farm.snapshots.walk_getElem hlt]
    exact congrArg (fun n => List.take n farm.windows) (farm.snapshots.count_behind hlt)
  · rw [List.getElem?_eq_none (by rw [farm.snapshots.length_walk]; exact hge)]
    have hlast : SNAPSHOTS_LEN - 1 < SNAPSHOTS_LEN := by decide
    have hlen := farm.length_windows
    rw [farm.snapshots.oldestIndex_eq,
      List.take_of_length_le (l := farm.windows) (i := (farm.after slot).length + 1) (by omega)]
    refine (congrArg (fun n => List.take n farm.windows)
      (farm.snapshots.count_behind hlast)).trans ?_
    exact List.take_of_length_le (by omega)

/-! ## Taking a snapshot -/

/-- What a snapshot does to its farm. -/
structure Snapped (farm farm' : Farm) (clock : Slot) (staked : TokenAmount) : Prop where
  pushed : farm' = { farm with snapshots := farm.snapshots.push ⟨staked, clock⟩ }
  later : farm.latestSnapshot.startedAt < clock

theorem snapped {clock : Slot} {staked : TokenAmount}
    (h : farm.takeSnapshot clock staked = .ok farm') : Snapped farm farm' clock staked := by
  simp only [takeSnapshot, Result.bind_eq_ok, Result.okOr_eq_ok, Word.checkedAdd_eq_some,
    Result.ensure_eq_ok, Result.pure_eq_ok, not_lt] at h
  obtain ⟨next, hnext, -, hle, rfl⟩ := h
  refine ⟨rfl, ?_⟩
  have hwindow : 0 < farm.snapshotWindowSlots.val := by
    unfold snapshotWindowSlots
    split
    · decide
    · rename_i hne
      exact Nat.pos_of_ne_zero (fun h0 => hne (Word.val_eq_zero.mp h0))
  rw [Word.le_def] at hle
  rw [Word.lt_def]
  omega

theorem Snapped.windows {clock : Slot} {staked : TokenAmount}
    (h : Snapped farm farm' clock staked) :
    farm'.windows = ⟨staked, clock⟩ :: farm.windows.dropLast := by
  rw [h.pushed]
  exact farm.snapshots.newestFirst_push _

/-- Newer snapshots do not start before older ones. -/
def Chronological (ws : List Snapshot) : Prop :=
  ws.Pairwise (fun a b => b.startedAt ≤ a.startedAt)

theorem windows_default : (default : Farm).windows = List.replicate SNAPSHOTS_LEN default := by
  rw [windows]
  refine List.eq_replicate_iff.mpr ⟨(default : Farm).length_windows, ?_⟩
  intro s hs
  rw [RingBuffer.newestFirst, List.mem_rotate, List.mem_reverse] at hs
  exact List.eq_of_mem_replicate hs

theorem Snapped.chronological {clock : Slot} {staked : TokenAmount}
    (h : Snapped farm farm' clock staked) (hf : Chronological farm.windows) :
    Chronological farm'.windows := by
  rw [h.windows]
  refine List.pairwise_cons.mpr ⟨fun s hs => ?_, hf.sublist (List.dropLast_sublist _)⟩
  have hmem : s ∈ farm.windows := List.dropLast_subset _ hs
  rw [windows_eq_cons] at hmem hf
  have hlater := h.later
  rcases List.mem_cons.mp hmem with rfl | hmem
  · exact hlater.le
  · exact ((List.pairwise_cons.mp hf).1 s hmem).trans hlater.le

/-- A snapshot from before a slot is the one of the slot's window or older. -/
theorem Chronological.le_window {newer older : List Snapshot} {w S : Snapshot} {t : ℕ}
    (hf : Chronological farm.windows) (hw : farm.windows = newer ++ w :: older)
    (hS : S ∈ farm.windows) (hle : S.startedAt.val ≤ t)
    (hnewer : ∀ n ∈ newer, t < n.startedAt.val) : S.startedAt ≤ w.startedAt := by
  rw [hw] at hS hf
  rcases List.mem_append.mp hS with hS | hS
  · exact absurd (hnewer S hS) (not_lt.mpr hle)
  · rcases List.mem_cons.mp hS with rfl | hS
    · exact le_rfl
    · exact (List.pairwise_cons.mp (List.pairwise_append.mp hf).2.1).1 S hS

theorem Chronological.le_latest (hf : Chronological farm.windows) {s : Snapshot}
    (hs : s ∈ farm.windows) : s.startedAt ≤ farm.latestSnapshot.startedAt := by
  rw [windows_eq_cons] at hs hf
  rcases List.mem_cons.mp hs with rfl | hs
  · exact le_rfl
  · exact (List.pairwise_cons.mp hf).1 s hs

end Farm

end SolanaAmm.Farming
