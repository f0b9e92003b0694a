import SolanaAmm.Farming.Retention

/-!
# Farming — Timeline

What the array of the periods of a harvest promises its readers
(`Arranged`): the periods that were written come first, the latest in
front, and no slot belongs to two of them. Of such an array `tps_history`
makes a partition of the slots from 1 on. Every reachable harvest keeps
the promise, although a new period is only compared with the latest one
that has started.
-/

namespace SolanaAmm.Farming

open Result Machine Harvest

variable {env : Env} {s s' : FarmingState} {F m : Pubkey} {now now' : Slot}
  {h h' : Harvest} {p : HarvestPeriod} {ps : List HarvestPeriod} {history : List TpsRange}
  {replaced : Option HarvestPeriod}

/-! ## Arranged periods -/

def HarvestPeriod.Contains (p : HarvestPeriod) (t : ℕ) : Prop :=
  p.startsAt.val ≤ t ∧ t ≤ p.endsAt.val

/-- The array of the periods: in front those that were written, the latest
first, no slot in two of them; behind them empty cells. -/
structure Arranged (ps : List HarvestPeriod) : Prop where
  live : ∀ p ∈ ps, p ≠ default → p.Live
  leading : ps.Pairwise (fun p q => q ≠ default → p ≠ default)
  descending : ps.Pairwise (fun p q => q ≠ default → q.startsAt < p.startsAt)
  disjoint : ps.Pairwise (fun p q => q ≠ default → ∀ t, p.Contains t → ¬ q.Contains t)

theorem LaidOut.arranged (h : LaidOut ps) : Arranged ps := by
  have hlive : ∀ p ∈ ps, p ≠ default → p.Live := fun p hp hne => (h.cells p hp).resolve_left hne
  have hover : ps.Pairwise (fun p q => q ≠ default → q.endsAt < p.startsAt) :=
    h.order.imp (fun hlt hne => hlt.resolve_left hne)
  refine ⟨hlive, ?_, ?_, ?_⟩
  · refine hover.imp (fun {p q} hlt hne hp => ?_)
    have := hlt hne
    rw [hp] at this
    exact absurd (Word.lt_def.mp this) (Nat.not_lt_zero _)
  · refine hover.imp_of_mem (fun {p q} _ hq hlt hne => ?_)
    exact lt_of_le_of_lt (hlive q hq hne).ends (hlt hne)
  · refine hover.imp (fun {p q} hlt hne t hp hq => ?_)
    have := Word.lt_def.mp (hlt hne)
    have := hp.1
    have := hq.2
    omega

theorem Arranged.laidOut (h : Arranged ps) : LaidOut ps where
  cells p hp := by
    by_cases hne : p = default
    · exact .inl hne
    · exact .inr (h.live p hp hne)
  order := by
    have hall := h.leading.and (h.descending.and h.disjoint)
    refine hall.imp_of_mem (fun {p q} hp hq hpq => ?_)
    obtain ⟨hlead, hdesc, hdisj⟩ := hpq
    by_cases hne : q = default
    · exact .inl hne
    · -- otherwise the newer period would start within the older one
      refine .inr (not_le.mp (fun hle => ?_))
      have hpl := h.live p hp (hlead hne)
      exact hdisj hne p.startsAt.val ⟨le_rfl, hpl.ends⟩ ⟨(hdesc hne).le, hle⟩

/-! ## The history as a partition -/

namespace Harvest

def TpsRange.Contains (r : TpsRange) (t : ℕ) : Prop := r.start.val ≤ t ∧ t ≤ r.stop.val

/-- Ranges in ascending order, one after the other from slot 1 to `last`. -/
structure Partitions (ranges : List TpsRange) (last : ℕ) : Prop where
  nonempty : ∀ r ∈ ranges, r.start ≤ r.stop
  consecutive : ranges.IsChain (fun r next => next.start.val = r.stop.val + 1)
  first : ranges.head?.map (fun r => r.start.val) = some 1
  last : ranges.getLast?.map (fun r => r.stop.val) = some last

/-- The current slot, or the end of the latest period if that is later. -/
def lastSlot (harvest : Harvest) (current : Slot) : ℕ :=
  (harvest.periods.toList.map (fun p => p.endsAt.val)).foldr max current.val

theorem Tiled.consecutive {last : ℕ} (h : Tiled history last) :
    history.IsChain (fun r older => r.start.val = older.stop.val + 1) := by
  induction h with
  | nil => exact .nil
  | cons hrest hstart hle ih =>
      cases hrest with
      | nil => exact .singleton _
      | cons => exact .cons_cons hstart ih

theorem Tiled.first {last : ℕ} (h : Tiled history last) (hlast : 0 < last) :
    history.getLast?.map (fun r => r.start.val) = some 1 := by
  induction h with
  | nil => exact absurd hlast (Nat.lt_irrefl 0)
  | @cons r history last hrest hstart hle ih =>
      cases hrest with
      | nil => rw [List.getLast?_singleton, Option.map_some, hstart]
      | cons hrest' hstart' hle' =>
          rw [List.getLast?_cons_cons]
          refine ih ?_
          have := Word.le_def.mp hle'
          omega

theorem Tiled.partitions {last : ℕ} (h : Tiled history last) (hlast : 0 < last) :
    Partitions history.reverse last where
  nonempty r hr := (h.descending.ranges r (List.mem_reverse.mp hr)).2
  consecutive := List.isChain_reverse.mpr h.consecutive
  first := by
    rw [List.head?_reverse]
    exact h.first hlast
  last := by
    rw [List.getLast?_reverse]
    cases h with
    | nil => exact absurd hlast (Nat.lt_irrefl 0)
    | cons => rfl

theorem Tiled.exists_contains {last t : ℕ} (h : Tiled history last) (ht : 0 < t)
    (hlast : t ≤ last) : ∃ r ∈ history, r.Contains t := by
  induction h with
  | nil => omega
  | @cons r history last hrest hstart hle ih =>
      by_cases hin : r.start.val ≤ t
      · exact ⟨r, List.mem_cons_self, hin, hlast⟩
      · obtain ⟨r', hr', hcont⟩ := ih (by omega)
        exact ⟨r', List.mem_cons_of_mem _ hr', hcont⟩

/-- The range that contains a slot is the one that is found. -/
theorem Descending.assigned_eq {r : TpsRange} {t : ℕ} (h : Descending history) (hr : r ∈ history)
    (ht : r.Contains t) : assigned history t = r.tps.val := by
  induction history with
  | nil => cases hr
  | cons r' history ih =>
      unfold assigned
      rcases List.mem_cons.mp hr with rfl | hr
      · rw [List.find?_cons_of_pos (by simpa [TpsRange.Contains] using ht)]
        rfl
      · have hlt := Word.lt_def.mp ((List.pairwise_cons.mp h.order).1 r hr)
        have hout : ¬ (r'.start.val ≤ t ∧ t ≤ r'.stop.val) := by
          have := ht.2
          omega
        rw [List.find?_cons_of_neg (by simpa using hout)]
        exact ih h.tail hr

/-- The latest period ends last. -/
theorem lastSlot_eq {harvest : Harvest} {current : Slot} (h : LaidOut harvest.periods.toList) :
    harvest.lastSlot current = max current.val harvest.periods.head.endsAt.val := by
  have key : ∀ {ps : List HarvestPeriod}, LaidOut ps →
      (ps.map (fun p => p.endsAt.val)).foldr max current.val
        = max current.val (ps.headD default).endsAt.val := by
    intro ps
    induction ps with
    | nil => exact fun _ => (Nat.max_eq_left (Nat.zero_le _)).symm
    | cons p ps ih =>
        intro hps
        have hle : (ps.headD default).endsAt.val ≤ p.endsAt.val := by
          cases ps with
          | nil => exact Nat.zero_le _
          | cons q ps =>
              rcases (List.pairwise_cons.mp hps.order).1 q List.mem_cons_self with rfl | hlt
              · exact Nat.zero_le _
              · have := Word.lt_def.mp hlt
                rcases hps.cells p List.mem_cons_self with rfl | hlive
                · exact absurd this (Nat.not_lt_zero _)
                · have := Word.le_def.mp hlive.ends
                  show q.endsAt.val ≤ p.endsAt.val
                  omega
        rw [List.map_cons, List.foldr_cons, ih hps.tail]
        show max p.endsAt.val _ = max current.val p.endsAt.val
        omega
  rw [lastSlot, key h, harvest.periods_eq_cons]
  rfl

/-- **The history partitions time.** Of arranged periods it is a list of
ranges from slot 1 to the current slot or the end of the latest period, and
every slot in between has the tokens of the period that contains it. -/
theorem tpsHistory_partitions {harvest : Harvest} {current : Slot}
    (h : Arranged harvest.periods.toList) (hcurrent : 0 < current.val) :
    ∃ history, harvest.tpsHistory current = .ok history
      ∧ Partitions history.reverse (harvest.lastSlot current)
      ∧ ∀ t, 0 < t → t ≤ harvest.lastSlot current →
        ∃ r ∈ history, r.Contains t ∧ r.tps.val = tpsAt harvest.periods.toList t := by
  have hlaid := h.laidOut
  obtain ⟨history, hhistory, htiled, -⟩ := tpsHistory_tiled hlaid current
  rw [← lastSlot_eq hlaid] at htiled
  have hpos : 0 < harvest.lastSlot current := by
    rw [lastSlot_eq hlaid]
    exact lt_of_lt_of_le hcurrent (Nat.le_max_left _ _)
  refine ⟨history, hhistory, htiled.partitions hpos, fun t ht hlast => ?_⟩
  obtain ⟨r, hr, hcont⟩ := htiled.exists_contains ht hlast
  refine ⟨r, hr, hcont, ?_⟩
  rw [← htiled.descending.assigned_eq hr hcont, assigned_tpsHistory hlaid hhistory]

/-- Two periods with a gap before each of them, the second not over yet. -/
def twoPeriods : Harvest :=
  ⟨200, .harvestVault 1 200, ⟨[⟨7, 20, 29⟩, ⟨5, 10, 14⟩] ++ List.replicate 8 default, rfl⟩⟩

theorem tpsHistory_partitions_two :
    ∃ history, twoPeriods.tpsHistory 25 = .ok history
      ∧ Partitions history.reverse 29
      ∧ ∃ r ∈ history, r.Contains 22 ∧ r.tps.val = 7 := by
  have hlaid : LaidOut twoPeriods.periods.toList := by decide
  have hcurrent : 0 < (25 : Slot).val := by decide
  obtain ⟨history, hhistory, hparts, hslots⟩ := tpsHistory_partitions hlaid.arranged hcurrent
  exact ⟨history, hhistory, hparts, hslots 22 (by decide) (by decide)⟩

end Harvest

/-! ## Every reachable harvest -/

/-- What the array of a harvest satisfies in a slot: at most the first
period has not started yet. -/
structure Harvest.WellScheduled (now : Slot) (h : Harvest) : Prop where
  arranged : Arranged h.periods.toList
  lasting : ∀ p ∈ h.periods.toList, p ≠ default → p.startsAt < p.endsAt
  started : ∀ p ∈ h.periods.toList.tail, p.startsAt ≤ now

theorem Harvest.WellScheduled.inOrder (hh : h.WellScheduled now) : InOrder now h :=
  ⟨hh.arranged.laidOut, hh.started⟩

theorem Harvest.WellScheduled.later (hle : now ≤ now') (hh : h.WellScheduled now) :
    h.WellScheduled now' :=
  ⟨hh.arranged, hh.lasting, fun p hp => (hh.started p hp).trans hle⟩

theorem Harvest.WellScheduled.empty {vault : Address} :
    Harvest.WellScheduled now ⟨m, vault, .replicate _ default⟩ where
  arranged := (LaidOut.empty _).arranged
  lasting _ hp hne := absurd (List.eq_of_mem_replicate hp) hne
  started := InOrder.empty.started

/-- **A new period** leaves the array well scheduled. -/
theorem Harvest.WellScheduled.scheduled (hh : h.WellScheduled now)
    (hs : Scheduled now h h' p replaced) : h'.WellScheduled now := by
  have horder := hh.inOrder.scheduled hs
  refine ⟨horder.laidOut.arranged, fun q hq hne => ?_, horder.started⟩
  have hold : q ∈ p :: h.periods.toList → q.startsAt < q.endsAt := by
    intro hmem
    rcases List.mem_cons.mp hmem with rfl | hmem
    · exact hs.ends
    · exact hh.lasting q hmem hne
  rcases hs.periods with ⟨-, -, hperiods⟩ | ⟨-, hperiods⟩
  · rw [hperiods] at hq
    exact hold (((List.tail_sublist _).cons_cons p).subset hq)
  · rw [hperiods] at hq
    exact hold (((List.dropLast_sublist _).cons_cons p).subset hq)

/-! ## Periods that have started -/

def HarvestPeriod.started (now : Slot) (p : HarvestPeriod) : Bool :=
  p ≠ default ∧ p.startsAt ≤ now

/-- The periods that have started by a slot. -/
def Harvest.startedPeriods (h : Harvest) (now : Slot) : List HarvestPeriod :=
  h.periods.toList.filter (HarvestPeriod.started now)

/-- All periods that have started are kept as they are, but for the one in
the last cell of the array, which may be dropped. -/
structure KeepsStarted (now : Slot) (h h' : Harvest) : Prop where
  mint : h'.mint = h.mint
  kept : ∃ added kept evicted, h.startedPeriods now = kept ++ evicted
    ∧ h'.startedPeriods now = added ++ kept ∧ added.length ≤ 1
    ∧ (evicted = [] ∨ evicted = [h.periods.last])

theorem KeepsStarted.refl : KeepsStarted now h h :=
  ⟨rfl, [], h.startedPeriods now, [], (List.append_nil _).symm, rfl, Nat.zero_le _, .inl rfl⟩

theorem Scheduled.keepsStarted (hs : Scheduled now h h' p replaced) : KeepsStarted now h h' := by
  have hadded : h'.startedPeriods now
      = [p].filter (HarvestPeriod.started now)
        ++ h'.periods.toList.tail.filter (HarvestPeriod.started now) := by
    rw [← List.filter_append, List.singleton_append]
    rcases hs.periods with ⟨-, -, hperiods⟩ | ⟨-, hperiods⟩
    all_goals rw [Harvest.startedPeriods, hperiods, List.tail_cons]
  unfold Harvest.startedPeriods at hadded
  rcases hs.periods with ⟨-, hfuture, hperiods⟩ | ⟨-, hperiods⟩
  · refine ⟨hs.mint, _, _, [], ?_, hadded, List.length_filter_le _ _, .inl rfl⟩
    have hhead : h.periods.head.started now = false :=
      decide_eq_false (fun hin => not_lt.mpr hin.2 hfuture)
    rw [Harvest.startedPeriods, h.periods_eq_cons, List.filter_cons_of_neg (by simp [hhead]),
      List.append_nil, hperiods, List.tail_cons]
  · refine ⟨hs.mint, _, _, [h.periods.last].filter (HarvestPeriod.started now), ?_, hadded,
      List.length_filter_le _ _, ?_⟩
    · rw [Harvest.startedPeriods, hperiods, List.tail_cons, ← List.filter_append,
        ← h.periods_eq_concat]
    · rw [List.filter_singleton]
      cases HarvestPeriod.started now h.periods.last with
      | true => exact .inr rfl
      | false => exact .inl rfl

/-- A call that schedules a period keeps what has started, in every farm. -/
def StartedKept (e : Event FarmingState Instr) : Prop :=
  match e.instr with
  | .newHarvestPeriod .. =>
      ∀ F, ∀ farm ∈ e.before.farms.lookup F, ∀ farm' ∈ e.after.farms.lookup F,
        List.Forall₂ (KeepsStarted e.before.slot) farm.harvests farm'.harvests
  | _ => True

theorem newHarvestPeriod_keeps {accs : NewHarvestPeriod} {startsAt : Slot} {len : U64}
    {tps : TokenAmount} (h : newHarvestPeriod env s accs m startsAt len tps = .ok s') :
    StartedKept ⟨s, .newHarvestPeriod accs m startsAt len tps, s'⟩ := by
  obtain ⟨farm, old, new, p, replaced, hfarm, hfind, hsched, hfarms⟩ :=
    newHarvestPeriod_scheduled h
  intro F g hg g' hg'
  rw [hfarms] at hg'
  rcases Store.lookup_insert_cases hg' with ⟨rfl, rfl⟩ | ⟨-, hg'⟩
  · obtain rfl := Option.some.inj (hfarm.symm.trans hg)
    obtain ⟨-, l₁, l₂, hl, hset⟩ := Lists.setFirst_of_find? hfind
    have hset' : (farm.setHarvest m new).harvests = l₁ ++ new :: l₂ := hset _
    rw [hl, hset']
    have hsame : ∀ l : List Harvest, List.Forall₂ (KeepsStarted s.slot) l l :=
      fun l => List.forall₂_same.mpr (fun _ _ => .refl)
    exact List.rel_append (hsame l₁) (.cons hsched.keepsStarted (hsame l₂))
  · obtain rfl := Option.some.inj (Eq.trans hg.symm hg')
    exact List.forall₂_same.mpr (fun _ _ => .refl)

/-- **The periods of every reachable harvest** are well scheduled, and a
new period changes none that has started: it drops at most the last. -/
theorem periods_wellScheduled (hp : env.tokenProgram.Lawful) (hg : Genesis s) (is : List Instr) :
    EveryHarvest Harvest.WellScheduled (run (step env) s is)
    ∧ ∀ e ∈ (run (traced (step env)) (s, []) is).2, StartedKept e := by
  have hstep : ∀ (s : FarmingState) i s', Custody s ∧ EveryHarvest Harvest.WellScheduled s →
      step env s i = .ok s' → Custody s' ∧ EveryHarvest Harvest.WellScheduled s' := by
    intro s i s' hI h
    obtain ⟨s₁, hh, ha⟩ := step_ok hp hI.1 h
    exact ⟨step_custody hp hI.1 h, ha.everyHarvest Harvest.WellScheduled.later
      Harvest.WellScheduled.empty Harvest.WellScheduled.scheduled (hh.everyHarvest hI.2)⟩
  have hinit : Custody s ∧ EveryHarvest Harvest.WellScheduled s := ⟨hg.custody, hg.everyHarvest⟩
  refine ⟨(run_invariant' hstep hinit is).2, ?_⟩
  refine history_invariant (fun s i s' hI h => ⟨hstep s i s' hI h, ?_⟩) hinit is
  cases i with
  | newHarvestPeriod accs m startsAt len tps => exact newHarvestPeriod_keeps h
  | _ => trivial

/-- Ten periods, of which nine have started before the last was scheduled. -/
theorem periods_wellScheduled_ten :
    ∃ farm, (run (step sampleEnv) sampleGenesis tenPeriods).farms.lookup 1 = some farm
      ∧ ∀ h ∈ farm.harvests, h.WellScheduled 26 := by
  have hsome : ((run (step sampleEnv) sampleGenesis tenPeriods).farms.lookup 1).isSome = true := by
    decide +kernel
  have hslot : (run (step sampleEnv) sampleGenesis tenPeriods).slot = 26 := by decide +kernel
  obtain ⟨farm, hfarm⟩ := Option.isSome_iff_exists.mp hsome
  have hall := (periods_wellScheduled Token.Reference.lawful sampleGenesis_genesis tenPeriods).1
    1 farm hfarm
  rw [hslot] at hall
  exact ⟨farm, hfarm, hall⟩

end SolanaAmm.Farming
