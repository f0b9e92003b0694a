import SolanaAmm.Farming.Rates

/-!
# Farming — Periods

The periods of a harvest as they are scheduled: newest first, each one
over before the next begins, and behind them the cells never written
(`LaidOut`). Of such periods `tps_history` exists for every slot, its
ranges descend without overlapping, and it assigns to a slot the tokens of
the period that contains it (`assigned_tpsHistory`).
-/

namespace SolanaAmm.Farming

open Result

variable {t : ℕ}

/-! ## Scheduled periods -/

/-- A period that was scheduled: it has slots, and not the first one. -/
structure HarvestPeriod.Live (p : HarvestPeriod) : Prop where
  starts : 0 < p.startsAt.val
  ends : p.startsAt ≤ p.endsAt

theorem HarvestPeriod.rateAt_default : (default : HarvestPeriod).rateAt t = 0 := by
  unfold rateAt
  split <;> rfl

/-- Newest first, one after the other, in front of the empty cells. -/
structure LaidOut (ps : List HarvestPeriod) : Prop where
  cells : ∀ p ∈ ps, p = default ∨ p.Live
  order : ps.Pairwise (fun newer older => older = default ∨ older.endsAt < newer.startsAt)

instance (p : HarvestPeriod) : Decidable p.Live :=
  decidable_of_iff (0 < p.startsAt.val ∧ p.startsAt ≤ p.endsAt)
    ⟨fun h => ⟨h.1, h.2⟩, fun h => ⟨h.starts, h.ends⟩⟩

instance (ps : List HarvestPeriod) : Decidable (LaidOut ps) :=
  decidable_of_iff ((∀ p ∈ ps, p = default ∨ p.Live)
      ∧ ps.Pairwise (fun newer older => older = default ∨ older.endsAt < newer.startsAt))
    ⟨fun h => ⟨h.1, h.2⟩, fun h => ⟨h.cells, h.order⟩⟩

/-- The tokens per slot of the period that contains a slot. -/
def tpsAt (ps : List HarvestPeriod) (t : ℕ) : ℕ :=
  (ps.find? (fun p => p.startsAt.val ≤ t ∧ t ≤ p.endsAt.val)).elim 0 (fun p => p.tps.val)

namespace LaidOut

variable {p q : HarvestPeriod} {ps ps' : List HarvestPeriod}

theorem empty (n : ℕ) : LaidOut (List.replicate n default) where
  cells _ hp := .inl (List.eq_of_mem_replicate hp)
  order := List.pairwise_replicate.mpr (.inr (.inl rfl))

theorem sublist (h : LaidOut ps) (hs : List.Sublist ps' ps) : LaidOut ps' where
  cells p hp := h.cells p (hs.subset hp)
  order := h.order.sublist hs

theorem tail (h : LaidOut (p :: ps)) : LaidOut ps := h.sublist (List.sublist_cons_self _ _)

/-- A period is put in front of those that are over. -/
theorem cons (h : LaidOut (q :: ps)) (hp : p.startsAt ≤ p.endsAt) (hq : q.endsAt < p.startsAt) :
    LaidOut (p :: q :: ps) where
  cells r hr := by
    rcases List.mem_cons.mp hr with rfl | hr
    · exact .inr ⟨Nat.zero_lt_of_lt (Word.lt_def.mp hq), hp⟩
    · exact h.cells r hr
  order := by
    refine List.pairwise_cons.mpr ⟨fun r hr => ?_, h.order⟩
    rcases List.mem_cons.mp hr with rfl | hmem
    · exact .inr hq
    · rcases (List.pairwise_cons.mp h.order).1 r hmem with hr | hr
      · exact .inl hr
      · refine .inr (hr.trans (lt_of_le_of_lt ?_ hq))
        rcases h.cells q List.mem_cons_self with rfl | hs
        · exact le_rfl
        · exact hs.ends

/-- Behind an empty cell all cells are empty. -/
theorem eq_default (h : LaidOut (p :: ps)) (hp : p.startsAt = 0) : ∀ q ∈ p :: ps, q = default := by
  intro q hq
  rcases List.mem_cons.mp hq with rfl | hq
  · rcases h.cells q List.mem_cons_self with hq | hs
    · exact hq
    · exact absurd (Word.val_eq_zero.mpr hp) (Nat.ne_of_gt hs.starts)
  · rcases (List.pairwise_cons.mp h.order).1 q hq with hq | hlt
    · exact hq
    · rw [hp, Word.lt_def] at hlt
      exact absurd hlt (Nat.not_lt_zero _)

/-- **No slot belongs to two periods.** -/
theorem sum_rateAt (h : LaidOut ps) : (ps.map (fun p => p.rateAt t)).sum = tpsAt ps t := by
  have hrate : ∀ p : HarvestPeriod,
      p.rateAt t = if p.startsAt.val ≤ t ∧ t ≤ p.endsAt.val then p.tps.val else 0 := fun _ => rfl
  rw [Lists.sum_map_eq_find? (p := fun p => decide (p.startsAt.val ≤ t ∧ t ≤ p.endsAt.val))]
  · unfold tpsAt
    cases hf : ps.find? (fun p => decide (p.startsAt.val ≤ t ∧ t ≤ p.endsAt.val)) with
    | none => rfl
    | some p =>
        have hp := List.find?_some hf
        exact (hrate p).trans (if_pos (of_decide_eq_true hp))
  · intro p _ hp
    exact (hrate p).trans (if_neg (of_decide_eq_false hp))
  · refine h.order.imp (fun {newer older} hlt hin => ?_)
    rcases hlt with rfl | hlt
    · exact HarvestPeriod.rateAt_default
    · have hin := of_decide_eq_true hin
      rw [Word.lt_def] at hlt
      exact (hrate older).trans (if_neg (by omega))

end LaidOut

/-! ## The history of the periods -/

namespace Harvest

/-- Ranges, newest first, none of them empty and no two of them
overlapping. -/
structure Descending (history : List TpsRange) : Prop where
  ranges : ∀ r ∈ history, 0 < r.start.val ∧ r.start ≤ r.stop
  order : history.Pairwise (fun newer older => older.stop < newer.start)

/-- The tokens per slot that a history assigns to a slot. -/
def assigned (history : List TpsRange) (t : ℕ) : ℕ :=
  (history.find? (fun r => r.start.val ≤ t ∧ t ≤ r.stop.val)).elim 0 (fun r => r.tps.val)

variable {history : List TpsRange} {r : TpsRange} {ps : List HarvestPeriod}
  {curr prev : HarvestPeriod}

theorem Descending.ratesAt_eq (h : Descending history) :
    ratesAt history t = assigned history t := by
  have hrate : ∀ r : TpsRange,
      r.rateAt t = if r.start.val ≤ t ∧ t ≤ r.stop.val then r.tps.val else 0 := fun _ => rfl
  rw [ratesAt, Lists.sum_map_eq_find? (p := fun r => decide (r.start.val ≤ t ∧ t ≤ r.stop.val))]
  · unfold assigned
    cases hf : history.find? (fun r => decide (r.start.val ≤ t ∧ t ≤ r.stop.val)) with
    | none => rfl
    | some r =>
        have hr := List.find?_some hf
        exact (hrate r).trans (if_pos (of_decide_eq_true hr))
  · intro r _ hr
    exact (hrate r).trans (if_neg (of_decide_eq_false hr))
  · refine h.order.imp (fun {newer older} hlt hin => ?_)
    have hin := of_decide_eq_true hin
    rw [Word.lt_def] at hlt
    exact (hrate older).trans (if_neg (by omega))

/-- A range in front of older ones. -/
theorem Descending.cons (h : Descending history) (hr : 0 < r.start.val ∧ r.start ≤ r.stop)
    (hlt : ∀ r' ∈ history, r'.stop < r.start) : Descending (r :: history) where
  ranges := List.forall_mem_cons.mpr ⟨hr, h.ranges⟩
  order := List.pairwise_cons.mpr ⟨hlt, h.order⟩

theorem Descending.tail (h : Descending (r :: history)) : Descending history :=
  ⟨fun r' hr' => h.ranges r' (List.mem_cons_of_mem _ hr'), (List.pairwise_cons.mp h.order).2⟩

theorem Descending.nil : Descending [] := ⟨fun _ h => (nomatch h), .nil⟩

/-- Ranges, newest first, that cover the slots from 1 to `last` without a
gap. -/
inductive Tiled : List TpsRange → ℕ → Prop
  | nil : Tiled [] 0
  | cons {r history last} (rest : Tiled history last) (start : r.start.val = last + 1)
      (nonempty : r.start ≤ r.stop) : Tiled (r :: history) r.stop.val

theorem Tiled.stop_le {last : ℕ} (h : Tiled history last) : ∀ r ∈ history, r.stop.val ≤ last := by
  induction h with
  | nil => exact fun r hr => (nomatch hr)
  | cons _ hstart hle ih =>
      intro r hr
      rcases List.mem_cons.mp hr with rfl | hr
      · exact le_rfl
      · have := ih r hr
        have := Word.le_def.mp hle
        omega

theorem Tiled.descending {last : ℕ} (h : Tiled history last) : Descending history := by
  induction h with
  | nil => exact .nil
  | cons hrest hstart hle ih =>
      refine ih.cons ⟨by omega, hle⟩ (fun r hr => ?_)
      have := hrest.stop_le r hr
      rw [Word.lt_def]
      omega

/-- A period and the gap before it, in front of older ranges. -/
theorem periodRanges_ok (hcurr : curr.Live) (hprev : prev.endsAt < curr.startsAt)
    (htiled : Tiled history prev.endsAt.val) :
    ∃ ranges, periodRanges curr prev = .ok ranges
      ∧ Tiled (ranges ++ history) curr.endsAt.val
      ∧ ∀ t, ratesAt (ranges ++ history) t = curr.rateAt t + ratesAt history t := by
  have hstarts := hcurr.starts
  have hends := hcurr.ends
  have hne : curr.startsAt ≠ 0 := fun h => Nat.ne_of_gt hstarts (Word.val_eq_zero.mpr h)
  rw [Word.lt_def] at hprev
  obtain ⟨gapStart, hgap⟩ : ∃ g : Slot, g.val = prev.endsAt.val + 1 :=
    ⟨⟨prev.endsAt.val + 1, by have := curr.startsAt.isLt; omega⟩, rfl⟩
  have hsucc : Slot.succ prev.endsAt = .ok gapStart := Slot.succ_eq_ok.mpr hgap
  unfold periodRanges
  rw [if_neg (fun h => hne h.1), if_neg hne, hsucc]
  by_cases hnext : gapStart = curr.startsAt
  · -- the periods follow each other without a gap
    refine ⟨_, if_pos hnext, ?_, fun t => ratesAt_cons⟩
    have hstart : curr.startsAt.val = prev.endsAt.val + 1 := by rw [← hnext, hgap]
    exact Tiled.cons (r := ⟨curr.startsAt, curr.endsAt, curr.tps⟩) htiled hstart hends
  · -- the gap is a range of its own that releases nothing
    have hlt : gapStart.val < curr.startsAt.val := by
      have : gapStart.val ≠ curr.startsAt.val := fun h => hnext (Word.ext h)
      omega
    obtain ⟨gapStop, hstopped⟩ : ∃ g : Slot, g.val = curr.startsAt.val - 1 :=
      ⟨⟨curr.startsAt.val - 1, by have := curr.startsAt.isLt; omega⟩, rfl⟩
    have hpred : Slot.pred curr.startsAt = .ok gapStop :=
      Slot.pred_eq_ok.mpr ⟨hstarts, hstopped⟩
    have hranges : (if gapStart = curr.startsAt then pure [⟨curr.startsAt, curr.endsAt, curr.tps⟩]
        else do
          let gapStop ← Slot.pred curr.startsAt
          pure [⟨curr.startsAt, curr.endsAt, curr.tps⟩, ⟨gapStart, gapStop, 0⟩])
        = (.ok [⟨curr.startsAt, curr.endsAt, curr.tps⟩, ⟨gapStart, gapStop, 0⟩] :
          Except FarmingError (List TpsRange)) := by
      rw [if_neg hnext, hpred]
      rfl
    have hgapped : Tiled (⟨gapStart, gapStop, 0⟩ :: history) gapStop.val := by
      have hle : gapStart ≤ gapStop := by
        rw [Word.le_def]
        omega
      exact Tiled.cons (r := ⟨gapStart, gapStop, 0⟩) htiled hgap hle
    have hstart : curr.startsAt.val = gapStop.val + 1 := by omega
    refine ⟨_, hranges,
      Tiled.cons (r := ⟨curr.startsAt, curr.endsAt, curr.tps⟩) hgapped hstart hends, fun t => ?_⟩
    show ratesAt (_ :: _ :: history) t = _
    rw [ratesAt_cons, ratesAt_cons, rateAt_gap, Nat.zero_add]
    rfl

/-- The ranges of all periods. -/
theorem mapM_periodRanges (h : LaidOut ps) :
    ∃ ranges, (ps.zip (ps.tail ++ [default])).mapM (fun w => periodRanges w.1 w.2) = .ok ranges
      ∧ Tiled ranges.flatten (ps.headD default).endsAt.val
      ∧ ∀ t, ratesAt ranges.flatten t = (ps.map (fun p => p.rateAt t)).sum := by
  induction ps with
  | nil => exact ⟨[], rfl, .nil, fun t => rfl⟩
  | cons p ps ih =>
      obtain ⟨ranges, hranges, htiled, hrates⟩ := ih h.tail
      have hzip : (p :: ps).zip ((p :: ps).tail ++ [default])
          = (p, ps.headD default) :: ps.zip (ps.tail ++ [default]) := by
        cases ps <;> rfl
      have hcons : ∀ {rs}, periodRanges p (ps.headD default) = .ok rs →
          ((p :: ps).zip ((p :: ps).tail ++ [default])).mapM (fun w => periodRanges w.1 w.2)
            = .ok (rs :: ranges) := by
        intro rs hrs
        rw [hzip, List.mapM_cons]
        simp only [hrs, hranges]
        rfl
      by_cases hp : p.startsAt = 0
      · -- only empty cells are left
        have hall := h.eq_default hp
        have hhead : ps.headD default = default := by
          cases ps with
          | nil => rfl
          | cons q ps => exact hall q (List.mem_cons_of_mem _ List.mem_cons_self)
        obtain rfl : p = default := hall p List.mem_cons_self
        have hempty : periodRanges default (ps.headD default) = .ok [] := by
          rw [hhead]
          rfl
        rw [hhead] at htiled
        refine ⟨_, hcons hempty, htiled, fun t => ?_⟩
        rw [List.map_cons, List.sum_cons, HarvestPeriod.rateAt_default, Nat.zero_add]
        exact hrates t
      · have hlive : p.Live := by
          rcases h.cells p List.mem_cons_self with rfl | hlive
          · exact absurd rfl hp
          · exact hlive
        have hprev : (ps.headD default).endsAt < p.startsAt := by
          have hpos : (default : HarvestPeriod).endsAt < p.startsAt := hlive.starts
          cases ps with
          | nil => exact hpos
          | cons q ps =>
              rcases (List.pairwise_cons.mp h.order).1 q List.mem_cons_self with rfl | hlt
              · exact hpos
              · exact hlt
        obtain ⟨rs, hrs, htiled', hrates'⟩ := periodRanges_ok hlive hprev htiled
        refine ⟨_, hcons hrs, htiled', fun t => ?_⟩
        rw [List.map_cons, List.sum_cons, ← hrates t]
        exact hrates' t

/-- **The history exists**: its ranges cover the slots up to the end of the
latest period or the current slot, and tell the rate of every slot. -/
theorem tpsHistory_tiled {harvest : Harvest} (h : LaidOut harvest.periods.toList) (current : Slot) :
    ∃ history, harvest.tpsHistory current = .ok history
      ∧ Tiled history (max current.val harvest.periods.head.endsAt.val)
      ∧ ∀ t, ratesAt history t = harvest.rateAt t := by
  obtain ⟨ranges, hranges, htiled, hrates⟩ := mapM_periodRanges h
  have hhead : harvest.periods.toList.headD default = harvest.periods.head := by
    rw [harvest.periods_eq_cons, List.headD_cons]
  rw [hhead] at htiled
  unfold tpsHistory
  dsimp only
  rw [hranges, ok_bind]
  by_cases hcur : harvest.periods.head.endsAt < current
  · have hlt := Word.lt_def.mp hcur
    obtain ⟨start, hstart⟩ : ∃ g : Slot, g.val = harvest.periods.head.endsAt.val + 1 :=
      ⟨⟨harvest.periods.head.endsAt.val + 1, by have := current.isLt; omega⟩, rfl⟩
    have hle : start ≤ current := by
      rw [Word.le_def]
      omega
    rw [if_pos hcur, Slot.succ_eq_ok.mpr hstart, Nat.max_eq_left hlt.le]
    refine ⟨_, rfl, Tiled.cons (r := ⟨start, current, 0⟩) htiled hstart hle, fun t => ?_⟩
    rw [ratesAt_cons, rateAt_gap, Nat.zero_add]
    exact hrates t
  · rw [if_neg hcur, Nat.max_eq_right (Word.le_def.mp (not_lt.mp hcur))]
    exact ⟨_, rfl, htiled, hrates⟩

theorem tpsHistory_ok {harvest : Harvest} (h : LaidOut harvest.periods.toList) (current : Slot) :
    ∃ history, harvest.tpsHistory current = .ok history ∧ Descending history
      ∧ ∀ t, ratesAt history t = harvest.rateAt t := by
  obtain ⟨history, hhistory, htiled, hrates⟩ := tpsHistory_tiled h current
  exact ⟨history, hhistory, htiled.descending, hrates⟩

/-- **The history assigns** to a slot the tokens of the period that
contains it. -/
theorem assigned_tpsHistory {harvest : Harvest} {current : Slot}
    (h : LaidOut harvest.periods.toList) (hhistory : harvest.tpsHistory current = .ok history) :
    assigned history t = tpsAt harvest.periods.toList t := by
  obtain ⟨history', hok, hdesc, hrates⟩ := tpsHistory_ok h current
  obtain rfl : history = history' := Except.ok.inj (hhistory.symm.trans hok)
  rw [← hdesc.ratesAt_eq, hrates, Harvest.rateAt, h.sum_rateAt]

end Harvest

end SolanaAmm.Farming
