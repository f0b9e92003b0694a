import SolanaAmm.Farming.Periods
import SolanaAmm.Farming.Harvesting

/-!
# Farming — Per slot

What crediting a period is worth to a farmer, slot by slot: in every
window the share of their stake in what is released in the slots of the
window, rounded down once for the window (`creditOf`). The loops walk down
two descending lists at once, the snapshots and the ranges of the history;
what a window leaves of a history is what older windows need.
-/

namespace SolanaAmm.Farming

open Result Decimal Harvest

variable {since til startsAt endsAt : Slot} {staked : TokenAmount} {farmerShare e e' : Decimal}
  {history history' : List TpsRange} {r : TpsRange} {m : Pubkey} {t : ℕ}

/-! ## One range -/

/-- A range releases its tokens in every slot that it shares with an
interval. -/
theorem sum_rateAt_Ico (r : TpsRange) (a b : ℕ) :
    ∑ t ∈ Finset.Ico a b, r.rateAt t
      = (min b (r.stop.val + 1) - max a r.start.val) * r.tps.val := by
  have hrate : ∀ t ∈ Finset.Ico a b, r.rateAt t
      = if t ∈ Finset.Ico r.start.val (r.stop.val + 1) then r.tps.val else 0 := by
    intro t _
    simp only [Finset.mem_Ico, Nat.lt_succ_iff]
    rfl
  rw [Finset.sum_congr rfl hrate, Finset.sum_ite_mem, Finset.Ico_inter_Ico,
    Finset.sum_const_nat (fun _ _ => rfl), Nat.card_Ico]

/-- **A range that overlaps the window** adds the share of what it releases
in the window. -/
theorem addRange_eq_ok (hr : 0 < r.start.val ∧ r.start ≤ r.stop) (hstart : startsAt ≤ endsAt)
    (hin : startsAt ≤ r.stop ∧ r.start ≤ endsAt)
    (htil : min r.stop.val til.val = min r.stop.val endsAt.val) :
    addRange startsAt til farmerShare e r = .ok e' ↔
      e'.raw = e.raw + farmerShare.raw
        * ∑ t ∈ Finset.Ico startsAt.val (endsAt.val + 1), r.rateAt t := by
  obtain ⟨hpos, hle⟩ := hr
  simp only [Word.le_def] at hle hstart hin
  rw [sum_rateAt_Ico]
  unfold addRange
  split
  · rename_i htps
    rw [htps, Word.val_zero, Nat.mul_zero, Nat.mul_zero, Nat.add_zero, pure_eq_ok]
    exact ⟨fun h => by rw [h], fun h => (Fixed.ext h).symm⟩
  · rename_i htps
    have htps' : 0 < r.tps.val := Nat.pos_of_ne_zero (fun h => htps (Word.val_eq_zero.mp h))
    have hfit := r.stop.isLt
    generalize hn : min (endsAt.val + 1) (r.stop.val + 1) - max startsAt.val r.start.val = n
    simp only [bind_eq_ok, okOr_eq_ok, Word.checkedSub_eq_some, Slot.succ_eq_ok, tryMul_eq_ok,
      tryAdd_eq_ok, ofU64_raw, Word.val_min, Word.val_max]
    constructor
    · rintro ⟨d, ⟨hsub, hd⟩, slots, hslots, shareOfSlots, hshare, tokens, htokens, hadd⟩
      have hcount : slots.val = n := by omega
      rw [hadd, htokens, hshare, Nat.mul_right_comm, Nat.mul_div_cancel _ wad_pos, hcount,
        ← Nat.mul_assoc, Nat.mul_div_cancel _ wad_pos]
      ring
    · intro he
      have hbound := e'.raw_lt
      have hle : n * farmerShare.raw ≤ farmerShare.raw * (n * r.tps.val) := by
        rw [Nat.mul_comm]
        exact Nat.mul_le_mul_left _ (Nat.le_mul_of_pos_right _ htps')
      refine ⟨⟨n - 1, by omega⟩, ⟨by omega, ?_⟩, ⟨n, by omega⟩, ?_,
        ⟨n * farmerShare.raw, by omega⟩, ?_, ⟨farmerShare.raw * (n * r.tps.val), by omega⟩, ?_, he⟩
      · show n - 1 = _
        omega
      · show n = n - 1 + 1
        omega
      · show n * farmerShare.raw = _
        rw [Nat.mul_right_comm, Nat.mul_div_cancel _ wad_pos]
      · show farmerShare.raw * (n * r.tps.val) = n * farmerShare.raw * (r.tps.val * wad) / wad
        rw [← Nat.mul_assoc (n * farmerShare.raw), Nat.mul_div_cancel _ wad_pos]
        ring

/-! ## One history -/

/-- Ranges that end before a window release nothing in it. -/
theorem sum_ratesAt_eq_zero {a b : ℕ} (h : ∀ r ∈ history, r.stop.val < a) :
    ∑ t ∈ Finset.Ico a b, ratesAt history t = 0 := by
  refine Finset.sum_eq_zero (fun t ht => List.sum_eq_zero (fun n hn => ?_))
  obtain ⟨r, hr, rfl⟩ := List.mem_map.mp hn
  have := h r hr
  have := (Finset.mem_Ico.mp ht).1
  exact if_neg (by omega)

/-- The ranges that begin before a slot. -/
def rangesBefore (slot : Slot) (history : List TpsRange) : List TpsRange :=
  history.dropWhile (fun r => slot ≤ r.start)

theorem rangesBefore_of_le {slot : Slot} (h : slot ≤ r.start) :
    rangesBefore slot (r :: history) = rangesBefore slot history :=
  List.dropWhile_cons_of_pos (by simpa using h)

theorem rangesBefore_of_lt {slot : Slot} (h : r.start < slot) :
    rangesBefore slot (r :: history) = r :: history :=
  List.dropWhile_cons_of_neg (by simpa using h)

/-- Nothing is missing from them before the slot. -/
theorem ratesAt_rangesBefore {slot : Slot} (ht : t < slot.val) :
    ratesAt (rangesBefore slot history) t = ratesAt history t := by
  induction history with
  | nil => rfl
  | cons r history ih =>
      by_cases hr : slot ≤ r.start
      · have hzero : r.rateAt t = 0 := by
          rw [Word.le_def] at hr
          exact if_neg (by omega)
        rw [rangesBefore_of_le hr, ih, ratesAt_cons, hzero, Nat.zero_add]
      · rw [rangesBefore_of_lt (not_le.mp hr)]

theorem Harvest.Descending.rangesBefore {slot : Slot} (h : Descending history) :
    Descending (rangesBefore slot history) :=
  have hs := List.dropWhile_sublist (l := history) (fun r => slot ≤ r.start)
  ⟨fun r hr => h.ranges r (hs.subset hr), h.order.sublist hs⟩

/-- Nothing that is older than a range is released after the range began. -/
theorem Harvest.Descending.sum_older_eq_zero (h : Descending (r :: history))
    (hle : r.start.val ≤ startsAt.val) :
    ∑ t ∈ Finset.Ico startsAt.val (endsAt.val + 1), ratesAt history t = 0 := by
  refine sum_ratesAt_eq_zero (fun r' hr' => ?_)
  have := Word.lt_def.mp ((List.pairwise_cons.mp h.order).1 r' hr')
  omega

/-- The loop is left: nothing is added, and the rest of the history stays. -/
theorem popHistory_left {l : List TpsRange} :
    (pure (e, l) : Except FarmingError _) = .ok (e', history')
      ↔ e'.raw = e.raw + farmerShare.raw * 0 ∧ history' = l := by
  rw [pure_eq_ok, Prod.mk.injEq, Nat.mul_zero, Nat.add_zero]
  exact ⟨fun h => ⟨by rw [h.1], h.2.symm⟩, fun h => ⟨(Fixed.ext h.1).symm, h.2.symm⟩⟩

/-- **The loop over a history** adds the share of all that it releases in
the window, and leaves the ranges that begin before it. -/
theorem popHistory_eq_ok (hdesc : Descending history) (hstart : startsAt ≤ endsAt)
    (htil : ∀ r ∈ history, min r.stop.val til.val = min r.stop.val endsAt.val) :
    popHistory startsAt endsAt farmerShare til e history = .ok (e', history') ↔
      e'.raw = e.raw + farmerShare.raw
        * ∑ t ∈ Finset.Ico startsAt.val (endsAt.val + 1), ratesAt history t
      ∧ history' = rangesBefore startsAt history := by
  induction history generalizing til e with
  | nil =>
      have hzero : ∑ t ∈ Finset.Ico startsAt.val (endsAt.val + 1), ratesAt [] t = 0 :=
        sum_ratesAt_eq_zero (by intro r hr; cases hr)
      rw [popHistory, hzero]
      exact popHistory_left
  | cons r history ih =>
      obtain ⟨hbelow, -⟩ := List.pairwise_cons.mp hdesc.order
      have hr := hdesc.ranges r List.mem_cons_self
      have hle := Word.le_def.mp hr.2
      have hstart' := Word.le_def.mp hstart
      have hrest := fun r' hr' => htil r' (List.mem_cons_of_mem _ hr')
      rw [popHistory]
      split
      · -- the range is over before the window
        rename_i hover
        rw [Word.lt_def] at hover
        have hzero : ∑ t ∈ Finset.Ico startsAt.val (endsAt.val + 1), ratesAt (r :: history) t
            = 0 := by
          refine sum_ratesAt_eq_zero (fun r' hr' => ?_)
          rcases List.mem_cons.mp hr' with rfl | hr'
          · exact hover
          · have := Word.lt_def.mp (hbelow r' hr')
            omega
        have hkept : rangesBefore startsAt (r :: history) = r :: history :=
          rangesBefore_of_lt (Word.lt_def.mpr (by omega))
        rw [hzero, hkept]
        exact popHistory_left
      · rename_i hover
        rw [Word.lt_def] at hover
        split
        · -- it begins after the window
          rename_i hlater
          rw [Word.lt_def] at hlater
          have hzero : ∑ t ∈ Finset.Ico startsAt.val (endsAt.val + 1), r.rateAt t = 0 := by
            rw [sum_rateAt_Ico, show min (endsAt.val + 1) (r.stop.val + 1)
              - max startsAt.val r.start.val = 0 by omega, Nat.zero_mul]
          rw [ih hdesc.tail hrest, sum_ratesAt_cons, hzero, Nat.zero_add,
            rangesBefore_of_le (Word.le_def.mpr (by omega))]
        · rename_i hin
          rw [Word.lt_def] at hin
          have hadd : ∀ e₁, addRange startsAt til farmerShare e r = .ok e₁ ↔ e₁.raw = e.raw
              + farmerShare.raw * ∑ t ∈ Finset.Ico startsAt.val (endsAt.val + 1), r.rateAt t :=
            fun e₁ => addRange_eq_ok hr hstart
              ⟨Word.le_def.mpr (by omega), Word.le_def.mpr (by omega)⟩
              (htil r List.mem_cons_self)
          have hpos : r.start ≠ 0 := fun h => Nat.ne_of_gt hr.1 (Word.val_eq_zero.mpr h)
          simp only [bind_eq_ok, hadd, sum_ratesAt_cons, Nat.mul_add, ← Nat.add_assoc]
          by_cases hstarts : startsAt ≤ r.start
          · -- older ranges may still reach into the window
            rw [rangesBefore_of_le hstarts]
            simp only [if_pos (And.intro hstarts hpos), bind_eq_ok, Slot.pred_eq_ok]
            have hprev : ∀ {til' : Slot}, til'.val = r.start.val - 1 → ∀ r' ∈ history,
                min r'.stop.val til'.val = min r'.stop.val endsAt.val := by
              intro til' htil' r' hr'
              have := Word.lt_def.mp (hbelow r' hr')
              omega
            constructor
            · rintro ⟨e₁, he₁, til', ⟨-, htil'⟩, hpop⟩
              rw [ih hdesc.tail (hprev htil'), he₁] at hpop
              exact hpop
            · rintro ⟨he', hhistory⟩
              have hbound := e'.raw_lt
              refine ⟨⟨_, by omega⟩, rfl, ⟨r.start.val - 1, by have := r.start.isLt; omega⟩,
                ⟨hr.1, rfl⟩, ?_⟩
              rw [ih hdesc.tail (hprev rfl)]
              exact ⟨he', hhistory⟩
          · have hzero : ∑ t ∈ Finset.Ico startsAt.val (endsAt.val + 1), ratesAt history t = 0 :=
              hdesc.sum_older_eq_zero (Word.lt_def.mp (not_le.mp hstarts)).le
            rw [rangesBefore_of_lt (not_le.mp hstarts), hzero, Nat.mul_zero,
              Nat.add_zero]
            simp only [if_neg (fun h : startsAt ≤ r.start ∧ r.start ≠ 0 => hstarts h.1),
              pure_eq_ok, Prod.mk.injEq]
            constructor
            · rintro ⟨e₁, he₁, rfl, rfl⟩
              exact ⟨he₁, rfl⟩
            · rintro ⟨he', rfl⟩
              exact ⟨e', he', rfl, rfl⟩

/-! ## One window -/

/-- What a share is worth between two slots, in whole tokens. -/
def windowTokens (rate : ℕ → ℕ) (share a b : ℕ) : ℕ :=
  share * (∑ t ∈ Finset.Ico a b, rate t) / wad

/-- The histories tell the rates of all slots before `stop`. -/
def Tracks (hs : List Harvest) (stop : ℕ) (histories : TpsHistories) : Prop :=
  ∀ h ∈ hs, ∃ history, histories[h.mint]? = some history ∧ Descending history
    ∧ ∀ t < stop, ratesAt history t = h.rateAt t

variable {harvest : Harvest} {hs : List Harvest} {histories : TpsHistories}
  {harvests : Harvested} {acc acc' : TpsHistories × Harvested}

/-- **One harvest in one window** fails only if the amount does not fit. -/
theorem harvestWindow_eq_ok (hhistory : histories[harvest.mint]? = some history)
    (hdesc : Descending history)
    (hrates : ∀ t < endsAt.val + 1, ratesAt history t = harvest.rateAt t)
    (hstart : startsAt ≤ endsAt) :
    harvestWindow startsAt endsAt farmerShare (histories, harvests) harvest = .ok acc ↔
      ∃ n : TokenAmount, n.val = tokensOf harvests harvest.mint
          + windowTokens harvest.rateAt farmerShare.raw startsAt.val (endsAt.val + 1)
        ∧ acc = (histories.insert harvest.mint (rangesBefore startsAt history),
          harvests.insert harvest.mint n) := by
  have hsum : ∑ t ∈ Finset.Ico startsAt.val (endsAt.val + 1), ratesAt history t
      = ∑ t ∈ Finset.Ico startsAt.val (endsAt.val + 1), harvest.rateAt t :=
    Finset.sum_congr rfl (fun t ht => hrates t (Finset.mem_Ico.mp ht).2)
  have hpop : ∀ e' history', popHistory startsAt endsAt farmerShare endsAt zero history
      = .ok (e', history') ↔ e'.raw = farmerShare.raw
        * ∑ t ∈ Finset.Ico startsAt.val (endsAt.val + 1), harvest.rateAt t
      ∧ history' = rangesBefore startsAt history := by
    intro e' history'
    rw [popHistory_eq_ok hdesc hstart (fun _ _ => rfl), zero_raw, Nat.zero_add, hsum]
  simp only [harvestWindow, bind_eq_ok, okOr_eq_ok, Prod.exists, pure_eq_ok, tryFloor_eq_ok,
    Word.checkedAdd_eq_some, hhistory, Option.some.injEq]
  constructor
  · rintro ⟨_, rfl, e', _, hpopped, tokens, htokens, n, hn, rfl⟩
    obtain ⟨he', rfl⟩ := (hpop _ _).mp hpopped
    refine ⟨n, ?_, rfl⟩
    rw [hn, htokens, Fixed.floor, he']
    rfl
  · rintro ⟨n, hn, rfl⟩
    have hfit := n.isLt
    have hfloor : farmerShare.raw * (∑ t ∈ Finset.Ico startsAt.val (endsAt.val + 1),
        harvest.rateAt t) / wad < 2 ^ 64 := by
      unfold windowTokens at hn
      omega
    have hraw : farmerShare.raw * (∑ t ∈ Finset.Ico startsAt.val (endsAt.val + 1),
        harvest.rateAt t) < 2 ^ 192 :=
      ((Nat.div_lt_iff_lt_mul wad_pos).mp hfloor).trans (by decide)
    exact ⟨history, rfl, ⟨_, hraw⟩, _, (hpop _ _).mpr ⟨rfl, rfl⟩, ⟨_, hfloor⟩, rfl, n, hn, rfl⟩

/-- Amounts are added for some harvests, and no other entry changes. -/
structure Adds (hs : List Harvest) (amount : Harvest → ℕ) (t t' : Harvested) : Prop where
  added : ∀ h ∈ hs, tokensOf t' h.mint = tokensOf t h.mint + amount h
  others : ∀ m, m ∉ hs.map Harvest.mint → t'[m]? = t[m]?
  keys : ∀ m : Pubkey, t[m]?.isSome → t'[m]?.isSome

section Adds

variable {amount amount' : Harvest → ℕ} {u u' u'' : Harvested}

theorem Adds.none (hzero : ∀ h ∈ hs, amount h = 0) : Adds hs amount u u :=
  ⟨fun h hh => by rw [hzero h hh, Nat.add_zero], fun _ _ => rfl, fun _ h => h⟩

theorem Adds.trans (h : Adds hs amount u u') (h' : Adds hs amount' u' u'') :
    Adds hs (fun h => amount h + amount' h) u u'' where
  added a ha := by rw [h'.added a ha, h.added a ha, Nat.add_assoc]
  others m hm := (h'.others m hm).trans (h.others m hm)
  keys m hm := h'.keys m (h.keys m hm)

theorem Adds.congr (h : Adds hs amount u u') (heq : ∀ h ∈ hs, amount' h = amount h) :
    Adds hs amount' u u' where
  added a ha := by rw [heq a ha, h.added a ha]
  others := h.others
  keys := h.keys

end Adds

/-- Every harvest is credited with its window, and the histories tell the
slots before it. -/
structure WindowCredited (hs : List Harvest) (startsAt endsAt : Slot) (share : ℕ)
    (acc acc' : TpsHistories × Harvested) : Prop where
  tracks : Tracks hs startsAt.val acc'.1
  adds : Adds hs (fun h => windowTokens h.rateAt share startsAt.val (endsAt.val + 1)) acc.2 acc'.2
  histories : ∀ m, m ∉ hs.map Harvest.mint → acc'.1[m]? = acc.1[m]?

theorem Tracks.of_eq {stop : ℕ} {histories' : TpsHistories} (h : Tracks hs stop histories)
    (heq : ∀ h ∈ hs, histories'[h.mint]? = histories[h.mint]?) : Tracks hs stop histories' := by
  intro h' hh'
  rw [heq h' hh']
  exact h h' hh'

/-- **All harvests in one window.** -/
theorem harvestWindows_credited (hnodup : (hs.map Harvest.mint).Nodup)
    (htracks : Tracks hs (endsAt.val + 1) acc.1) (hstart : startsAt ≤ endsAt)
    (h : hs.foldlM (harvestWindow startsAt endsAt farmerShare) acc = .ok acc') :
    WindowCredited hs startsAt endsAt farmerShare.raw acc acc' := by
  induction hs generalizing acc with
  | nil =>
      rw [List.foldlM_nil, pure_eq_ok] at h
      subst h
      exact ⟨fun _ h => (nomatch h), .none (fun _ h => (nomatch h)), fun _ _ => rfl⟩
  | cons harvest hs ih =>
      rw [List.map_cons, List.nodup_cons] at hnodup
      rw [List.foldlM_cons, bind_eq_ok] at h
      obtain ⟨acc₁, hwindow, h⟩ := h
      obtain ⟨history, hhistory, hdesc, hrates⟩ := htracks harvest List.mem_cons_self
      obtain ⟨n, hn, rfl⟩ := (harvestWindow_eq_ok hhistory hdesc hrates hstart).mp hwindow
      have hne : ∀ h ∈ hs, h.mint ≠ harvest.mint := by
        intro h hh he
        exact hnodup.1 (he ▸ List.mem_map_of_mem hh)
      have htracks' : Tracks hs (endsAt.val + 1)
          (acc.1.insert harvest.mint (rangesBefore startsAt history)) :=
        Tracks.of_eq (fun h hh => htracks h (List.mem_cons_of_mem _ hh))
          (fun h hh => getElem?_insert_ne (hne h hh))
      -- the rest of the loop leaves the entries of this mint alone
      have hrest := ih hnodup.2 htracks' h
      have hown₁ := hrest.histories harvest.mint hnodup.1
      have hown₂ := hrest.adds.others harvest.mint hnodup.1
      refine ⟨fun h' hh' => ?_, ⟨fun h' hh' => ?_, fun m hm => ?_, fun m hm => ?_⟩, fun m hm => ?_⟩
      · rcases List.mem_cons.mp hh' with rfl | hh'
        · refine ⟨rangesBefore startsAt history, ?_, hdesc.rangesBefore, fun t ht => ?_⟩
          · rw [hown₁]
            exact Std.TreeMap.getElem?_insert_self
          · rw [ratesAt_rangesBefore ht]
            rw [Word.le_def] at hstart
            exact hrates t (by omega)
        · exact hrest.tracks h' hh'
      · rcases List.mem_cons.mp hh' with rfl | hh'
        · rw [← hn, ← tokensOf_of_getElem? (hown₂.trans Std.TreeMap.getElem?_insert_self)]
        · rw [hrest.adds.added h' hh', tokensOf_insert, if_neg (Ne.symm (hne h' hh'))]
      · rw [List.map_cons, List.mem_cons, not_or] at hm
        exact (hrest.adds.others m hm.2).trans (getElem?_insert_ne hm.1)
      · refine hrest.adds.keys m ?_
        by_cases he : m = harvest.mint
        · subst he
          rw [Std.TreeMap.getElem?_insert_self]
          rfl
        · rwa [getElem?_insert_ne he]
      · rw [List.map_cons, List.mem_cons, not_or] at hm
        exact (hrest.histories m hm.2).trans (getElem?_insert_ne hm.1)

/-- It fails only if an amount does not fit. -/
theorem harvestWindows_fits (hnodup : (hs.map Harvest.mint).Nodup)
    (htracks : Tracks hs (endsAt.val + 1) acc.1) (hstart : startsAt ≤ endsAt)
    (hfits : ∀ h ∈ hs, tokensOf acc.2 h.mint
      + windowTokens h.rateAt farmerShare.raw startsAt.val (endsAt.val + 1) < 2 ^ 64) :
    ∃ acc', hs.foldlM (harvestWindow startsAt endsAt farmerShare) acc = .ok acc' := by
  induction hs generalizing acc with
  | nil => exact ⟨acc, rfl⟩
  | cons harvest hs ih =>
      rw [List.map_cons, List.nodup_cons] at hnodup
      obtain ⟨history, hhistory, hdesc, hrates⟩ := htracks harvest List.mem_cons_self
      have hne : ∀ h ∈ hs, h.mint ≠ harvest.mint := by
        intro h hh he
        exact hnodup.1 (he ▸ List.mem_map_of_mem hh)
      let n : TokenAmount := ⟨_, hfits harvest List.mem_cons_self⟩
      have hwindow := (harvestWindow_eq_ok hhistory hdesc hrates hstart).mpr ⟨n, rfl, rfl⟩
      have htracks' : Tracks hs (endsAt.val + 1)
          (acc.1.insert harvest.mint (rangesBefore startsAt history)) :=
        Tracks.of_eq (fun h hh => htracks h (List.mem_cons_of_mem _ hh))
          (fun h hh => getElem?_insert_ne (hne h hh))
      have hfits' : ∀ h ∈ hs, tokensOf (acc.2.insert harvest.mint n) h.mint
          + windowTokens h.rateAt farmerShare.raw startsAt.val (endsAt.val + 1) < 2 ^ 64 := by
        intro h hh
        rw [tokensOf_insert, if_neg (Ne.symm (hne h hh))]
        exact hfits h (List.mem_cons_of_mem _ hh)
      rw [List.foldlM_cons, hwindow, ok_bind]
      exact ih hnodup.2 htracks' hfits'

/-! ## All windows -/

/-- What a stake earns in one window: from the snapshot or the first
credited slot on, to the slot before `stop`. -/
def snapshotTokens (rate : ℕ → ℕ) (since stake stop : ℕ) (w : Snapshot) : ℕ :=
  if 0 < w.startedAt.val ∧ 0 < w.staked.val then
    windowTokens rate (share w stake) (max w.startedAt.val since) stop
  else 0

/-- What a stake earns in all windows, the newest of which ends before
`stop` and every other before the next newer one. -/
def creditOf (rate : ℕ → ℕ) (since stake : ℕ) : ℕ → List Snapshot → ℕ
  | _, [] => 0
  | stop, w :: ws =>
      snapshotTokens rate since stake stop w + creditOf rate since stake w.startedAt.val ws

/-- Every window has slots, from `since` on. -/
def Windowed (since : ℕ) : ℕ → List Snapshot → Prop
  | _, [] => True
  | stop, w :: ws => w.startedAt.val < stop ∧ since < stop ∧ Windowed since w.startedAt.val ws

variable {loop loop' : WindowLoop} {w : Snapshot} {ws : List Snapshot} {stop : ℕ}

/-- What one window does to the loop. -/
structure SnapshotCredited (hs : List Harvest) (since : Slot) (staked : TokenAmount)
    (w : Snapshot) (loop loop' : WindowLoop) : Prop where
  stop : loop'.oldestSlotToSkip = w.startedAt
  tracks : Tracks hs w.startedAt.val loop'.histories
  adds : Adds hs (fun h => snapshotTokens h.rateAt since.val staked.val loop.oldestSlotToSkip.val w)
    loop.farmerHarvests loop'.farmerHarvests

theorem Tracks.mono {stop' : ℕ} (h : Tracks hs stop histories) (hle : stop' ≤ stop) :
    Tracks hs stop' histories := by
  intro h' hh'
  obtain ⟨history, hhistory, hdesc, hrates⟩ := h h' hh'
  exact ⟨history, hhistory, hdesc, fun t ht => hrates t (ht.trans_le hle)⟩

theorem snapshotTokens_of_staked (rate : ℕ → ℕ) (hpos : 0 < w.startedAt.val) (hw : w.staked ≠ 0) :
    snapshotTokens rate since.val staked.val stop w
      = windowTokens rate (share w staked.val) (max w.startedAt.val since.val) stop :=
  if_pos ⟨hpos, Nat.pos_of_ne_zero (fun h => hw (Word.val_eq_zero.mp h))⟩

theorem snapshotTokens_of_zero (rate : ℕ → ℕ) (hw : w.staked = 0) :
    snapshotTokens rate since.val staked.val stop w = 0 :=
  if_neg (fun h => Nat.ne_of_gt h.2 (Word.val_eq_zero.mpr hw))

theorem harvestSnapshot_credited (hnodup : (hs.map Harvest.mint).Nodup)
    (htracks : Tracks hs loop.oldestSlotToSkip.val loop.histories) (hpos : 0 < w.startedAt.val)
    (hw : w.startedAt.val < loop.oldestSlotToSkip.val)
    (hsince : since.val < loop.oldestSlotToSkip.val)
    (h : harvestSnapshot hs since staked loop w = .ok loop') :
    SnapshotCredited hs since staked w loop loop' := by
  unfold harvestSnapshot at h
  split at h
  · rename_i hzero
    rw [pure_eq_ok] at h
    subst h
    exact ⟨rfl, htracks.mono hw.le, .none (fun h _ => snapshotTokens_of_zero _ hzero)⟩
  · rename_i hstaked
    simp only [bind_eq_ok, Slot.pred_eq_ok, pure_eq_ok] at h
    obtain ⟨endsAt, ⟨hone, hends⟩, d, hd, ⟨histories, harvests⟩, hfold, rfl⟩ := h
    have hstop : endsAt.val + 1 = loop.oldestSlotToSkip.val := by omega
    have hle : max w.startedAt since ≤ endsAt := by
      rw [Word.le_def, Word.val_max]
      omega
    obtain ⟨htracks', hadds, -⟩ :=
      harvestWindows_credited hnodup (hstop ▸ htracks) hle hfold
    rw [Word.val_max] at htracks'
    refine ⟨rfl, htracks'.mono (le_max_left _ _), hadds.congr (fun h _ => ?_)⟩
    rw [snapshotTokens_of_staked _ hpos hstaked, tryDiv_eq_share hd, Word.val_max, hstop]

/-- A share always fits. -/
theorem tryDiv_share (staked : TokenAmount) (hw : w.staked ≠ 0) :
    ∃ d : Decimal, d.raw = share w staked.val
      ∧ tryDiv (ε := FarmingError) (ofU64 staked) (ofU64 w.staked) = .ok d := by
  have hne : w.staked.val ≠ 0 := fun h => hw (Word.val_eq_zero.mp h)
  refine ⟨⟨share w staked.val, ?_⟩, rfl, ?_⟩
  · exact (Nat.div_le_self _ _).trans_lt (ofU64 staked).raw_lt
  · rw [tryDiv_eq_ok, ofU64_raw, ofU64_raw, Nat.mul_div_mul_right _ _ wad_pos]
    exact ⟨Nat.mul_ne_zero hne (Nat.ne_of_gt wad_pos), rfl⟩

theorem harvestSnapshot_fits (hnodup : (hs.map Harvest.mint).Nodup)
    (htracks : Tracks hs loop.oldestSlotToSkip.val loop.histories) (hpos : 0 < w.startedAt.val)
    (hw : w.startedAt.val < loop.oldestSlotToSkip.val)
    (hsince : since.val < loop.oldestSlotToSkip.val)
    (hfits : ∀ h ∈ hs, tokensOf loop.farmerHarvests h.mint
      + snapshotTokens h.rateAt since.val staked.val loop.oldestSlotToSkip.val w < 2 ^ 64) :
    ∃ loop', harvestSnapshot hs since staked loop w = .ok loop' := by
  unfold harvestSnapshot
  split
  · exact ⟨_, rfl⟩
  · rename_i hstaked
    obtain ⟨endsAt, hends⟩ : ∃ e : Slot, e.val = loop.oldestSlotToSkip.val - 1 :=
      ⟨⟨loop.oldestSlotToSkip.val - 1, by have := loop.oldestSlotToSkip.isLt; omega⟩, rfl⟩
    have hstop : endsAt.val + 1 = loop.oldestSlotToSkip.val := by omega
    have hpred : Slot.pred loop.oldestSlotToSkip = .ok endsAt :=
      Slot.pred_eq_ok.mpr ⟨by omega, hends⟩
    have hle : max w.startedAt since ≤ endsAt := by
      rw [Word.le_def, Word.val_max]
      omega
    obtain ⟨d, hd, hdiv⟩ := tryDiv_share staked hstaked
    have hwindow : ∀ h ∈ hs, tokensOf loop.farmerHarvests h.mint
        + windowTokens h.rateAt d.raw (max w.startedAt since).val (endsAt.val + 1) < 2 ^ 64 := by
      intro h hh
      have := hfits h hh
      rwa [snapshotTokens_of_staked _ hpos hstaked, ← hd, ← hstop, ← Word.val_max] at this
    have hfits' : ∃ acc', hs.foldlM (harvestWindow (max w.startedAt since) endsAt d)
        (loop.histories, loop.farmerHarvests) = .ok acc' :=
      harvestWindows_fits hnodup (hstop ▸ htracks) hle hwindow
    obtain ⟨⟨histories, harvests⟩, hfold⟩ := hfits'
    rw [hpred, ok_bind, hdiv, ok_bind, hfold]
    exact ⟨_, rfl⟩

/-- **The loop over the snapshots.** -/
theorem harvestSnapshots_credited (hnodup : (hs.map Harvest.mint).Nodup)
    (htracks : Tracks hs loop.oldestSlotToSkip.val loop.histories)
    (hws : Windowed since.val loop.oldestSlotToSkip.val ws) (hpos : ∀ w ∈ ws, 0 < w.startedAt.val)
    (h : ws.foldlM (harvestSnapshot hs since staked) loop = .ok loop') :
    Adds hs (fun h => creditOf h.rateAt since.val staked.val loop.oldestSlotToSkip.val ws)
      loop.farmerHarvests loop'.farmerHarvests := by
  induction ws generalizing loop with
  | nil =>
      rw [List.foldlM_nil, pure_eq_ok] at h
      subst h
      exact .none (fun _ _ => rfl)
  | cons w ws ih =>
      rw [List.foldlM_cons, bind_eq_ok] at h
      obtain ⟨loop₁, hw, h⟩ := h
      obtain ⟨hlt, hsince, hws⟩ := hws
      obtain ⟨hstop, htracks₁, hadds₁⟩ :=
        harvestSnapshot_credited hnodup htracks (hpos w List.mem_cons_self) hlt hsince hw
      rw [← hstop] at htracks₁ hws
      have hrest := ih htracks₁ hws (fun w hw => hpos w (List.mem_cons_of_mem _ hw)) h
      rw [hstop] at hrest
      exact hadds₁.trans hrest

theorem harvestSnapshots_fits (hnodup : (hs.map Harvest.mint).Nodup)
    (htracks : Tracks hs loop.oldestSlotToSkip.val loop.histories)
    (hws : Windowed since.val loop.oldestSlotToSkip.val ws) (hpos : ∀ w ∈ ws, 0 < w.startedAt.val)
    (hfits : ∀ h ∈ hs, tokensOf loop.farmerHarvests h.mint
      + creditOf h.rateAt since.val staked.val loop.oldestSlotToSkip.val ws < 2 ^ 64) :
    ∃ loop', ws.foldlM (harvestSnapshot hs since staked) loop = .ok loop' := by
  induction ws generalizing loop with
  | nil => exact ⟨loop, rfl⟩
  | cons w ws ih =>
      obtain ⟨hlt, hsince, hws⟩ := hws
      have hposw := hpos w List.mem_cons_self
      obtain ⟨loop₁, hw⟩ : ∃ loop₁, harvestSnapshot hs since staked loop w = .ok loop₁ := by
        refine harvestSnapshot_fits hnodup htracks hposw hlt hsince (fun h hh => ?_)
        have := hfits h hh
        rw [creditOf] at this
        omega
      obtain ⟨hstop, htracks₁, hadds₁⟩ :=
        harvestSnapshot_credited hnodup htracks hposw hlt hsince hw
      rw [← hstop] at htracks₁ hws
      rw [List.foldlM_cons, hw, ok_bind]
      refine ih htracks₁ hws (fun w hw => hpos w (List.mem_cons_of_mem _ hw)) (fun h hh => ?_)
      have := hfits h hh
      rwa [hadds₁.added h hh, hstop, Nat.add_assoc]

/-! ## A credited period -/

/-- Only the oldest snapshot can be uninitialised, and it counts for
nothing. -/
theorem Windowed.filter {since : ℕ} (hws : Windowed since stop ws) :
    Windowed since stop (ws.filter (fun s => 0 < s.startedAt))
      ∧ ∀ rate stake, creditOf rate since stake stop (ws.filter (fun s => 0 < s.startedAt))
        = creditOf rate since stake stop ws := by
  induction ws generalizing stop with
  | nil => exact ⟨trivial, fun _ _ => rfl⟩
  | cons w ws ih =>
      obtain ⟨hlt, hsince, hws⟩ := hws
      by_cases hpos : 0 < w.startedAt
      · rw [List.filter_cons_of_pos (by simpa using hpos)]
        obtain ⟨hwindowed, hcredit⟩ := ih hws
        exact ⟨⟨hlt, hsince, hwindowed⟩, fun rate stake => by rw [creditOf, creditOf, hcredit]⟩
      · have hzero : w.startedAt.val = 0 := Nat.eq_zero_of_not_pos hpos
        cases ws with
        | nil =>
            rw [List.filter_cons_of_neg (by simpa using hpos)]
            refine ⟨trivial, fun rate stake => ?_⟩
            rw [List.filter_nil, creditOf, creditOf, creditOf, Nat.add_zero]
            exact (if_neg (fun h => Nat.ne_of_gt h.1 hzero)).symm
        | cons v ws =>
            have := hws.1
            omega

theorem pos_of_mem_filter (hw : w ∈ ws.filter (fun s => 0 < s.startedAt)) :
    0 < w.startedAt.val :=
  of_decide_eq_true (List.mem_filter.mp hw).2

/-- Descending snapshots, of which all but the last start after `since`. -/
theorem windowed_of_later {since stop : ℕ}
    (hdesc : ws.Pairwise (fun newer older => older.startedAt < newer.startedAt))
    (hhead : ∀ w ∈ ws.head?, w.startedAt.val < stop) (hsince : since < stop)
    (hlater : ∀ w ∈ ws.dropLast, since < w.startedAt.val) : Windowed since stop ws := by
  induction ws generalizing stop with
  | nil => trivial
  | cons w ws ih =>
      obtain ⟨hbelow, hdesc⟩ := List.pairwise_cons.mp hdesc
      refine ⟨hhead w rfl, hsince, ?_⟩
      cases ws with
      | nil => trivial
      | cons v ws =>
          rw [List.dropLast_cons_cons] at hlater
          refine ih hdesc ?_ (hlater w List.mem_cons_self)
            (fun u hu => hlater u (List.mem_cons_of_mem _ hu))
          rintro _ ⟨⟩
          exact hbelow v List.mem_cons_self

section Period

variable {farmHarvests : BTreeMap Harvest} {out : Harvested}

/-- The harvests that are credited. -/
def initialised (farmHarvests : BTreeMap Harvest) : List Harvest :=
  farmHarvests.values.filter (fun h => h.mint ≠ default)

/-- A map of harvests under their mints, whose periods are laid out. -/
structure HarvestsLaidOut (farmHarvests : BTreeMap Harvest) : Prop where
  mint : ∀ (k : Pubkey) (h : Harvest), farmHarvests[k]? = some h → h.mint = k
  laidOut : ∀ (k : Pubkey) (h : Harvest), farmHarvests[k]? = some h → LaidOut h.periods.toList

namespace HarvestsLaidOut

theorem mem_initialised (hlaid : HarvestsLaidOut farmHarvests) {h : Harvest} :
    h ∈ initialised farmHarvests ↔ farmHarvests[h.mint]? = some h ∧ h.mint ≠ default := by
  rw [initialised, List.mem_filter, decide_eq_true_eq, Maps.values_eq, List.mem_map]
  refine and_congr_left (fun _ => ⟨?_, fun hh => ⟨(h.mint, h), Maps.mem_toList.mpr hh, rfl⟩⟩)
  rintro ⟨⟨k, h'⟩, hmem, rfl⟩
  have hk := Maps.mem_toList.mp hmem
  rwa [hlaid.mint k h' hk]

theorem nodup (hlaid : HarvestsLaidOut farmHarvests) :
    ((initialised farmHarvests).map Harvest.mint).Nodup := by
  have hkeys : farmHarvests.values.map Harvest.mint = farmHarvests.toList.map Prod.fst := by
    rw [Maps.values_eq, List.map_map]
    refine List.map_congr_left ?_
    rintro ⟨k, h⟩ hkh
    exact hlaid.mint k h (Maps.mem_toList.mp hkh)
  exact (hkeys ▸ Maps.keys_nodup farmHarvests).sublist (List.filter_sublist.map _)

/-- The histories exist and tell the rates. -/
theorem histories_track (hlaid : HarvestsLaidOut farmHarvests) (til : Slot) :
    ∃ histories, farmHarvests.toList.mapM (fun h => do
        let history ← h.2.tpsHistory til
        pure (h.1, history) : Pubkey × Harvest → Except FarmingError _) = .ok histories
      ∧ ∀ stop, Tracks (initialised farmHarvests) stop (.ofList histories) := by
  obtain ⟨histories, hhistories⟩ := mapM_exists_ok (l := farmHarvests.toList)
    (f := fun h => (do
      let history ← h.2.tpsHistory til
      pure (h.1, history) : Except FarmingError (Pubkey × List TpsRange))) (by
    rintro ⟨k, h⟩ hkh
    obtain ⟨history, hhistory, -⟩ := tpsHistory_ok (hlaid.laidOut k h (Maps.mem_toList.mp hkh)) til
    exact ⟨(k, history), by rw [hhistory]; rfl⟩)
  refine ⟨histories, hhistories, fun stop h hh => ?_⟩
  have hall := mapM_eq_ok.mp hhistories
  have hkeys : farmHarvests.toList.map Prod.fst = histories.map Prod.fst := by
    refine Lists.forall₂_map_eq (fun a b hab => ?_) hall
    simp only [bind_eq_ok, pure_eq_ok] at hab
    obtain ⟨_, -, rfl⟩ := hab
    rfl
  have hget := (hlaid.mem_initialised.mp hh).1
  obtain ⟨b, hb, hab⟩ := Lists.forall₂_exists_right hall (Maps.mem_toList.mpr hget)
  simp only [bind_eq_ok, pure_eq_ok] at hab
  obtain ⟨history, hhistory, rfl⟩ := hab
  obtain ⟨history', hok, hdesc, hrates⟩ := tpsHistory_ok (hlaid.laidOut _ h hget) til
  obtain rfl := Except.ok.inj (hhistory.symm.trans hok)
  exact ⟨history, Maps.getElem?_ofList_of_mem (hkeys ▸ Maps.keys_nodup farmHarvests) hb, hdesc,
    fun t _ => hrates t⟩

end HarvestsLaidOut

/-- A stake of nothing earns nothing. -/
theorem creditOf_zero (rate : ℕ → ℕ) {since : ℕ} : creditOf rate since 0 stop ws = 0 := by
  induction ws generalizing stop with
  | nil => rfl
  | cons w ws ih =>
      rw [creditOf, ih, Nat.add_zero, snapshotTokens]
      split
      · rw [share, Nat.zero_mul, Nat.zero_div, windowTokens, Nat.zero_mul, Nat.zero_div]
      · rfl

/-- **Crediting a period** adds what every window is worth. -/
theorem eligibleHarvestUntil_adds (hlaid : HarvestsLaidOut farmHarvests)
    (hws : Windowed since.val (til.val + 1) ws)
    (h : eligibleHarvestUntil farmHarvests ws harvests (since, til) staked = .ok out) :
    Adds (initialised farmHarvests)
      (fun h => creditOf h.rateAt since.val staked.val (til.val + 1) ws) harvests out := by
  unfold eligibleHarvestUntil at h
  split at h
  · rename_i hzero
    rw [pure_eq_ok] at h
    subst h
    refine .none (fun h _ => ?_)
    rw [hzero, Word.val_zero, creditOf_zero]
  · obtain ⟨histories, hhistories, htracks⟩ := hlaid.histories_track til
    simp only [bind_eq_ok, Slot.succ_eq_ok, pure_eq_ok] at h
    obtain ⟨skip, hskip, histories', hhistories', loop, hloop, rfl⟩ := h
    obtain rfl : histories = histories' := Except.ok.inj (hhistories.symm.trans hhistories')
    rw [← hskip] at hws ⊢
    have hadds := harvestSnapshots_credited hlaid.nodup (htracks _)
      hws.filter.1 (fun _ hw => pos_of_mem_filter hw)
      hloop
    exact hadds.congr (fun h _ => (hws.filter.2 h.rateAt _).symm)

/-- It fails only if an amount, or the slot after the period, does not
fit. -/
theorem eligibleHarvestUntil_fits (hlaid : HarvestsLaidOut farmHarvests)
    (hws : Windowed since.val (til.val + 1) ws) (htil : til.val + 1 < 2 ^ 64)
    (hfits : ∀ h ∈ initialised farmHarvests, tokensOf harvests h.mint
      + creditOf h.rateAt since.val staked.val (til.val + 1) ws < 2 ^ 64) :
    ∃ out, eligibleHarvestUntil farmHarvests ws harvests (since, til) staked = .ok out := by
  unfold eligibleHarvestUntil
  split
  · exact ⟨harvests, rfl⟩
  · obtain ⟨histories, hhistories, htracks⟩ := hlaid.histories_track til
    obtain ⟨skip, hskip⟩ : ∃ skip : Slot, skip.val = til.val + 1 := ⟨⟨_, htil⟩, rfl⟩
    rw [← hskip] at hws hfits
    have hloop : ∃ loop', (ws.filter (fun s => 0 < s.startedAt)).foldlM
        (harvestSnapshot (initialised farmHarvests) since staked)
        ⟨skip, .ofList histories, harvests⟩ = .ok loop' := by
      refine harvestSnapshots_fits hlaid.nodup (htracks _) hws.filter.1
        (fun _ hw => pos_of_mem_filter hw) (fun h hh => ?_)
      rw [hws.filter.2]
      exact hfits h hh
    obtain ⟨loop', hloop⟩ := hloop
    refine ⟨loop'.farmerHarvests, ?_⟩
    dsimp only
    rw [Slot.succ_eq_ok.mpr hskip, ok_bind, hhistories, ok_bind]
    exact bind_eq_ok.mpr ⟨loop', hloop, rfl⟩

end Period

/-! ## The harvests of a farm -/

/-- Every harvest of the farm has its periods laid out. -/
def Farm.LaidOut (farm : Farm) : Prop := ∀ h ∈ farm.harvests, Farming.LaidOut h.periods.toList

instance (farm : Farm) : Decidable farm.LaidOut :=
  inferInstanceAs (Decidable (∀ h ∈ farm.harvests, _))

theorem Farm.LaidOut.harvestsMap {farm : Farm} (h : farm.LaidOut) :
    HarvestsLaidOut farm.harvestsMap where
  mint _ _ hk := (Farm.harvestsMap_mint hk).2
  laidOut _ _ hk := h _ (Farm.harvestsMap_mint hk).1

theorem creditOf_congr {rate rate' : ℕ → ℕ} (h : ∀ t, rate t = rate' t) {since stake : ℕ} :
    creditOf rate since stake stop ws = creditOf rate' since stake stop ws := by
  rw [funext h]

/-- **The loop agrees with the slots.** For a farm whose periods are laid
out, descending snapshots from `til` back, of which all but the last start
after `since`: the farmer gets of every harvest, in every window with
staked tokens, the share of their stake in what the periods release in the
slots of the window, rounded down; no other entry changes; and nothing
fails unless an amount does not fit. -/
theorem eligibleHarvestUntil_per_slot {farm : Farm} (hlaid : farm.LaidOut)
    (hdesc : ws.Pairwise (fun newer older => older.startedAt < newer.startedAt))
    (hhead : ∀ w ∈ ws.head?, w.startedAt ≤ til) (hsince : since ≤ til)
    (hlater : ∀ w ∈ ws.dropLast, since < w.startedAt) :
    (∀ out, eligibleHarvestUntil farm.harvestsMap ws harvests (since, til) staked = .ok out →
      (∀ (m : Pubkey) (h : Harvest), m ≠ default → farm.harvestsMap[m]? = some h →
        (out.getD m 0).val = (harvests.getD m 0).val
          + creditOf (tpsAt h.periods.toList) since.val staked.val (til.val + 1) ws)
      ∧ ∀ m : Pubkey, m = default ∨ farm.harvestsMap[m]? = none → out[m]? = harvests[m]?)
    ∧ (til.val + 1 < 2 ^ 64 →
      (∀ (m : Pubkey) (h : Harvest), m ≠ default → farm.harvestsMap[m]? = some h →
        (harvests.getD m 0).val
          + creditOf (tpsAt h.periods.toList) since.val staked.val (til.val + 1) ws < 2 ^ 64) →
      ∃ out, eligibleHarvestUntil farm.harvestsMap ws harvests (since, til) staked = .ok out) := by
  have hmap := hlaid.harvestsMap
  have hws : Windowed since.val (til.val + 1) ws :=
    windowed_of_later hdesc (fun w hw => Nat.lt_succ_of_le (hhead w hw))
      (Nat.lt_succ_of_le hsince) hlater
  have hrate : ∀ {m : Pubkey} {h : Harvest}, farm.harvestsMap[m]? = some h →
      creditOf h.rateAt since.val staked.val (til.val + 1) ws
        = creditOf (tpsAt h.periods.toList) since.val staked.val (til.val + 1) ws :=
    fun hh => creditOf_congr (fun t => (hmap.laidOut _ _ hh).sum_rateAt)
  refine ⟨fun out hout => ⟨fun m h hm hh => ?_, fun m hm => ?_⟩, fun htil hfits => ?_⟩
  · obtain rfl := hmap.mint m h hh
    have hadded := (eligibleHarvestUntil_adds hmap hws hout).added h
      (hmap.mem_initialised.mpr ⟨hh, hm⟩)
    rwa [hrate hh] at hadded
  · refine (eligibleHarvestUntil_adds hmap hws hout).others m (fun hmem => ?_)
    obtain ⟨h, hh, rfl⟩ := List.mem_map.mp hmem
    obtain ⟨hget, hne⟩ := hmap.mem_initialised.mp hh
    rcases hm with hm | hm
    · exact hne hm
    · rw [hget] at hm
      cases hm
  · refine eligibleHarvestUntil_fits hmap hws htil (fun h hh => ?_)
    obtain ⟨hget, hne⟩ := hmap.mem_initialised.mp hh
    rw [hrate hget]
    exact hfits h.mint h hne hget

/-- The harvest mint 200 with 5 tokens a slot in the slots 10 to 19 and 10
tokens a slot in the slots 30 to 39. -/
def twoPeriods : Harvest where
  mint := 200
  vault := .harvestVault 1 200
  periods := ⟨[⟨10, 30, 39⟩, ⟨5, 10, 19⟩] ++ List.replicate 8 default, rfl⟩

def twoPeriodFarm : Farm := { (default : Farm) with harvests := [twoPeriods] }

/-- 10 tokens are staked, of 100 from slot 5 on and of 50 from slot 25 on.
From slot 12 to slot 35 they earn 4 tokens in the first window, in which
the first period ends, and 12 in the second. -/
theorem eligibleHarvestUntil_per_slot_two :
    ∃ out, eligibleHarvestUntil twoPeriodFarm.harvestsMap [⟨50, 25⟩, ⟨100, 5⟩] ∅ (12, 35) 10
      = .ok out ∧ (out.getD 200 0).val = 4 + 12 := by
  have hcredit : creditOf (tpsAt twoPeriods.periods.toList) 12 10 36 [⟨50, 25⟩, ⟨100, 5⟩]
      = 4 + 12 := by decide +kernel
  have hget : twoPeriodFarm.harvestsMap[(200 : Pubkey)]? = some twoPeriods := by decide +kernel
  have hspec := @eligibleHarvestUntil_per_slot 12 35 10 ∅ [⟨50, 25⟩, ⟨100, 5⟩] twoPeriodFarm
    (by decide +kernel) (by decide) (by decide) (by decide) (by decide)
  have hfits : ∃ out, eligibleHarvestUntil twoPeriodFarm.harvestsMap [⟨50, 25⟩, ⟨100, 5⟩] ∅
      (12, 35) 10 = .ok out := by
    refine hspec.2 (by decide) (fun m h _ hh => ?_)
    obtain rfl : h = twoPeriods := List.mem_singleton.mp (Farm.harvestsMap_mint hh).1
    show 0 + creditOf (tpsAt twoPeriods.periods.toList) 12 10 36 [⟨50, 25⟩, ⟨100, 5⟩] < 2 ^ 64
    rw [hcredit]
    decide
  obtain ⟨out, hout⟩ := hfits
  refine ⟨out, hout, ?_⟩
  rw [(hspec.1 out hout).1 200 twoPeriods (by decide) hget]
  exact (Nat.zero_add _).trans hcredit

end SolanaAmm.Farming
