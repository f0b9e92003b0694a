import SolanaAmm.Farming.Farmer
import SolanaAmm.Lib.Maps
import Mathlib.Algebra.BigOperators.Intervals
import Mathlib.Algebra.Order.BigOperators.Group.Finset
import Mathlib.Order.Interval.Finset.Nat

/-!
# Farming — Rates

The tokens that a harvest releases, slot by slot, and what the loop over
its history takes of them: in one window at most the share of what is
released in the slots of the window.
-/

namespace SolanaAmm.Farming

open Result Decimal

/-! ## What is released in a slot -/

def HarvestPeriod.rateAt (p : HarvestPeriod) (t : ℕ) : ℕ :=
  if p.startsAt.val ≤ t ∧ t ≤ p.endsAt.val then p.tps.val else 0

namespace Harvest

/-- The tokens per slot of all periods. -/
def rateAt (h : Harvest) (t : ℕ) : ℕ := (h.periods.toList.map (fun p => p.rateAt t)).sum

def TpsRange.rateAt (r : TpsRange) (t : ℕ) : ℕ :=
  if r.start.val ≤ t ∧ t ≤ r.stop.val then r.tps.val else 0

def ratesAt (history : List TpsRange) (t : ℕ) : ℕ := (history.map (fun r => r.rateAt t)).sum

variable {history history' : List TpsRange} {r : TpsRange} {t : ℕ}

theorem ratesAt_cons : ratesAt (r :: history) t = r.rateAt t + ratesAt history t := List.sum_cons

theorem sum_ratesAt_cons {a b : ℕ} :
    ∑ t ∈ Finset.Ico a b, ratesAt (r :: history) t
      = ∑ t ∈ Finset.Ico a b, r.rateAt t + ∑ t ∈ Finset.Ico a b, ratesAt history t := by
  rw [← Finset.sum_add_distrib]
  exact Finset.sum_congr rfl (fun t _ => ratesAt_cons)

theorem ratesAt_append :
    ratesAt (history ++ history') t = ratesAt history t + ratesAt history' t := by
  rw [ratesAt, List.map_append, List.sum_append]
  rfl

theorem ratesAt_suffix_le (h : history' <:+ history) : ratesAt history' t ≤ ratesAt history t :=
  List.Sublist.sum_le_sum (h.sublist.map _) (fun _ _ => Nat.zero_le _)

/-- A gap between two periods releases nothing. -/
theorem rateAt_gap (start stop : Slot) : TpsRange.rateAt ⟨start, stop, 0⟩ t = 0 := by
  unfold TpsRange.rateAt
  split <;> rfl

theorem ratesAt_periodRanges_le {curr prev : HarvestPeriod}
    (h : periodRanges curr prev = .ok history) : ratesAt history t ≤ curr.rateAt t := by
  have hone : ratesAt [⟨curr.startsAt, curr.endsAt, curr.tps⟩] t = curr.rateAt t :=
    List.sum_singleton
  unfold periodRanges at h
  split at h
  · rw [pure_eq_ok] at h
    subst h
    exact Nat.zero_le _
  · split at h
    · rw [pure_eq_ok] at h
      subst h
      exact hone.le
    · rw [bind_eq_ok] at h
      obtain ⟨gapStart, -, h⟩ := h
      split at h
      · rw [pure_eq_ok] at h
        subst h
        exact hone.le
      · simp only [bind_eq_ok, pure_eq_ok] at h
        obtain ⟨gapStop, -, rfl⟩ := h
        rw [ratesAt_cons, ← hone, ratesAt_cons, ratesAt_cons, rateAt_gap]
        exact Nat.le_refl _

/-- **The history** releases no more than the periods. -/
theorem ratesAt_tpsHistory_le {harvest : Harvest} {current : Slot}
    (h : harvest.tpsHistory current = .ok history) : ratesAt history t ≤ harvest.rateAt t := by
  simp only [tpsHistory, bind_eq_ok, mapM_eq_ok] at h
  obtain ⟨ranges, hranges, h⟩ := h
  have hflat : ratesAt ranges.flatten t ≤ harvest.rateAt t := by
    have hsum : ∀ (pairs : List (HarvestPeriod × HarvestPeriod)) (ranges : List (List TpsRange)),
        List.Forall₂ (fun w r => periodRanges w.1 w.2 = .ok r) pairs ranges →
        ratesAt ranges.flatten t ≤ ((pairs.map Prod.fst).map (fun p => p.rateAt t)).sum := by
      intro pairs ranges hall
      induction hall with
      | nil => exact Nat.zero_le _
      | cons hr _ ih =>
          rw [List.flatten_cons, ratesAt_append, List.map_cons, List.map_cons, List.sum_cons]
          exact Nat.add_le_add (ratesAt_periodRanges_le hr) ih
    have hfst : (harvest.periods.toList.zip (harvest.periods.toList.tail ++ [default])).map Prod.fst
        = harvest.periods.toList := by
      refine List.map_fst_zip (Nat.le_of_eq ?_)
      rw [List.length_append, List.length_tail, List.length_singleton,
        List.Vector.toList_length]
      rfl
    have := hsum _ _ hranges
    rwa [hfst] at this
  split at h
  · simp only [bind_eq_ok, pure_eq_ok] at h
    obtain ⟨start, -, rfl⟩ := h
    rw [ratesAt_cons, rateAt_gap, Nat.zero_add]
    exact hflat
  · rw [pure_eq_ok] at h
    rwa [← h]

end Harvest

/-! ## One window -/

open Harvest

/-- A constant over some slots of an interval. -/
theorem mul_le_sum_Ico {g : ℕ → ℕ} {a b c d v : ℕ} (hac : a ≤ c) (hdb : d ≤ b)
    (hg : ∀ t, c ≤ t → t < d → v ≤ g t) : (d - c) * v ≤ ∑ t ∈ Finset.Ico a b, g t := by
  have hconst : (d - c) * v = ∑ _t ∈ Finset.Ico c d, v := by
    rw [Finset.sum_const_nat (fun _ _ => rfl), Nat.card_Ico]
  rw [hconst]
  refine (Finset.sum_le_sum (fun t ht => ?_)).trans
    (Finset.sum_le_sum_of_subset (Finset.Ico_subset_Ico hac hdb))
  obtain ⟨h1, h2⟩ := Finset.mem_Ico.mp ht
  exact hg t h1 h2

variable {startsAt endsAt til : Slot} {farmerShare e e' : Decimal}
  {history history' : List TpsRange}
  {r : TpsRange}

/-- One range: its slots within the window, times the share. -/
theorem addRange_le (htil : til ≤ endsAt) (h : addRange startsAt til farmerShare e r = .ok e') :
    e'.raw ≤ e.raw + farmerShare.raw
      * ∑ t ∈ Finset.Ico startsAt.val (endsAt.val + 1), r.rateAt t := by
  unfold addRange at h
  split at h
  · rw [pure_eq_ok] at h
    rw [h]
    exact Nat.le_add_right _ _
  · simp only [bind_eq_ok, okOr_eq_ok, Word.checkedSub_eq_some, Slot.succ_eq_ok, tryMul_eq_ok,
      tryAdd_eq_ok, ofU64_raw] at h
    obtain ⟨d, ⟨hle, hd⟩, slots, hslots, shareOfSlots, hshare, tokens, htokens, hadd⟩ := h
    have hshare' : shareOfSlots.raw = slots.val * farmerShare.raw := by
      rw [hshare, Nat.mul_right_comm, Nat.mul_div_cancel _ wad_pos]
    have htokens' : tokens.raw = farmerShare.raw * (slots.val * r.tps.val) := by
      rw [htokens, hshare', ← Nat.mul_assoc, Nat.mul_div_cancel _ wad_pos]
      ring
    rw [hadd, htokens']
    refine Nat.add_le_add_left (Nat.mul_le_mul_left _ ?_) _
    rw [Word.val_max] at hle hd
    rw [Word.val_min] at hle hd
    rw [Word.le_def] at htil
    have hcount : slots.val = min r.stop.val til.val + 1 - max r.start.val startsAt.val := by
      omega
    rw [hcount]
    refine mul_le_sum_Ico (by omega) (by omega) (fun t h1 h2 => ?_)
    rw [TpsRange.rateAt, if_pos (by omega)]

/-- **The loop over the ranges** takes at most the share of what they
release in the window, and leaves older ranges. -/
theorem popHistory_le (htil : til ≤ endsAt)
    (h : popHistory startsAt endsAt farmerShare til e history = .ok (e', history')) :
    history' <:+ history ∧ e'.raw ≤ e.raw + farmerShare.raw
      * ∑ t ∈ Finset.Ico startsAt.val (endsAt.val + 1), ratesAt history t := by
  induction history generalizing til e with
  | nil =>
      simp only [popHistory, pure_eq_ok, Prod.mk.injEq] at h
      obtain ⟨rfl, rfl⟩ := h
      exact ⟨List.suffix_rfl, Nat.le_add_right _ _⟩
  | cons r history ih =>
      rw [sum_ratesAt_cons, Nat.mul_add]
      rw [popHistory] at h
      split at h
      · -- the range is over before the window
        simp only [pure_eq_ok, Prod.mk.injEq] at h
        obtain ⟨rfl, rfl⟩ := h
        exact ⟨List.suffix_rfl, Nat.le_add_right _ _⟩
      · split at h
        · -- it begins after the window
          obtain ⟨hsuf, hle⟩ := ih htil h
          exact ⟨hsuf.trans (List.suffix_cons _ _), by omega⟩
        · rename_i hstart
          rw [bind_eq_ok] at h
          obtain ⟨e₁, hadd, h⟩ := h
          have hadd := addRange_le htil hadd
          split at h
          · -- older ranges count up to the slot before it
            rw [bind_eq_ok] at h
            obtain ⟨til', hpred, h⟩ := h
            rw [Slot.pred_eq_ok] at hpred
            have htil' : til' ≤ endsAt := by
              rw [Word.lt_def, not_lt] at hstart
              rw [Word.le_def]
              omega
            obtain ⟨hsuf, hle⟩ := ih htil' h
            exact ⟨hsuf.trans (List.suffix_cons _ _), by omega⟩
          · simp only [pure_eq_ok, Prod.mk.injEq] at h
            obtain ⟨rfl, rfl⟩ := h
            exact ⟨List.suffix_rfl, by omega⟩

end SolanaAmm.Farming
