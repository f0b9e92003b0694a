import SolanaAmm.Lib.Zeros
import SolanaAmm.Amm.Quadratic
import SolanaAmm.Amm.Accuracy
import Mathlib.Data.Nat.Find

/-!
# Amm — Stable swap

The exact invariant of a stable pool across a swap. Whether a change of
the balances lowers it is told by the sign of one polynomial at one
quotient. The more a swap leaves of the bought reserve, the higher the
invariant, so there is a largest whole balance that lowers it. The curve's
quadratic is solved scaled down and with truncated coefficients: the
invariant is kept exactly when it is still not positive just above that
balance.
-/

namespace SolanaAmm.Amm

open Result Decimal

/-! ## The exact invariant -/

/-- The zero of the stable swap polynomial does not decrease: wherever the
polynomial of the old reserves is not positive, neither is that of the new
ones. -/
def KeepsInvariant (amp : ℕ) (reserves reserves' : List ℕ) : Prop :=
  ∀ d : ℚ, 0 ≤ d → stableSwapPolynomial amp reserves d ≤ 0 →
    stableSwapPolynomial amp reserves' d ≤ 0

theorem stableSwapPolynomial_perm {amp : ℕ} {l l' : List ℕ} {d : ℚ} (h : l.Perm l') :
    stableSwapPolynomial amp l d = stableSwapPolynomial amp l' d := by
  rw [stableSwapPolynomial, stableSwapPolynomial, h.length_eq, h.prod_eq, h.sum_eq]

/-- The polynomial by one of the balances. -/
theorem stableSwapPolynomial_cons {amp w : ℕ} {l : List ℕ} {d : ℚ} :
    stableSwapPolynomial amp (w :: l) d
      = d ^ (l.length + 2) - ((l.length + 1) ^ (l.length + 1) * l.prod) * w
        * (amp * (l.length + 1) ^ (l.length + 1) * (w + l.sum)
          - (amp * (l.length + 1) ^ (l.length + 1) - 1) * d) := by
  rw [stableSwapPolynomial, List.length_cons, List.prod_cons, List.sum_cons]
  push_cast
  ring

/-- **A larger balance** keeps the polynomial from being positive. -/
theorem stableSwapPolynomial_mono {amp w w' : ℕ} {l : List ℕ} {d : ℚ} (hd : 0 ≤ d)
    (hw : w ≤ w') (h : stableSwapPolynomial amp (w :: l) d ≤ 0) :
    stableSwapPolynomial amp (w' :: l) d ≤ 0 := by
  rw [stableSwapPolynomial_cons] at h ⊢
  have hpow : 0 ≤ d ^ (l.length + 2) := pow_nonneg hd _
  have hc : (0 : ℚ) ≤ (l.length + 1) ^ (l.length + 1) * l.prod := by positivity
  have ha : (0 : ℚ) ≤ amp * (l.length + 1) ^ (l.length + 1) := by positivity
  have hwq : (w : ℚ) ≤ w' := by exact_mod_cast hw
  have hsum : (0 : ℚ) ≤ l.sum := by positivity
  have hw0 : (0 : ℚ) ≤ w := by positivity
  generalize ((l.length + 1) ^ (l.length + 1) * l.prod : ℚ) = c at *
  generalize (amp * (l.length + 1) ^ (l.length + 1) : ℚ) = a at *
  have hfactor : a * (w + l.sum) - (a - 1) * d ≤ a * (w' + l.sum) - (a - 1) * d := by
    have := mul_le_mul_of_nonneg_left hwq ha
    linarith
  -- the last factor is only negative where the power is positive
  have hnonneg : 0 ≤ a * (w + l.sum) - (a - 1) * d := by
    by_contra hneg
    have hle : c * w * (a * (w + l.sum) - (a - 1) * d) ≤ 0 :=
      mul_nonpos_of_nonneg_of_nonpos (mul_nonneg hc hw0) (by linarith)
    have hzero : d ^ (l.length + 2) = 0 := le_antisymm (by linarith) hpow
    have hd0 : d = 0 := (pow_eq_zero_iff (Nat.succ_ne_zero _)).mp hzero
    have := mul_nonneg ha (add_nonneg hw0 hsum)
    rw [hd0] at hneg
    linarith
  have hprod : c * w * (a * (w + l.sum) - (a - 1) * d)
      ≤ c * w' * (a * (w' + l.sum) - (a - 1) * d) :=
    mul_le_mul (mul_le_mul_of_nonneg_left hwq hc) hfactor hnonneg
      (mul_nonneg hc (hw0.trans hwq))
  linarith

/-- The zero is at least one. -/
theorem stableSwapPolynomial_one_nonpos {amp : ℕ} {l : List ℕ} (hpos : ∀ x ∈ l, 0 < x)
    (hne : l ≠ []) : stableSwapPolynomial amp l 1 ≤ 0 := by
  have hn : (1 : ℚ) ≤ l.length ^ l.length := by
    exact_mod_cast Nat.pow_pos (List.length_pos_iff.mpr hne)
  have hprod : (1 : ℚ) ≤ l.prod := by
    exact_mod_cast List.prod_pos hpos
  have hsum : (1 : ℚ) ≤ l.sum := by
    exact_mod_cast (List.length_pos_iff.mpr hne).trans_le (List.length_le_sum_of_one_le l hpos)
  have ha : (0 : ℚ) ≤ amp * l.length ^ l.length := by positivity
  unfold stableSwapPolynomial
  rw [one_pow, mul_one]
  generalize (l.length ^ l.length : ℚ) = nn at *
  generalize (l.prod : ℚ) = p at *
  generalize (amp * nn : ℚ) = a at *
  have hnn : 1 ≤ nn * p := one_le_mul_of_one_le_of_one_le hn hprod
  have hle : a * (nn * p) * 1 ≤ a * (nn * p) * l.sum :=
    mul_le_mul_of_nonneg_left hsum (mul_nonneg ha (zero_le_one.trans hnn))
  linarith

/-! ## Lower invariants -/

/-- The linear coefficient of the polynomial. -/
def exactLinear (amp : ℕ) (reserves : List ℕ) : ℚ :=
  (amp * reserves.length ^ reserves.length - 1) * reserves.length ^ reserves.length
    * reserves.prod

/-- Its constant term, up to the sign. -/
def exactConstant (amp : ℕ) (reserves : List ℕ) : ℚ :=
  amp * reserves.length ^ reserves.length * reserves.length ^ reserves.length
    * reserves.prod * reserves.sum

theorem stableSwapPolynomial_eq_poly {amp k : ℕ} {l : List ℕ} (hl : l.length = k + 1) :
    stableSwapPolynomial amp l = Newton.poly k (exactLinear amp l) (exactConstant amp l) := by
  funext d
  unfold stableSwapPolynomial Newton.poly exactLinear exactConstant
  rw [hl]

/-- Balances with a lower invariant: with `slope` and `level` the change of
the coefficients, the zero of the old polynomial is where
`level < slope * d`. -/
def LowersInvariant (amp : ℕ) (reserves reserves' : List ℕ) : Prop :=
  Newton.ZeroFalls (stableSwapPolynomial amp reserves)
    (exactLinear amp reserves' - exactLinear amp reserves)
    (exactConstant amp reserves' - exactConstant amp reserves)

instance (amp : ℕ) (reserves reserves' : List ℕ) :
    Decidable (LowersInvariant amp reserves reserves') :=
  inferInstanceAs (Decidable (Newton.ZeroFalls _ _ _))

theorem exactLinear_nonneg {amp k : ℕ} (hamp : 0 < amp) {l : List ℕ} (hl : l.length = k + 1) :
    0 ≤ exactLinear amp l := by
  have hone : (1 : ℚ) ≤ amp * l.length ^ l.length := by
    rw [hl]
    exact_mod_cast Nat.mul_pos hamp (Nat.pow_pos (Nat.succ_pos k))
  have hprod : (0 : ℚ) ≤ l.prod := Nat.cast_nonneg _
  exact mul_nonneg (mul_nonneg (sub_nonneg.mpr hone) (by positivity)) hprod

/-- **The invariant** is kept if and only if the balances do not lower it. -/
theorem keepsInvariant_iff {amp k : ℕ} (hamp : 0 < amp) {l l' : List ℕ} (hl : l.length = k + 1)
    (hl' : l'.length = k + 1) : KeepsInvariant amp l l' ↔ ¬ LowersInvariant amp l l' := by
  have hconstant : 0 ≤ exactConstant amp l := by
    unfold exactConstant
    positivity
  unfold KeepsInvariant LowersInvariant
  rw [stableSwapPolynomial_eq_poly hl, stableSwapPolynomial_eq_poly hl']
  exact Newton.forall_poly_nonpos_iff (exactLinear_nonneg hamp hl) (exactLinear_nonneg hamp hl')
    hconstant

namespace Pool

variable {m : PowSqrt} {pool pool' : Pool} {sellMint buyMint : Pubkey} {n received : TokenAmount}

/-- The balances after a swap of `n` tokens that leaves `w` of the bought
reserve. -/
def balancesLeaving (pool : Pool) (sellMint : Pubkey) (n : ℕ) (buyMint : Pubkey) (w : ℕ) :
    List ℕ :=
  pool.activeReserves.map
    (fun r => if r.mint = buyMint then w else r.tokens.val + single sellMint n r.mint)

theorem balancesLeaving_perm (hp : pool.WellFormed) {r : Reserve} (hr : r ∈ pool.activeReserves)
    (hmint : r.mint = buyMint) {k w : ℕ} :
    (pool.balancesLeaving sellMint k buyMint w).Perm
      (w :: (pool.activeReserves.filter (fun r => r.mint ≠ buyMint)).map
        (fun r => r.tokens.val + single sellMint k r.mint)) := by
  have hperm := (Lists.perm_cons_filter_key hp.mints_nodup hr).map
    (fun r => if r.mint = buyMint then w else r.tokens.val + single sellMint k r.mint)
  rw [List.map_cons, if_pos hmint, hmint] at hperm
  refine hperm.trans (List.Perm.of_eq (congrArg _ (List.map_congr_left (fun b hb => ?_))))
  exact if_neg (by simpa using (List.mem_filter.mp hb).2)

/-- **Leaving more** keeps the invariant too. -/
theorem keepsInvariant_mono (hp : pool.WellFormed) {r : Reserve} (hr : r ∈ pool.activeReserves)
    (hmint : r.mint = buyMint) {amp k w w' : ℕ} {l : List ℕ} (hw : w ≤ w')
    (h : KeepsInvariant amp l (pool.balancesLeaving sellMint k buyMint w)) :
    KeepsInvariant amp l (pool.balancesLeaving sellMint k buyMint w') := by
  intro d hd hbefore
  have hle := h d hd hbefore
  rw [stableSwapPolynomial_perm (balancesLeaving_perm hp hr hmint)] at hle ⊢
  exact stableSwapPolynomial_mono hd hw hle

/-- A swap leaves what was not received. -/
theorem Swapped.balances_eq (hp : pool.WellFormed) (hne : sellMint ≠ buyMint)
    (h : Swapped m pool sellMint n buyMint pool' received) {r : Reserve}
    (hr : r ∈ pool.activeReserves) (hmint : r.mint = buyMint) :
    pool'.activeReserves.map (·.tokens.val)
      = pool.balancesLeaving sellMint n.val buyMint (r.tokens.val - received.val) := by
  rw [h.tokens]
  refine List.map_congr_left (fun b hb => ?_)
  split
  · rename_i hb'
    rw [List.inj_on_of_nodup_map hp.mints_nodup hb hr (hb'.trans hmint.symm), hmint, single_self,
      single_ne (Ne.symm hne), Nat.add_zero]
  · rename_i hb'
    rw [single_ne hb', Nat.sub_zero]

/-! ## One swap -/

/-- The largest whole balance of the bought reserve, of `tokens` before the
swap, that lowers the invariant. -/
def lastLowering (pool : Pool) (amp : ℕ) (sellMint : Pubkey) (n : ℕ) (buyMint : Pubkey)
    (tokens : ℕ) : ℕ :=
  Nat.findGreatest (fun w => LowersInvariant amp (pool.activeReserves.map (·.tokens.val))
    (pool.balancesLeaving sellMint n buyMint w)) tokens

theorem lastLowering_lowers {amp k : ℕ} (tokens : ℕ)
    (h : LowersInvariant amp (pool.activeReserves.map (·.tokens.val))
      (pool.balancesLeaving sellMint k buyMint 0)) :
    LowersInvariant amp (pool.activeReserves.map (·.tokens.val))
      (pool.balancesLeaving sellMint k buyMint
        (pool.lastLowering amp sellMint k buyMint tokens)) := by
  generalize hw : pool.lastLowering amp sellMint k buyMint tokens = w
  rcases Nat.eq_zero_or_pos w with rfl | hpos
  · exact h
  · exact Nat.findGreatest_of_ne_zero hw hpos.ne'

theorem le_lastLowering {amp k w tokens : ℕ} (hw : w ≤ tokens)
    (h : LowersInvariant amp (pool.activeReserves.map (·.tokens.val))
      (pool.balancesLeaving sellMint k buyMint w)) :
    w ≤ pool.lastLowering amp sellMint k buyMint tokens := by
  unfold lastLowering
  exact Nat.le_findGreatest hw h

/-- **The condition**: just above the last whole balance that lowers the
invariant, the truncated quadratic is not positive yet. -/
def RootAboveLast (m : PowSqrt) (pool : Pool) (amplifier : U64) (invariant : Decimal)
    (sellMint : Pubkey) (n : ℕ) (buyMint : Pubkey) (tokens : ℕ) : Prop :=
  (storedQuadratic m pool.dimension.val amplifier.val invariant.raw
    (pool.otherSum sellMint n buyMint) (pool.otherProduct sellMint n buyMint)).NotPositiveAbove
      (pool.lastLowering amplifier.val sellMint n buyMint tokens)

/-- What a swap on a stable pool leaves is above the whole balances that
its quadratic is not positive above. -/
theorem Swapped.lt_left_iff (hm : m.Lawful) (hp : pool.WellFormed) {amplifier : U64}
    {invariant : Decimal} (hcurve : pool.curve = .stable amplifier invariant)
    (h : Swapped m pool sellMint n buyMint pool' received) {r : Reserve}
    (hr : r ∈ pool.activeReserves) (hmint : r.mint = buyMint) {w : ℕ} :
    w < r.tokens.val - received.val ↔
      (storedQuadratic m pool.dimension.val amplifier.val invariant.raw
        (pool.otherSum sellMint n.val buyMint)
        (pool.otherProduct sellMint n.val buyMint)).NotPositiveAbove w := by
  obtain ⟨r', hr', hmint', balances, product, b, hbal, hprod, hb, hle, hrec⟩ := h.bought
  obtain rfl := List.inj_on_of_nodup_map hp.mints_nodup hr hr' (hmint.trans hmint'.symm)
  simp only [boughtBalanceAfterSwap, hcurve, bind_eq_ok] at hb
  obtain ⟨sum, hsum, hb⟩ := hb
  have hroot := getBuyReserveBalanceAfterSwap_lt_iff (w := w) hm (sum_soldOrNeutral hp hbal hsum)
    (product_soldOrNeutral hp hbal hprod) hb
  rw [reservesHashmap_size hp] at hroot
  rw [← hroot, hrec, Fixed.sub_sub_div wad_pos hle, Nat.lt_iff_add_one_le,
    Nat.le_div_iff_mul_le wad_pos, Nat.succ_mul]
  have := wad_pos
  omega

/-- A swap on a stable curve has an amplifier. -/
theorem Swapped.amplifier_pos (hm : m.Lawful) (hp : pool.WellFormed) {amplifier : U64}
    {invariant : Decimal} (hcurve : pool.curve = .stable amplifier invariant)
    (h : Swapped m pool sellMint n buyMint pool' received) : 0 < amplifier.val := by
  obtain ⟨r, -, -, balances, product, b, hbal, hprod, hb, -⟩ := h.bought
  simp only [boughtBalanceAfterSwap, hcurve, bind_eq_ok] at hb
  obtain ⟨sum, hsum, hb⟩ := hb
  obtain ⟨out, dPow, hsolved⟩ := getBuyReserveBalanceAfterSwap_solved hm
    (sum_soldOrNeutral hp hbal hsum) (product_soldOrNeutral hp hbal hprod) hb
  exact Nat.pos_of_mul_pos_right hsolved.a_pos

/-- Leaving nothing of a reserve lowers the invariant. -/
theorem not_keepsInvariant_zero (hp : pool.WellFormed)
    (hpos : ∀ r ∈ pool.activeReserves, 0 < r.tokens.val) {r : Reserve}
    (hr : r ∈ pool.activeReserves) (hmint : r.mint = buyMint) {amp k : ℕ} :
    ¬ KeepsInvariant amp (pool.activeReserves.map (·.tokens.val))
      (pool.balancesLeaving sellMint k buyMint 0) := by
  intro h
  have hone := h 1 zero_le_one (stableSwapPolynomial_one_nonpos
    (fun x hx => by
      obtain ⟨r, hr, rfl⟩ := List.mem_map.mp hx
      exact hpos r hr)
    (List.ne_nil_of_mem (List.mem_map_of_mem hr)))
  rw [stableSwapPolynomial_perm (balancesLeaving_perm hp hr hmint), stableSwapPolynomial_cons,
    one_pow, Nat.cast_zero, mul_zero, zero_mul, sub_zero] at hone
  exact absurd hone (not_le.mpr one_pos)

/-- **A stable swap** keeps the exact invariant if and only if its truncated
quadratic is not positive just above the last balance that lowers it. -/
theorem swap_keepsInvariant_iff (hm : m.Lawful) (hp : pool.WellFormed) {amplifier : U64}
    {invariant : Decimal} (hcurve : pool.curve = .stable amplifier invariant)
    (hne : sellMint ≠ buyMint)
    (h : pool.swap m sellMint n buyMint = .ok (pool', received)) {r : Reserve}
    (hr : r ∈ pool.activeReserves) (hmint : r.mint = buyMint) :
    KeepsInvariant amplifier.val (pool.activeReserves.map (·.tokens.val))
        (pool'.activeReserves.map (·.tokens.val))
      ↔ pool.RootAboveLast m amplifier invariant sellMint n.val buyMint r.tokens.val := by
  have hs := swapped hp h
  have hamp := hs.amplifier_pos hm hp hcurve
  obtain ⟨k, hk⟩ : ∃ k, pool.dimension.val = k + 1 :=
    Nat.exists_eq_add_of_le' (Nat.one_le_of_lt hp.two_le)
  have hlen : (pool.activeReserves.map (·.tokens.val)).length = k + 1 := by
    rw [List.length_map, hp.length, hk]
  have hlowers : ∀ w, LowersInvariant amplifier.val (pool.activeReserves.map (·.tokens.val))
      (pool.balancesLeaving sellMint n.val buyMint w) ↔ ¬ KeepsInvariant amplifier.val
        (pool.activeReserves.map (·.tokens.val))
        (pool.balancesLeaving sellMint n.val buyMint w) := by
    intro w
    rw [keepsInvariant_iff hamp hlen (by rw [balancesLeaving, List.length_map, hp.length, hk]),
      not_not]
  rw [RootAboveLast, ← hs.lt_left_iff hm hp hcurve hr hmint, hs.balances_eq hp hne hr hmint]
  constructor
  · -- a balance that lowers the invariant is below the one that keeps it
    intro hkeeps
    have hlast := lastLowering_lowers r.tokens.val
      ((hlowers 0).mpr (not_keepsInvariant_zero hp hs.positive hr hmint))
    by_contra hle
    exact (hlowers _).mp hlast (keepsInvariant_mono hp hr hmint (Nat.le_of_not_lt hle) hkeeps)
  · -- the balance that is left is not above the last one if it lowers it
    intro hlt
    by_contra hkeeps
    exact absurd hlt (Nat.not_lt.mpr
      (le_lastLowering (Nat.sub_le _ _) ((hlowers _).mpr hkeeps)))

end Pool

/-! ## Two balanced pools -/

/-- A thousand tokens of either mint, with the invariant that is computed
from them. -/
def evenPool : Pool :=
  { (default : Pool) with
    dimension := 2
    reserves := [⟨1000, 1, 3⟩, ⟨1000, 2, 4⟩, default, default]
    curve := .stable 10 (ofU64 2000) }

theorem evenPool_wellFormed : evenPool.WellFormed :=
  ⟨by decide, by decide, by decide, by decide⟩

/-- The zero of the polynomial is 2000 before the swap. -/
theorem evenPool_keeps : KeepsInvariant 10 [1000, 1000] [1100, 901] := by
  intro d hd hbefore
  norm_num [stableSwapPolynomial] at hbefore ⊢
  have hle : d ≤ 2000 := by
    by_contra hlt
    have hpow : (2000 : ℚ) ^ 3 ≤ d ^ 3 := pow_le_pow_left₀ (by norm_num) (by linarith) 3
    linarith
  have hpow : d ^ 3 ≤ 2000 ^ 3 := pow_le_pow_left₀ hd hle 3
  linarith

/-- Nine hundred tokens would be too few. -/
example : evenPool.lastLowering 10 1 100 2 1000 = 900 := by decide +kernel

/-- A hundred tokens buy 99, which the condition allows. -/
theorem swap_keepsInvariant_iff_even :
    ∃ pool' received, evenPool.swap .digitwise 1 100 2 = .ok (pool', received)
      ∧ pool'.activeReserves.map (·.tokens.val) = [1100, 901]
      ∧ evenPool.RootAboveLast .digitwise 10 (ofU64 2000) 1 100 2 1000 := by
  have hswap : (evenPool.swap .digitwise 1 100 2).toOption.any (fun pr =>
      decide (pr.1.activeReserves.map (·.tokens.val) = [1100, 901])) = true := by
    decide +kernel
  cases hs : evenPool.swap .digitwise 1 100 2 with
  | error e => rw [hs] at hswap; cases hswap
  | ok pr =>
      rw [hs] at hswap
      have hbalances : pr.1.activeReserves.map (·.tokens.val) = [1100, 901] :=
        of_decide_eq_true hswap
      refine ⟨pr.1, pr.2, rfl, hbalances,
        (Pool.swap_keepsInvariant_iff PowSqrt.digitwise_lawful evenPool_wellFormed rfl
          (by decide) hs (r := ⟨1000, 2, 4⟩) (by decide) rfl).mp ?_⟩
      rw [hbalances]
      exact evenPool_keeps

/-- Half a quintillion tokens of either mint, with the invariant that is
computed from them. -/
def deepEvenPool : Pool :=
  { (default : Pool) with
    dimension := 2
    reserves := [⟨503978177354903267, 1, 3⟩, ⟨503978177354903267, 2, 4⟩, default, default]
    curve := .stable 2 (ofU64 1007956354709806534) }

theorem deepEvenPool_wellFormed : deepEvenPool.WellFormed :=
  ⟨by decide, by decide, by decide, by decide⟩

theorem deepEvenPool_updated :
    deepEvenPool.updateCurveInvariant .digitwise = .ok deepEvenPool := by
  decide +kernel

/-- The root scaled up again is whole, a fraction of a token below the
exact one, and nothing is left to round: the trader gets the fraction. -/
theorem swap_lowers_invariant :
    ¬ ∀ (m : PowSqrt) (pool : Pool), m.Lawful → pool.WellFormed →
      (∀ r ∈ pool.activeReserves, 0 < r.tokens.val) →
      ∀ amplifier invariant, 1 ≤ amplifier.val → pool.curve = .stable amplifier invariant →
      pool.updateCurveInvariant m = .ok pool →
      ∀ sellMint n buyMint pool' received, sellMint ≠ buyMint →
      pool.swap m sellMint n buyMint = .ok (pool', received) →
      KeepsInvariant amplifier.val (pool.activeReserves.map (·.tokens.val))
        (pool'.activeReserves.map (·.tokens.val)) := by
  intro h
  have hswap : (deepEvenPool.swap .digitwise 1 59247025873819032 2).toOption.any (fun pr =>
      decide (pr.1.activeReserves.map (·.tokens.val)
        = [563225203228722299, 446103714023087182])) = true := by
    decide +kernel
  cases hs : deepEvenPool.swap .digitwise 1 59247025873819032 2 with
  | error e => rw [hs] at hswap; cases hswap
  | ok pr =>
      rw [hs] at hswap
      have hbalances : pr.1.activeReserves.map (·.tokens.val)
          = [563225203228722299, 446103714023087182] :=
        of_decide_eq_true hswap
      have hkeeps := h .digitwise deepEvenPool PowSqrt.digitwise_lawful deepEvenPool_wellFormed
        (by decide) 2 _ (by decide) rfl deepEvenPool_updated _ _ _ _ _ (by decide) hs
        1007956354709806534 (by norm_num)
      rw [hbalances] at hkeeps
      have hbefore : deepEvenPool.activeReserves.map (·.tokens.val)
          = [503978177354903267, 503978177354903267] := by decide
      rw [hbefore] at hkeeps
      have hamp : (2 : U64).val = 2 := rfl
      rw [hamp] at hkeeps
      norm_num [stableSwapPolynomial] at hkeeps

end SolanaAmm.Amm
