import SolanaAmm.Amm.Quadratic
import SolanaAmm.Amm.Accuracy
import SolanaAmm.Lib.Rounding

/-!
# Amm — Selling

Of two swaps of the same mints on the same pool, the one that sells more.
On a constant-product pool it buys no fewer tokens. On a stable pool the
square of the linear term is truncated before it goes under the square
root, the term itself is not: selling more can buy one token less, and
never two.
-/

namespace SolanaAmm.Amm

open Result Decimal

namespace Pool

variable {pool : Pool} {sellMint buyMint : Pubkey} {n n' : ℕ}

/-! ## The other balances -/

theorem single_le (h : n ≤ n') (mint : Pubkey) :
    single sellMint n mint ≤ single sellMint n' mint := by
  by_cases hm : mint = sellMint
  · subst hm
    rwa [single_self, single_self]
  · rw [single_ne hm, single_ne hm]

theorem otherSum_mono (h : n ≤ n') :
    pool.otherSum sellMint n buyMint ≤ pool.otherSum sellMint n' buyMint :=
  List.sum_le_sum (fun r _ => Nat.add_le_add_left (single_le h r.mint) _)

theorem otherProduct_mono (h : n ≤ n') :
    pool.otherProduct sellMint n buyMint ≤ pool.otherProduct sellMint n' buyMint :=
  Lists.prod_map_le (List.forall₂_same.mpr
    (fun r _ => Nat.add_le_add_left (single_le h r.mint) _))

theorem otherProduct_pos (hpos : ∀ r ∈ pool.activeReserves, 0 < r.tokens.val) :
    0 < pool.otherProduct sellMint n buyMint := by
  refine List.prod_pos (fun x hx => ?_)
  obtain ⟨r, hr, rfl⟩ := List.mem_map.mp hx
  exact Nat.add_pos_left (hpos r (List.mem_of_mem_filter hr)) _

/-- No balance is above their sum. -/
theorem otherProduct_le_pow (hp : pool.WellFormed) {r : Reserve} (hr : r ∈ pool.activeReserves)
    (hm : r.mint = buyMint) :
    pool.otherProduct sellMint n buyMint
      ≤ pool.otherSum sellMint n buyMint ^ (pool.dimension.val - 1) := by
  have hlen := Lists.length_filter_key hp.mints_nodup hr
  rw [hm, hp.length] at hlen
  rw [← hlen, Nat.add_sub_cancel,
    ← List.length_map (fun r : Reserve => r.tokens.val + single sellMint n r.mint)]
  exact List.prod_le_pow_card _ _ (fun x hx => List.single_le_sum (fun _ _ => Nat.zero_le _) x hx)

end Pool

/-! ## The discriminant -/

/-- **The constant term** of a curve whose invariant is at least one, with
little on the other side of the sum. -/
theorem le_four_mul_constant {w d dPow nn p k : ℕ} (hnn : 0 < nn) (hp : 0 < p) (hwd : w ≤ d)
    (hlarge : 4 * nn + 4 * (k + 1) ≤ 3 * w) (hprod : p * w ^ k ≤ d ^ k * w)
    (hpow : d ^ (k + 2) ≤ dPow * w ^ (k + 1) + (k + 1) * d ^ (k + 1)) :
    w ≤ 4 * nn * (dPow * w / (nn * p)) := by
  by_contra hlt
  rw [not_le] at hlt
  have hw : 0 < w := by omega
  have hc : dPow * w < nn * p * (dPow * w / (nn * p) + 1) :=
    Nat.lt_mul_div_succ _ (Nat.mul_pos hnn hp)
  generalize dPow * w / (nn * p) = c at *
  have hsmall : 4 * (dPow * w) < p * (w + 4 * nn) := calc
    4 * (dPow * w) < 4 * (nn * p * (c + 1)) := Nat.mul_lt_mul_of_pos_left hc (by decide)
    _ = p * (4 * nn * c + 4 * nn) := by ring
    _ ≤ p * (w + 4 * nn) := Nat.mul_le_mul_left _ (by omega)
  have hquad : d ^ k * (4 * d * d) < d ^ k * ((d + 4 * nn + 4 * (k + 1)) * d) := calc
    d ^ k * (4 * d * d) = 4 * d ^ (k + 2) := by ring
    _ ≤ 4 * (dPow * w ^ (k + 1) + (k + 1) * d ^ (k + 1)) := Nat.mul_le_mul_left _ hpow
    _ = 4 * (dPow * w) * w ^ k + 4 * (k + 1) * d ^ (k + 1) := by ring
    _ < p * (w + 4 * nn) * w ^ k + 4 * (k + 1) * d ^ (k + 1) :=
        Nat.add_lt_add_right (Nat.mul_lt_mul_of_pos_right hsmall (Nat.pow_pos hw)) _
    _ = p * w ^ k * (w + 4 * nn) + 4 * (k + 1) * d ^ (k + 1) := by ring
    _ ≤ d ^ k * w * (w + 4 * nn) + 4 * (k + 1) * d ^ (k + 1) :=
        Nat.add_le_add_right (Nat.mul_le_mul_right _ hprod) _
    _ ≤ d ^ k * d * (d + 4 * nn) + 4 * (k + 1) * d ^ (k + 1) :=
        Nat.add_le_add_right (Nat.mul_le_mul (Nat.mul_le_mul_left _ hwd) (by omega)) _
    _ = d ^ k * ((d + 4 * nn + 4 * (k + 1)) * d) := by ring
  have hlt' := Nat.lt_of_mul_lt_mul_right (Nat.lt_of_mul_lt_mul_left hquad)
  omega

/-- The product of the scaled balances is at most the power of `d` if
their sum is. -/
theorem scaled_product_le {σ π scale w d k : ℕ} (hscale : 0 < scale) (hπ : π ≤ σ ^ k)
    (hσ : σ * w / scale < d) : π * w / scale ^ k * w ^ k ≤ d ^ k * w := by
  have hsum : σ * w ≤ d * scale := ((Nat.div_lt_iff_lt_mul hscale).mp hσ).le
  refine Nat.le_of_mul_le_mul_right ?_ (Nat.pow_pos (n := k) hscale)
  calc π * w / scale ^ k * w ^ k * scale ^ k = π * w / scale ^ k * scale ^ k * w ^ k := by ring
    _ ≤ π * w * w ^ k := Nat.mul_le_mul_right _ (Nat.div_mul_le_self _ _)
    _ ≤ σ ^ k * w * w ^ k := Nat.mul_le_mul_right _ (Nat.mul_le_mul_right _ hπ)
    _ = (σ * w) ^ k * w := by rw [Nat.mul_pow]; ring
    _ ≤ (d * scale) ^ k * w := Nat.mul_le_mul_right _ (Nat.pow_le_pow_left hsum _)
    _ = d ^ k * w * scale ^ k := by rw [Nat.mul_pow]; ring

namespace Solved

variable {m : PowSqrt} {n amp : ℕ} {d : Decimal} {sum sum' product product' balance balance' : ℕ}
  {out out' : ScaleDownOutput} {dPow dPow' : Decimal}

/-- The linear term of a sum that reaches the invariant is at least the
invariant. -/
theorem invariant_le_linear (h : Solved m n amp d sum product balance out dPow)
    (hsum : out.scaleDown.raw ≤ sum * wad / 1000 ^ out.exponent) :
    (out.scaleDown.raw : ℤ) ≤ (swapQuadratic n amp out dPow sum product).l := by
  have ha := h.a_pos
  show (out.scaleDown.raw : ℤ) ≤ ((amp * n ^ n : ℕ) : ℤ) * (sum * wad / 1000 ^ out.exponent : ℕ)
    - out.scaleDown.raw * (amp * n ^ n - 1 : ℕ)
  generalize amp * n ^ n = a at *
  generalize sum * wad / 1000 ^ out.exponent = s at *
  obtain ⟨b, rfl⟩ := Nat.exists_eq_add_of_le' ha
  rw [Nat.add_sub_cancel]
  have hs : (out.scaleDown.raw : ℤ) ≤ s := by exact_mod_cast hsum
  have hmul : (out.scaleDown.raw : ℤ) * b ≤ s * b := mul_le_mul_of_nonneg_right hs (by positivity)
  push_cast
  nlinarith

/-- **The discriminant** of a curve whose invariant is at least one is at
least one. -/
theorem discriminant_ge (hm : m.Lawful) (h : Solved m n amp d sum product balance out dPow)
    (hn : 0 < n) (hn4 : n ≤ MAX_RESERVES) (hd : wad ≤ out.scaleDown.raw)
    (hproduct : product ≤ sum ^ (n - 1)) :
    (wad : ℤ) ^ 2 ≤ (swapQuadratic n amp out dPow sum product).l ^ 2
      + (4 * (swapQuadratic n amp out dPow sum product).a
          * (swapQuadratic n amp out dPow sum product).c : ℕ) * wad := by
  have hd' : (wad : ℤ) ≤ out.scaleDown.raw := by exact_mod_cast hd
  rcases Nat.lt_or_ge (sum * wad / 1000 ^ out.exponent) out.scaleDown.raw with hlt | hge
  · -- the sum is small, so the product is, and the constant term is not
    obtain ⟨k, rfl⟩ := Nat.exists_eq_add_of_le' hn
    have hprod := scaled_product_le (Nat.pow_pos (by decide)) hproduct hlt
    have hmin := h.product_ge
    have hpow := (hm.pow_chain (by omega) h.power).pow_le wad_pos
    rw [Nat.add_sub_cancel] at hprod hmin hpow
    rw [max_eq_left hd] at hpow
    have hnn : (k + 1) ^ (k + 1) ≤ 4 ^ 4 :=
      (Nat.pow_le_pow_left hn4 _).trans (Nat.pow_le_pow_right (by decide) hn4)
    have hlarge : 4 * (k + 1) ^ (k + 1) + 4 * (k + 1) ≤ 3 * wad := by
      have hw : 10 ^ 6 ≤ wad := by decide
      have hk : k + 1 ≤ 4 := hn4
      omega
    have hc := le_four_mul_constant (Nat.pow_pos hn) (by omega) hd hlarge hprod hpow
    have ha := h.a_pos
    have hac : wad ≤ 4 * (swapQuadratic (k + 1) amp out dPow sum product).a
        * (swapQuadratic (k + 1) amp out dPow sum product).c := by
      refine hc.trans (Nat.mul_le_mul (Nat.mul_le_mul_left 4 ?_) ?_)
      · exact Nat.le_mul_of_pos_left _ (Nat.pos_of_mul_pos_right ha)
      · show _ ≤ _ / ((k + 1) ^ (k + 1) * (product * wad / (1000 ^ out.exponent) ^ (k + 1 - 1)))
        rw [Nat.add_sub_cancel]
    have hac' : (wad : ℤ) ≤ (4 * (swapQuadratic (k + 1) amp out dPow sum product).a
        * (swapQuadratic (k + 1) amp out dPow sum product).c : ℕ) := by exact_mod_cast hac
    generalize (4 * (swapQuadratic (k + 1) amp out dPow sum product).a
        * (swapQuadratic (k + 1) amp out dPow sum product).c : ℕ) = t at *
    have hl := sq_nonneg (swapQuadratic (k + 1) amp out dPow sum product).l
    nlinarith
  · -- the sum is large, so the linear term is
    have hl := h.invariant_le_linear hge
    have hsq : (wad : ℤ) ^ 2 ≤ (swapQuadratic n amp out dPow sum product).l ^ 2 :=
      pow_le_pow_left₀ (by positivity) (hd'.trans hl) 2
    exact hsq.trans (le_add_of_nonneg_right
      (mul_nonneg (Int.natCast_nonneg _) (Int.natCast_nonneg _)))

/-! ## The balances the curve leaves -/

/-- With more on the other side the linear term grows, -/
theorem swapQuadratic_l_le (h : sum ≤ sum') :
    (swapQuadratic n amp out dPow sum product).l
      ≤ (swapQuadratic n amp out dPow sum' product').l := by
  have hs : sum * wad / 1000 ^ out.exponent ≤ sum' * wad / 1000 ^ out.exponent :=
    Nat.div_le_div_right (Nat.mul_le_mul_right _ h)
  exact sub_le_sub_right
    (mul_le_mul_of_nonneg_left (by exact_mod_cast hs) (Int.natCast_nonneg _)) _

/-- and the constant term falls. -/
theorem constant_le (h : Solved m n amp d sum product balance out dPow) (hn : 0 < n)
    (hle : product ≤ product') :
    (swapQuadratic n amp out dPow sum' product').c
      ≤ (swapQuadratic n amp out dPow sum product).c := by
  have hmin := h.product_ge
  exact Nat.div_le_div_left
    (Nat.mul_le_mul_left _ (Nat.div_le_div_right (Nat.mul_le_mul_right _ hle)))
    (Nat.mul_pos (Nat.pow_pos hn) (by omega))

theorem balance_le_of_sqrt (h : Solved m n amp d sum product balance out dPow)
    (h' : Solved m n amp d sum' product' balance' out dPow) {κ : ℕ}
    (hκ : ((swapQuadratic n amp out dPow sum' product').sqrt : ℤ)
        - (swapQuadratic n amp out dPow sum' product').l
      ≤ (swapQuadratic n amp out dPow sum product).sqrt
        - (swapQuadratic n amp out dPow sum product).l + κ) :
    balance' ≤ balance + κ * 1000 ^ out.exponent := by
  have hle := h.l_le
  rw [h.balance_eq, h'.balance_eq]
  show _ / _ * 1000 ^ out.exponent ≤ _ / _ * 1000 ^ out.exponent + κ * 1000 ^ out.exponent
  rw [← Nat.add_mul]
  refine Nat.mul_le_mul_right _ (le_trans (Nat.div_le_div_right ?_)
    (Rounding.add_div_le (Nat.mul_pos (by decide) h.a_pos)))
  omega

/-- **The balance** that is left grows by at most one token. -/
theorem balance_le (hm : m.Lawful) (h : Solved m n amp d sum product balance out dPow)
    (h' : Solved m n amp d sum' product' balance' out' dPow') (hn : 0 < n)
    (hn4 : n ≤ MAX_RESERVES) (hsum : sum ≤ sum') (hproduct : product ≤ product')
    (hpow : product ≤ sum ^ (n - 1)) : balance' ≤ balance + wad := by
  obtain rfl : out = out' := Except.ok.inj (h.scaled.symm.trans h'.scaled)
  obtain rfl : dPow = dPow' := Option.some.inj (h.power.symm.trans h'.power)
  have hl : (swapQuadratic n amp out dPow sum product).l
      ≤ (swapQuadratic n amp out dPow sum' product').l := swapQuadratic_l_le hsum
  have hconstant : (swapQuadratic n amp out dPow sum' product').c
      ≤ (swapQuadratic n amp out dPow sum product).c := h.constant_le hn hproduct
  have hc := Nat.mul_le_mul_left (4 * (amp * n ^ n)) hconstant
  obtain ⟨e, he, -, hwad⟩ := scaleDownLoop_spec h.scaled
  rcases Nat.lt_or_ge d.raw wad with hlt | hge
  · -- nothing is scaled, the square root of a unit stays far below a token
    have hsmall : scaleDownValue d = .ok ⟨d, 0⟩ :=
      scaleDownValue_small (hlt.le.trans (by decide))
    obtain rfl : out = ⟨d, 0⟩ := Except.ok.inj (h.scaled.symm.trans hsmall)
    have hκ := Rounding.truncatedSqrt_sub_le_of_sq (κ := 10 ^ 9) (by decide) hl hc
    rw [show (10 ^ 9) ^ 2 = wad by decide] at hκ
    refine (h.balance_le_of_sqrt h' hκ).trans (Nat.add_le_add_left ?_ _)
    rw [Nat.pow_zero, Nat.mul_one]
    decide
  · have hlarge := h.discriminant_ge hm hn hn4 (hwad hge) hpow
    have hκ := Rounding.truncatedSqrt_sub_le_of_large (by decide) hl hc hlarge
    refine (h.balance_le_of_sqrt (κ := 1) h' hκ).trans (Nat.add_le_add_left ?_ _)
    rw [Nat.one_mul]
    exact (Nat.pow_le_pow_right (by decide) h.exponent_le).trans (by decide)

end Solved

/-! ## Two swaps -/

namespace Pool

variable {m : PowSqrt} {pool : Pool} {sellMint buyMint : Pubkey} {n n' : TokenAmount}
  {balances balances' : List Decimal} {product product' b b' : Decimal}

/-- On a constant-product pool selling more leaves no more behind. -/
theorem boughtBalance_le_of_constProd (hp : pool.WellFormed)
    (hpos : ∀ r ∈ pool.activeReserves, 0 < r.tokens.val) (hcurve : pool.curve = .constProd)
    (hn : n.val ≤ n'.val)
    (hbal : soldOrNeutralBalances pool.reservesHashmap sellMint n buyMint = .ok balances)
    (hprod : foldProduct balances = .ok product)
    (hb : boughtBalanceAfterSwap m pool.curve pool.reservesHashmap balances product = .ok b)
    (hbal' : soldOrNeutralBalances pool.reservesHashmap sellMint n' buyMint = .ok balances')
    (hprod' : foldProduct balances' = .ok product')
    (hb' : boughtBalanceAfterSwap m pool.curve pool.reservesHashmap balances' product' = .ok b') :
    b'.raw ≤ b.raw := by
  rw [hcurve] at hb hb'
  simp only [boughtBalanceAfterSwap, bind_eq_ok, tryDiv_eq_ok] at hb hb'
  obtain ⟨k, hk, -, hraw⟩ := hb
  obtain ⟨k', hk', -, hraw'⟩ := hb'
  obtain rfl : k = k' := Except.ok.inj (hk.symm.trans hk')
  rw [hraw, hraw', product_soldOrNeutral hp hbal hprod, product_soldOrNeutral hp hbal' hprod']
  exact Nat.div_le_div_left (Nat.mul_le_mul_right _ (otherProduct_mono hn))
    (Nat.mul_pos (otherProduct_pos hpos) wad_pos)

/-- On a stable pool it leaves at most one token more. -/
theorem boughtBalance_le_of_stable (hm : m.Lawful) (hp : pool.WellFormed) {r : Reserve}
    (hr : r ∈ pool.activeReserves) (hrm : r.mint = buyMint) {amp : U64} {invariant : Decimal}
    (hcurve : pool.curve = .stable amp invariant) (hn : n.val ≤ n'.val)
    (hbal : soldOrNeutralBalances pool.reservesHashmap sellMint n buyMint = .ok balances)
    (hprod : foldProduct balances = .ok product)
    (hb : boughtBalanceAfterSwap m pool.curve pool.reservesHashmap balances product = .ok b)
    (hbal' : soldOrNeutralBalances pool.reservesHashmap sellMint n' buyMint = .ok balances')
    (hprod' : foldProduct balances' = .ok product')
    (hb' : boughtBalanceAfterSwap m pool.curve pool.reservesHashmap balances' product' = .ok b') :
    b'.raw ≤ b.raw + wad := by
  rw [hcurve] at hb hb'
  simp only [boughtBalanceAfterSwap, bind_eq_ok] at hb hb'
  obtain ⟨sum, hsum, hb⟩ := hb
  obtain ⟨sum', hsum', hb'⟩ := hb'
  obtain ⟨out, dPow, hsolved⟩ := getBuyReserveBalanceAfterSwap_solved hm
    (sum_soldOrNeutral hp hbal hsum) (product_soldOrNeutral hp hbal hprod) hb
  obtain ⟨out', dPow', hsolved'⟩ := getBuyReserveBalanceAfterSwap_solved hm
    (sum_soldOrNeutral hp hbal' hsum') (product_soldOrNeutral hp hbal' hprod') hb'
  rw [reservesHashmap_size hp] at hsolved hsolved'
  exact hsolved.balance_le hm hsolved' (Nat.lt_of_lt_of_le (by decide) hp.two_le) hp.le_max
    (otherSum_mono hn)
    (otherProduct_mono hn) (otherProduct_le_pow hp hr hrm)

/-- **Selling more** buys no fewer tokens on a constant-product pool, at
most one token fewer on a stable pool, and never more than the reserve. -/
theorem calculateSwap_received_le (hm : m.Lawful) (hp : pool.WellFormed) (hn : n.val ≤ n'.val)
    {received received' : TokenAmount}
    (h : pool.calculateSwap m sellMint n buyMint = .ok received)
    (h' : pool.calculateSwap m sellMint n' buyMint = .ok received') :
    (pool.curve = .constProd → received.val ≤ received'.val)
    ∧ received.val ≤ received'.val + 1
    ∧ ∃ r ∈ pool.activeReserves, r.mint = buyMint
      ∧ received.val ≤ r.tokens.val ∧ received'.val ≤ r.tokens.val := by
  obtain ⟨hpos, -, r, hr, hrm, balances, product, b, hbal, hprod, hb, -, hrec⟩ :=
    calculateSwap_ok hp h
  obtain ⟨-, -, r', hr', hrm', balances', product', b', hbal', hprod', hb', -, hrec'⟩ :=
    calculateSwap_ok hp h'
  obtain rfl : r = r' := List.inj_on_of_nodup_map hp.mints_nodup hr hr' (hrm.trans hrm'.symm)
  have hconst : pool.curve = .constProd → received.val ≤ received'.val := by
    intro hcurve
    have hle := boughtBalance_le_of_constProd hp hpos hcurve hn hbal hprod hb hbal' hprod' hb'
    rw [hrec, hrec']
    exact Nat.div_le_div_right (Nat.sub_le_sub_left hle _)
  have hreserve : ∀ β, (r.tokens.val * wad - β) / wad ≤ r.tokens.val := by
    intro β
    refine (Nat.div_le_div_right (Nat.sub_le _ _)).trans ?_
    rw [Nat.mul_div_cancel _ wad_pos]
  refine ⟨hconst, ?_, r, hr, hrm, hrec ▸ hreserve _, hrec' ▸ hreserve _⟩
  cases hcurve : pool.curve with
  | constProd => exact (hconst hcurve).trans (Nat.le_succ _)
  | stable amp invariant =>
      have hle := boughtBalance_le_of_stable hm hp hr hrm hcurve hn hbal hprod hb hbal' hprod' hb'
      rw [hrec, hrec']
      exact Rounding.sub_div_le wad_pos ((Nat.one_mul wad).symm ▸ hle)

end Pool

/-! ## One token apart -/

/-- Nine quintillion tokens against three quadrillion, with the invariant
that is computed from them. -/
def lopsidedPool : Pool :=
  { (default : Pool) with
    dimension := 2
    reserves := [⟨9000000000000000000, 1, 3⟩, ⟨3000000000000000, 2, 4⟩, default, default]
    curve := .stable 1 ⟨1604867182621548093000000000000000000, by decide⟩ }

theorem lopsidedPool_wellFormed : lopsidedPool.WellFormed :=
  ⟨by decide, by decide, by decide, by decide⟩

theorem lopsidedPool_updated :
    lopsidedPool.updateCurveInvariant .digitwise = .ok lopsidedPool := by
  decide +kernel

theorem lopsidedPool_sells :
    lopsidedPool.calculateSwap .digitwise 1 5157848052730988289 2 = .ok 1591547115401952 := by
  decide +kernel

theorem lopsidedPool_sells_more :
    lopsidedPool.calculateSwap .digitwise 1 5157848052730988290 2 = .ok 1591547115401951 := by
  decide +kernel

/-- The tokens for one more are one fewer. -/
theorem calculateSwap_received_le_lopsided :
    (1591547115401952 : TokenAmount).val ≤ (1591547115401951 : TokenAmount).val + 1
    ∧ ∃ r ∈ lopsidedPool.activeReserves, r.mint = 2
      ∧ (1591547115401952 : TokenAmount).val ≤ r.tokens.val
      ∧ (1591547115401951 : TokenAmount).val ≤ r.tokens.val :=
  (Pool.calculateSwap_received_le PowSqrt.digitwise_lawful lopsidedPool_wellFormed (by decide)
    lopsidedPool_sells lopsidedPool_sells_more).2

/-- **Selling more buys less**, on a stable pool with a fresh invariant. -/
theorem calculateSwap_not_monotone :
    ¬ ∀ (m : PowSqrt) (pool : Pool), m.Lawful → pool.WellFormed →
      pool.updateCurveInvariant m = .ok pool →
      ∀ (sellMint buyMint : Pubkey) (n n' received received' : TokenAmount),
      sellMint ≠ buyMint → n ≤ n' →
      pool.calculateSwap m sellMint n buyMint = .ok received →
      pool.calculateSwap m sellMint n' buyMint = .ok received' →
      received ≤ received' := by
  intro h
  have hle := h .digitwise lopsidedPool PowSqrt.digitwise_lawful lopsidedPool_wellFormed
    lopsidedPool_updated 1 2 _ _ _ _ (by decide) (by decide) lopsidedPool_sells
    lopsidedPool_sells_more
  exact absurd hle (by decide)

end SolanaAmm.Amm
