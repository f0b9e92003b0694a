import SolanaAmm.Amm.Swapping
import SolanaAmm.Lib.Machine

/-!
# Amm — Constant product

A swap on a constant-product pool leaves the bought reserve with the
quotient of the old product by the product of the other balances. The
quotient is truncated to 18 decimals before it is rounded up to a whole
token, so the product falls exactly when the division leaves a remainder
that the 18 decimals do not show.
-/

namespace SolanaAmm.Amm

open Result Decimal Pool

/-- **The condition**: dividing `k` by the other balances leaves no
remainder, or one that is at least the last of the 18 decimals. -/
def QuotientVisible (k p : ℕ) : Prop := ¬ (0 < k % p ∧ k % p * wad < p)

instance (k p : ℕ) : Decidable (QuotientVisible k p) :=
  inferInstanceAs (Decidable (¬ _))

/-- **The rounding**: the quotient truncated to 18 decimals and rounded up
is at least the exact one exactly when its remainder is visible. -/
theorem le_mul_ceil_iff {k p : ℕ} (hp : 0 < p) :
    k ≤ p * ((k * wad / p + (wad - 1)) / wad) ↔ QuotientVisible k p := by
  have hw := wad_pos
  unfold QuotientVisible
  generalize wad = w at hw ⊢
  have hk := Nat.div_add_mod k p
  have hlt := Nat.mod_lt k hp
  generalize k / p = q at hk
  generalize k % p = ρ at hk hlt ⊢
  have hquot : k * w / p = q * w + ρ * w / p := by
    rw [← hk, Nat.add_mul, Nat.mul_assoc, Nat.mul_add_div hp]
  have hsmall : ρ * w / p < w :=
    Nat.div_lt_of_lt_mul (Nat.mul_lt_mul_of_pos_right hlt hw)
  rw [hquot, Nat.add_assoc, Nat.add_comm (q * w), Nat.add_mul_div_right _ _ hw]
  rcases Nat.lt_or_ge (ρ * w) p with hinv | hvis
  · -- the remainder is invisible: the quotient is rounded to `q`
    rw [Nat.div_eq_of_lt hinv, Nat.zero_add, Nat.div_eq_of_lt (Nat.sub_lt hw Nat.one_pos),
      Nat.zero_add]
    constructor
    · rintro h ⟨hpos, -⟩
      omega
    · intro h
      have : ρ = 0 := by
        by_contra hne
        exact h ⟨Nat.pos_of_ne_zero hne, hinv⟩
      omega
  · -- the remainder is visible: the quotient is rounded up
    have hone : (ρ * w / p + (w - 1)) / w = 1 := by
      have h1 : 1 ≤ ρ * w / p := (Nat.one_le_div_iff hp).mpr hvis
      refine Nat.div_eq_of_lt_le ?_ ?_ <;> omega
    rw [hone, Nat.mul_add]
    constructor
    · rintro - ⟨-, h⟩
      omega
    · intro _
      omega

/-- **One swap**: the product does not fall if and only if the quotient's
remainder is visible. -/
theorem swap_product_iff {m : PowSqrt} {pool pool' : Pool} {sellMint buyMint : Pubkey}
    {n received : TokenAmount} (hp : pool.WellFormed) (hcurve : pool.curve = .constProd)
    (hne : sellMint ≠ buyMint) (h : Swapped m pool sellMint n buyMint pool' received) :
    pool.product ≤ pool'.product
      ↔ QuotientVisible pool.product (pool.otherProduct sellMint n.val buyMint) := by
  obtain ⟨r, hr, hm, balances, product, b, hbal, hprod, hb, hle, hrec⟩ := h.bought
  have hproduct := product_soldOrNeutral hp hbal hprod
  simp only [boughtBalanceAfterSwap, hcurve, bind_eq_ok, tryDiv_eq_ok] at hb
  obtain ⟨k, hk, hpos, hb⟩ := hb
  have hkraw := product_reservesHashmap hp hk
  rw [Fixed.div_whole_raw wad_pos hkraw hproduct] at hb
  have hother : 0 < pool.otherProduct sellMint n.val buyMint := by
    refine Nat.pos_of_ne_zero (fun h0 => hpos ?_)
    rw [hproduct, h0, Nat.zero_mul]
  rw [h.product_eq hp hne hr hm, hrec, Fixed.sub_sub_div wad_pos hle, hb, Nat.mul_comm]
  exact le_mul_ceil_iff hother

/-! ## Runs of swaps -/

/-- A swap as the endpoint makes it: the fee is added to the sold reserve
afterwards (no fee for `Pool::swap` on its own). -/
structure SwapOp where
  sellMint : Pubkey
  tokensToSwap : TokenAmount
  swapFee : TokenAmount
  buyMint : Pubkey

def swapStep (m : PowSqrt) (pool : Pool) (op : SwapOp) : Except AmmError Pool := do
  let (pool, _) ← pool.swap m op.sellMint op.tokensToSwap op.buyMint
  pool.updateReserve op.sellMint .panicked (fun r => r.addTokens op.swapFee)

/-- A swap between two mints whose quotient has a visible remainder. -/
def VisibleSwap (pool : Pool) (op : SwapOp) : Prop :=
  op.sellMint ≠ op.buyMint ∧
    QuotientVisible pool.product
      (pool.otherProduct op.sellMint op.tokensToSwap.val op.buyMint)

instance (pool : Pool) (op : SwapOp) : Decidable (VisibleSwap pool op) :=
  inferInstanceAs (Decidable (_ ∧ _))

/-- Adding tokens to reserves does not lower the product. -/
theorem Moved.product_le {pool pool' : Pool} {up : Pubkey → ℕ}
    (h : Moved pool pool' up (fun _ => 0)) : pool.product ≤ pool'.product := by
  refine Lists.prod_map_le (Lists.forall₂_mono_of_mem (fun r _ r' hr => ?_) h.reserves)
  have := hr.tokens
  omega

/-- What holds along visible swaps: the pool keeps its curve and mints,
and its product has not fallen. -/
structure ProductKept (pool pool' : Pool) : Prop where
  wellFormed : pool'.WellFormed
  curve : pool'.curve = .constProd
  mints : pool'.activeReserves.map (·.mint) = pool.activeReserves.map (·.mint)
  product : pool.product ≤ pool'.product

theorem swapStep_productKept {m : PowSqrt} {pool p p' : Pool} {op : SwapOp}
    (hp : ProductKept pool p) (hop : VisibleSwap p op) (h : swapStep m p op = .ok p') :
    ProductKept pool p' := by
  simp only [swapStep, bind_eq_ok, Prod.exists] at h
  obtain ⟨p₁, received, hswap, hfee⟩ := h
  have hs := swapped hp.wellFormed hswap
  have hwf₁ := hs.moved.wellFormed hp.wellFormed
  have hm := updateReserve_moved hwf₁.mints_nodup addTokens_moved hfee
  have hzero : single op.sellMint 0 = fun _ => 0 := funext (fun _ => single_zero)
  rw [hzero] at hm
  exact
    { wellFormed := hm.wellFormed hwf₁
      curve := by rw [hm.curve, hs.moved.curve, hp.curve]
      mints := by rw [hm.mints, hs.moved.mints, hp.mints]
      product := hp.product.trans
        (((swap_product_iff hp.wellFormed hp.curve hop.1 hs).mpr hop.2).trans
          (Moved.product_le hm)) }

theorem run_productKept {m : PowSqrt} {pool : Pool} (hp : pool.WellFormed)
    (hcurve : pool.curve = .constProd) {ops : List SwapOp}
    (hops : Machine.Guarded (swapStep m) VisibleSwap pool ops) :
    ProductKept pool (Machine.run (swapStep m) pool ops) :=
  Machine.run_invariant (I := ProductKept pool)
    (fun _ _ _ hI hG h => swapStep_productKept hI hG h)
    ⟨hp, hcurve, rfl, Nat.le_refl _⟩ hops

/-- **Constant product.** A swap does not lower the product of the
reserves exactly when the remainder of its quotient is visible; so along
visible swaps the product never falls, and when every reserve is back to
at most what it was, the traders have taken nothing. -/
theorem constProd_product {m : PowSqrt} {pool : Pool} (hp : pool.WellFormed)
    (hcurve : pool.curve = .constProd) :
    (∀ sellMint n buyMint pool' received, sellMint ≠ buyMint →
      pool.swap m sellMint n buyMint = .ok (pool', received) →
      (pool.product ≤ pool'.product
        ↔ QuotientVisible pool.product (pool.otherProduct sellMint n.val buyMint)))
    ∧ (∀ ops, Machine.Guarded (swapStep m) VisibleSwap pool ops →
      pool.product ≤ (Machine.run (swapStep m) pool ops).product)
    ∧ (∀ ops, Machine.Guarded (swapStep m) VisibleSwap pool ops →
      (∀ r ∈ pool.activeReserves, 0 < r.tokens.val) →
      List.Forall₂ (fun r r' => r'.tokens ≤ r.tokens) pool.activeReserves
        (Machine.run (swapStep m) pool ops).activeReserves →
      (Machine.run (swapStep m) pool ops).activeReserves.map (·.tokens.val)
        = pool.activeReserves.map (·.tokens.val)) := by
  refine ⟨fun _ _ _ _ _ hne h => swap_product_iff hp hcurve hne (swapped hp h),
    fun ops hops => (run_productKept hp hcurve hops).product, ?_⟩
  intro ops hops hpos hle
  refine Lists.eq_of_le_of_prod_le ?_ ?_ (run_productKept hp hcurve hops).product
  · rw [List.forall₂_map_left_iff, List.forall₂_map_right_iff]
    exact hle
  · intro n hn
    obtain ⟨r, hr, rfl⟩ := List.mem_map.mp hn
    exact hpos r hr

/-! ## One pool, two swaps -/

/-- Four quintillion tokens against four billion. -/
def deepPool : Pool :=
  { (default : Pool) with
    dimension := 2
    reserves := [⟨3999999999000000001, 1, 3⟩, ⟨4000000000, 2, 4⟩, default, default]
    curve := .constProd }

theorem deepPool_wellFormed : deepPool.WellFormed :=
  ⟨by decide, by decide, by decide, by decide⟩

/-- Two billion tokens of the first mint buy one of the second, and the
product does not fall. -/
theorem constProd_product_visible :
    ∃ pool' received, deepPool.swap .reference 1 2000000000 2 = .ok (pool', received)
      ∧ QuotientVisible deepPool.product (deepPool.otherProduct 1 2000000000 2)
      ∧ deepPool.product ≤ pool'.product := by
  have hok : (deepPool.swap .reference 1 2000000000 2).isOk = true := by decide +kernel
  have hvisible : QuotientVisible deepPool.product (deepPool.otherProduct 1 2000000000 2) := by
    decide +kernel
  cases hs : deepPool.swap .reference 1 2000000000 2 with
  | error e => rw [hs] at hok; cases hok
  | ok pr =>
      exact ⟨pr.1, pr.2, rfl, hvisible,
        ((constProd_product (m := .reference) deepPool_wellFormed rfl).1 _ _ _ _ _
          (by decide) hs).mpr hvisible⟩

/-- One billion tokens are a fraction of a token short of one of the
second mint, too small a fraction for 18 decimals, and buy it. -/
theorem swap_lowers_product :
    ¬ ∀ (m : PowSqrt) (pool : Pool), m.Lawful → pool.WellFormed → pool.curve = .constProd →
      (∀ r ∈ pool.activeReserves, 0 < r.tokens) →
      ∀ sellMint n buyMint pool' received, sellMint ≠ buyMint →
      pool.swap m sellMint n buyMint = .ok (pool', received) →
      pool.product ≤ pool'.product := by
  intro h
  have hlower : (deepPool.swap .reference 1 1000000000 2).toOption.any (fun pr =>
      ! decide (deepPool.product ≤ pr.1.product)) = true := by
    decide +kernel
  cases hs : deepPool.swap .reference 1 1000000000 2 with
  | error e => rw [hs] at hlower; cases hlower
  | ok pr =>
      rw [hs] at hlower
      have hle := h .reference deepPool PowSqrt.reference_lawful deepPool_wellFormed rfl
        (by decide) 1 1000000000 2 _ _ (by decide) hs
      have hlt : (! decide (deepPool.product ≤ pr.1.product)) = true := hlower
      rw [Bool.not_eq_true', decide_eq_false_iff_not] at hlt
      exact hlt hle

end SolanaAmm.Amm
