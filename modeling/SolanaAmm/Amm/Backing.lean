import SolanaAmm.Amm.Liquidity
import SolanaAmm.Lib.Machine
import Mathlib.Tactic.LinearCombination
import Mathlib.Tactic.Positivity

/-!
# Amm — Backing

What backs an LP token: `x / S` tokens of every reserve. A redemption
rounds in favour of the pool and never lowers it. A deposit rounds every
share up but counts LP tokens by the first reserve alone, so it lowers
the backing of another reserve exactly when rounding up the first share
gains more than rounding the LP tokens down loses.
-/

namespace SolanaAmm.Amm

open Result Decimal Pool

/-! ## Rounding of a deposit -/

/-- What rounding adds to the exact share of a reserve of `x` tokens, in
units of one over the denominator of the ratio: the share is rounded up,
unless its fraction shows no digit in 18 decimals. -/
def roundingExcess (ratio : ℕ × ℕ) (x : ℕ) : ℤ :=
  let rest := ratio.1 * x % ratio.2
  if rest * wad < ratio.2 then -(rest : ℤ) else ratio.2 - rest

/-- What the LP tokens for the rounded share of the first reserve leave when
they are rounded down, in the same units. -/
def lpRemainder (ratio : ℕ × ℕ) (supply x : ℕ) : ℤ :=
  supply * (ratio.1 * x + roundingExcess ratio x) % (ratio.2 * x)

/-- The rounded share in terms of the exact one. -/
theorem mul_roundedShare {ratio : ℕ × ℕ} {x : ℕ} (hden : 0 < ratio.2) :
    (ratio.2 : ℤ) * roundedShare ratio x = ratio.1 * x + roundingExcess ratio x := by
  have hsplit : x * wad * ratio.1 / ratio.2
      = ratio.1 * x / ratio.2 * wad + ratio.1 * x % ratio.2 * wad / ratio.2 := by
    have hexact : x * wad * ratio.1
        = ratio.1 * x % ratio.2 * wad + ratio.2 * (ratio.1 * x / ratio.2 * wad) := by
      nth_rewrite 1 [show x * wad * ratio.1 = ratio.1 * x * wad by ring,
        ← Nat.div_add_mod (ratio.1 * x) ratio.2]
      ring
    rw [hexact, Nat.add_mul_div_left _ _ hden, Nat.add_comm]
  have hdigits : ratio.1 * x % ratio.2 * wad / ratio.2 < wad := by
    rw [Nat.div_lt_iff_lt_mul hden, Nat.mul_comm wad]
    exact Nat.mul_lt_mul_of_pos_right (Nat.mod_lt _ hden) wad_pos
  have hexact : (ratio.1 : ℤ) * x
      = ratio.2 * (ratio.1 * x / ratio.2 : ℕ) + (ratio.1 * x % ratio.2 : ℕ) := by
    exact_mod_cast (Nat.div_add_mod (ratio.1 * x) ratio.2).symm
  have hround : roundedShare ratio x = ratio.1 * x / ratio.2
      + (ratio.1 * x % ratio.2 * wad / ratio.2 + (wad - 1)) / wad := by
    rw [roundedShare, hsplit, Nat.add_assoc, Nat.add_comm, Nat.add_mul_div_right _ _ wad_pos,
      Nat.add_comm]
  rw [hround, hexact, roundingExcess]
  by_cases hrest : ratio.1 * x % ratio.2 * wad < ratio.2
  · rw [if_pos hrest, Nat.div_eq_of_lt hrest, Nat.zero_add,
      Nat.div_eq_of_lt (Nat.sub_lt wad_pos one_pos)]
    push_cast
    ring
  · have hup : (ratio.1 * x % ratio.2 * wad / ratio.2 + (wad - 1)) / wad = 1 := by
      have := Nat.div_pos (not_lt.mp hrest) hden
      exact Nat.div_eq_of_lt_le (by omega) (by omega)
    rw [if_neg hrest, hup]
    push_cast
    ring

/-- The LP tokens for the rounded share of a reserve in terms of the exact
one. -/
theorem mul_lp {ratio : ℕ × ℕ} {s x : ℕ} (hden : 0 < ratio.2) :
    (ratio.2 * x : ℤ) * (s * roundedShare ratio x / x : ℕ)
      = s * (ratio.1 * x + roundingExcess ratio x) - lpRemainder ratio s x := by
  have hrest : lpRemainder ratio s x = ratio.2 * (s * roundedShare ratio x % x : ℕ) := by
    rw [lpRemainder, ← mul_roundedShare hden, mul_left_comm]
    push_cast
    rw [Int.mul_emod_mul_of_pos _ _ (by exact_mod_cast hden)]
  have hdiv : (s : ℤ) * roundedShare ratio x
      = x * (s * roundedShare ratio x / x : ℕ) + (s * roundedShare ratio x % x : ℕ) := by
    exact_mod_cast (Nat.div_add_mod (s * roundedShare ratio x) x).symm
  rw [hrest, ← mul_roundedShare hden, mul_left_comm, hdiv]
  ring

/-- LP tokens counted for the rounded share of a first reserve of `x₀`
tokens, against `d` tokens of a reserve of `x`: the exact share cancels. -/
theorem lp_le_iff {ratio : ℕ × ℕ} {s x₀ x d : ℕ} (hden : 0 < ratio.2) (hx₀ : 0 < x₀) :
    s * roundedShare ratio x₀ / x₀ * x ≤ s * d ↔
      (s : ℤ) * roundingExcess ratio x₀ * x
        ≤ s * (ratio.2 * d - ratio.1 * x) * x₀ + lpRemainder ratio s x₀ * x := by
  have hlp := mul_lp (s := s) (x := x₀) hden
  have hpos : (0 : ℤ) < ratio.2 * x₀ := by positivity
  rw [← Nat.cast_le (α := ℤ), ← mul_le_mul_iff_right₀ hpos]
  generalize s * roundedShare ratio x₀ / x₀ = lp at hlp ⊢
  have hscaled : (ratio.2 * x₀ : ℤ) * (lp * x : ℕ)
      = (s * (ratio.1 * x₀ + roundingExcess ratio x₀) - lpRemainder ratio s x₀) * x := by
    rw [← hlp]
    push_cast
    ring
  rw [hscaled, ← sub_nonneg, iff_comm, ← sub_nonneg]
  refine iff_of_eq (congrArg (0 ≤ ·) ?_)
  push_cast
  ring

/-- **The condition**: relative to the balances, what rounding adds to the
share of the first reserve is covered by what it adds to the share of any
other reserve together with what it drops from the LP tokens. -/
def RoundingCovered (pool : Pool) (maxTokens : BTreeMap TokenAmount)
    (supply : TokenAmount) : Prop :=
  let ratio := pool.depositRatio maxTokens
  let first := (pool.reserves.headD default).tokens.val
  ∀ r ∈ pool.activeReserves,
    supply.val * roundingExcess ratio first * r.tokens.val
      ≤ supply.val * roundingExcess ratio r.tokens.val * first
        + lpRemainder ratio supply.val first * r.tokens.val

instance (pool : Pool) (maxTokens : BTreeMap TokenAmount) (supply : TokenAmount) :
    Decidable (RoundingCovered pool maxTokens supply) :=
  inferInstanceAs (Decidable (∀ r ∈ pool.activeReserves, _))

/-- **Deposits**: the LP tokens given dilute no reserve if and only if the
rounding is covered. -/
theorem deposit_backed_iff {pool pool' : Pool} {maxTokens : BTreeMap TokenAmount}
    {supply : TokenAmount} {result : DepositResult}
    (h : Deposited pool maxTokens supply pool' result) :
    (∀ r ∈ pool.activeReserves, lpTokens result.lpTokensToDistribute * r.tokens.val
        ≤ supply.val * mapAmounts result.tokensToDeposit r.mint)
      ↔ RoundingCovered pool maxTokens supply := by
  obtain ⟨first, hfirst, -, hpos, hlp⟩ := h.lp
  have hhead : pool.reserves.headD default = first := by
    rw [List.headD_eq_head?_getD, hfirst]
    rfl
  unfold RoundingCovered
  rw [hhead]
  refine forall₂_congr fun r hr => ?_
  have hexcess : roundingExcess (pool.depositRatio maxTokens) r.tokens.val
      = (pool.depositRatio maxTokens).2 * roundedShare (pool.depositRatio maxTokens) r.tokens.val
        - (pool.depositRatio maxTokens).1 * r.tokens.val := by
    rw [mul_roundedShare h.ratio_pos]
    ring
  rw [hlp, h.amount r hr, hexcess]
  exact lp_le_iff h.ratio_pos (Nat.pos_of_ne_zero hpos)

/-- **Redemptions** dilute no reserve. -/
theorem redeem_backed {pool pool' : Pool} {burned supply : TokenAmount}
    {paid : BTreeMap TokenAmount} (h : Redeemed pool burned supply pool' paid) :
    ∀ r ∈ pool.activeReserves,
      mapAmounts paid r.mint * supply.val ≤ burned.val * r.tokens.val := by
  intro r hr
  rw [h.amount r hr]
  generalize hw : burned.val * wad / supply.val = w
  have hws : w * supply.val ≤ burned.val * wad := hw ▸ Nat.div_mul_le_self _ _
  have hx : r.tokens.val * w / wad * wad ≤ r.tokens.val * w := Nat.div_mul_le_self _ _
  refine Nat.le_of_mul_le_mul_right ?_ wad_pos
  calc r.tokens.val * w / wad * supply.val * wad
      = r.tokens.val * w / wad * wad * supply.val := by ring
    _ ≤ r.tokens.val * w * supply.val := Nat.mul_le_mul_right _ hx
    _ = r.tokens.val * (w * supply.val) := by ring
    _ ≤ r.tokens.val * (burned.val * wad) := Nat.mul_le_mul_left _ hws
    _ = burned.val * r.tokens.val * wad := by ring

/-! ## Runs of deposits and redemptions -/

/-- A pool and the supply of its LP mint. -/
structure LiquidityState where
  pool : Pool
  lpSupply : TokenAmount

inductive LiquidityOp
  | deposit (maxTokens : BTreeMap TokenAmount)
  | redeem (minTokens : BTreeMap TokenAmount) (lpTokensToBurn : TokenAmount)

/-- What the two liquidity endpoints do to a pool and its LP supply. -/
def liquidityStep (s : LiquidityState) : LiquidityOp → Except AmmError LiquidityState
  | .deposit maxTokens => do
      let (pool, result) ← s.pool.depositTokens maxTokens s.lpSupply
      let lpTokens ← okOr result.lpTokensToDistribute
        (.invalidArg "Provided liquidity is too small to be represented")
      let lpSupply ← okOr (s.lpSupply.checkedAdd lpTokens) .tokenProgram
      pure { pool, lpSupply }
  | .redeem minTokens lpTokensToBurn => do
      let (pool, _) ← s.pool.redeemTokens minTokens lpTokensToBurn s.lpSupply
      let lpSupply ← okOr (s.lpSupply.checkedSub lpTokensToBurn) .tokenProgram
      pure { pool, lpSupply }

/-- An operation on a pool with LP supply; a deposit has its rounding
covered. -/
def CoveredOp (s : LiquidityState) : LiquidityOp → Prop
  | .deposit maxTokens => s.lpSupply ≠ 0 ∧ RoundingCovered s.pool maxTokens s.lpSupply
  | .redeem _ _ => s.lpSupply ≠ 0

instance (s : LiquidityState) (op : LiquidityOp) : Decidable (CoveredOp s op) := by
  cases op <;> unfold CoveredOp <;> infer_instance

/-- The backing of every reserve is at least what it was: `x / S ≤ x' / S'`. -/
def BackingKept (s s' : LiquidityState) : Prop :=
  List.Forall₂ (fun r r' => r'.mint = r.mint ∧
    r.tokens.val * s'.lpSupply.val ≤ r'.tokens.val * s.lpSupply.val)
    s.pool.activeReserves s'.pool.activeReserves

theorem BackingKept.refl (s : LiquidityState) : BackingKept s s :=
  List.forall₂_same.mpr (fun _ _ => ⟨rfl, Nat.le_refl _⟩)

theorem BackingKept.trans {s s' s'' : LiquidityState} (hs' : s'.lpSupply ≠ 0)
    (h : BackingKept s s') (h' : BackingKept s' s'') : BackingKept s s'' := by
  refine Lists.forall₂_trans (fun a b c hab hbc => ⟨hbc.1.trans hab.1, ?_⟩) h h'
  have hpos : 0 < s'.lpSupply.val := Nat.pos_of_ne_zero (mt Word.val_eq_zero.mp hs')
  refine Nat.le_of_mul_le_mul_right ?_ hpos
  calc a.tokens.val * s''.lpSupply.val * s'.lpSupply.val
      = a.tokens.val * s'.lpSupply.val * s''.lpSupply.val := by ring
    _ ≤ b.tokens.val * s.lpSupply.val * s''.lpSupply.val := Nat.mul_le_mul_right _ hab.2
    _ = b.tokens.val * s''.lpSupply.val * s.lpSupply.val := by ring
    _ ≤ c.tokens.val * s'.lpSupply.val * s.lpSupply.val := Nat.mul_le_mul_right _ hbc.2
    _ = c.tokens.val * s.lpSupply.val * s'.lpSupply.val := by ring

/-- Reserves that move by amounts in proportion keep the backing. -/
theorem BackingKept.of_moved {s s' : LiquidityState} {up down : Pubkey → ℕ}
    (hm : Moved s.pool s'.pool up down)
    (h : ∀ r ∈ s.pool.activeReserves, ∀ n, n + down r.mint = r.tokens.val + up r.mint →
      r.tokens.val * s'.lpSupply.val ≤ n * s.lpSupply.val) : BackingKept s s' := by
  refine Lists.forall₂_mono_of_mem ?_ hm.reserves
  exact fun r hr r' hrr' => ⟨hrr'.mint, h r hr _ hrr'.tokens⟩

theorem liquidityStep_wellFormed {s s' : LiquidityState} {op : LiquidityOp}
    (hp : s.pool.WellFormed) (hs : s.lpSupply ≠ 0) (h : liquidityStep s op = .ok s') :
    s'.pool.WellFormed := by
  cases op with
  | deposit maxTokens =>
      simp only [liquidityStep, bind_eq_ok, Prod.exists, pure_eq_ok] at h
      obtain ⟨pool, result, hd, -, -, -, -, rfl⟩ := h
      exact (deposited hp hs hd).moved.wellFormed hp
  | redeem minTokens burned =>
      simp only [liquidityStep, bind_eq_ok, Prod.exists, pure_eq_ok] at h
      obtain ⟨pool, paid, hr, -, -, rfl⟩ := h
      exact (redeemed hp hr).moved.wellFormed hp

/-- **The step**: a covered operation keeps the backing. -/
theorem liquidityStep_backing {s s' : LiquidityState} {op : LiquidityOp}
    (hp : s.pool.WellFormed) (hc : CoveredOp s op) (h : liquidityStep s op = .ok s') :
    BackingKept s s' := by
  cases op with
  | deposit maxTokens =>
      simp only [liquidityStep, bind_eq_ok, okOr_eq_ok, Word.checkedAdd_eq_some, Prod.exists,
        pure_eq_ok] at h
      obtain ⟨pool, result, hd, lp, hlp, supply, hsupply, rfl⟩ := h
      have hdep := deposited hp hc.1 hd
      have hbacked := (deposit_backed_iff hdep).mpr hc.2
      rw [hlp] at hbacked
      refine .of_moved hdep.moved fun r hr n hn => ?_
      have hle : lp.val * r.tokens.val
          ≤ s.lpSupply.val * mapAmounts result.tokensToDeposit r.mint := hbacked r hr
      show r.tokens.val * supply.val ≤ _
      rw [show n = r.tokens.val + mapAmounts result.tokensToDeposit r.mint by simpa using hn,
        hsupply, Nat.mul_add, Nat.add_mul]
      linarith
  | redeem minTokens burned =>
      simp only [liquidityStep, bind_eq_ok, okOr_eq_ok, Word.checkedSub_eq_some, Prod.exists,
        pure_eq_ok] at h
      obtain ⟨pool, paid, hr, supply, ⟨hle, hsupply⟩, rfl⟩ := h
      have hred := redeemed hp hr
      refine .of_moved hred.moved fun r hr n hn => ?_
      have hpaid := redeem_backed hred r hr
      obtain ⟨rest, hrest⟩ := Nat.exists_eq_add_of_le hle
      show r.tokens.val * supply.val ≤ _
      have hn' : n + mapAmounts paid r.mint = r.tokens.val := by simpa using hn
      rw [hsupply, hrest, Nat.add_sub_cancel_left]
      rw [hrest] at hpaid
      rw [← hn'] at hpaid ⊢
      nlinarith

/-- **Runs**: along covered operations the backing of every reserve never
falls. -/
theorem run_backing {s : LiquidityState} (hp : s.pool.WellFormed) {ops : List LiquidityOp}
    (hops : Machine.Guarded liquidityStep CoveredOp s ops) :
    BackingKept s (Machine.run liquidityStep s ops) := by
  refine (Machine.run_invariant (I := fun t => t.pool.WellFormed ∧ BackingKept s t)
    ?_ ⟨hp, .refl s⟩ hops).2
  rintro t op t' ⟨ht, hst⟩ hc h
  have hne : t.lpSupply ≠ 0 := by
    cases op with
    | deposit maxTokens => exact hc.1
    | redeem minTokens burned => exact hc
  exact ⟨liquidityStep_wellFormed ht hne h,
    hst.trans hne (liquidityStep_backing ht hc h)⟩

/-- Burning the LP tokens of a covered deposit pays at most what was
deposited. -/
theorem roundTrip_le {pool pool₁ pool₂ : Pool} {maxTokens paid : BTreeMap TokenAmount}
    {supply supply₁ lp : TokenAmount} {result : DepositResult}
    (hd : Deposited pool maxTokens supply pool₁ result)
    (hc : RoundingCovered pool maxTokens supply)
    (hlp : result.lpTokensToDistribute = some lp)
    (hsupply : supply₁.val = supply.val + lp.val)
    (hr : Redeemed pool₁ lp supply₁ pool₂ paid) :
    ∀ r ∈ pool.activeReserves,
      mapAmounts paid r.mint ≤ mapAmounts result.tokensToDeposit r.mint := by
  intro r hmem
  have hbacked := (deposit_backed_iff hd).mpr hc r hmem
  rw [hlp] at hbacked
  obtain ⟨r₁, hmem₁, hmoved⟩ := hd.moved.reserve hmem
  have hpaid := redeem_backed hr r₁ hmem₁
  rw [hmoved.mint] at hpaid
  have htokens : r₁.tokens.val
      = r.tokens.val + mapAmounts result.tokensToDeposit r.mint := by simpa using hmoved.tokens
  have hpos : 0 < supply₁.val :=
    Nat.pos_of_ne_zero (mt Word.val_eq_zero.mp hr.supply_pos)
  refine Nat.le_of_mul_le_mul_right ?_ hpos
  have hlp' : lp.val * r.tokens.val
      ≤ supply.val * mapAmounts result.tokensToDeposit r.mint := hbacked
  calc mapAmounts paid r.mint * supply₁.val
      ≤ lp.val * r₁.tokens.val := hpaid
    _ = lp.val * r.tokens.val + lp.val * mapAmounts result.tokensToDeposit r.mint := by
        rw [htokens, Nat.mul_add]
    _ ≤ mapAmounts result.tokensToDeposit r.mint * supply₁.val := by
        rw [hsupply, Nat.mul_add, Nat.mul_comm _ supply.val, Nat.mul_comm _ lp.val]
        exact Nat.add_le_add_right hlp' _

/-- **LP backing.** In a pool with LP supply, a deposit dilutes no reserve
exactly when its rounding is covered, a redemption never does; so along
covered operations the backing never falls, and a covered deposit followed
by burning its LP tokens returns no more of any token. -/
theorem liquidity_backing {pool : Pool} {supply : TokenAmount} (hp : pool.WellFormed)
    (hs : supply ≠ 0) :
    (∀ maxTokens pool' result, pool.depositTokens maxTokens supply = .ok (pool', result) →
      ((∀ r ∈ pool.activeReserves, lpTokens result.lpTokensToDistribute * r.tokens.val
          ≤ supply.val * mapAmounts result.tokensToDeposit r.mint)
        ↔ RoundingCovered pool maxTokens supply))
    ∧ (∀ minTokens burned pool' paid,
      pool.redeemTokens minTokens burned supply = .ok (pool', paid) →
      ∀ r ∈ pool.activeReserves,
        mapAmounts paid r.mint * supply.val ≤ burned.val * r.tokens.val)
    ∧ (∀ ops, Machine.Guarded liquidityStep CoveredOp ⟨pool, supply⟩ ops →
      BackingKept ⟨pool, supply⟩ (Machine.run liquidityStep ⟨pool, supply⟩ ops))
    ∧ (∀ maxTokens pool₁ result lp supply₁ minTokens pool₂ paid,
      pool.depositTokens maxTokens supply = .ok (pool₁, result) →
      RoundingCovered pool maxTokens supply →
      result.lpTokensToDistribute = some lp →
      supply.checkedAdd lp = some supply₁ →
      pool₁.redeemTokens minTokens lp supply₁ = .ok (pool₂, paid) →
      ∀ r ∈ pool.activeReserves,
        mapAmounts paid r.mint ≤ mapAmounts result.tokensToDeposit r.mint) := by
  refine ⟨fun _ _ _ h => deposit_backed_iff (deposited hp hs h),
    fun _ _ _ _ h => redeem_backed (redeemed hp h), fun _ h => run_backing hp h, ?_⟩
  intro maxTokens pool₁ result lp supply₁ minTokens pool₂ paid hd hc hlp hsupply hr
  have hdep := deposited hp hs hd
  exact roundTrip_le hdep hc hlp (Word.checkedAdd_eq_some.mp hsupply)
    (redeemed (hdep.moved.wellFormed hp) hr)

/-! ## One pool, two deposits -/

/-- A pool of two tokens that differ in their decimals. -/
def unevenPool : Pool :=
  { (default : Pool) with
    dimension := 2
    reserves := [⟨10, 1, 3⟩, ⟨1000000000, 2, 4⟩, default, default] }

theorem unevenPool_wellFormed : unevenPool.WellFormed :=
  ⟨by decide, by decide, by decide, by decide⟩

/-- A tenth of both reserves: nothing is rounded. -/
def evenLimits : BTreeMap TokenAmount := limitsMap [⟨1, 1⟩, ⟨2, 100000000⟩]

/-- One token of each: a tenth of the first reserve, next to nothing of
the second. -/
def unitLimits : BTreeMap TokenAmount := limitsMap [⟨1, 1⟩, ⟨2, 1⟩]

/-- A tenth of both reserves is given a tenth of the LP supply. -/
theorem liquidity_backing_even :
    ∃ pool' result, unevenPool.depositTokens evenLimits 1000000 = .ok (pool', result)
      ∧ RoundingCovered unevenPool evenLimits 1000000
      ∧ ∀ r ∈ unevenPool.activeReserves, lpTokens result.lpTokensToDistribute * r.tokens.val
          ≤ (1000000 : TokenAmount).val * mapAmounts result.tokensToDeposit r.mint := by
  have hok : (unevenPool.depositTokens evenLimits 1000000).isOk = true := by decide +kernel
  have hcovered : RoundingCovered unevenPool evenLimits 1000000 := by decide +kernel
  cases hd : unevenPool.depositTokens evenLimits 1000000 with
  | error e => rw [hd] at hok; cases hok
  | ok pr =>
      exact ⟨pr.1, pr.2, rfl, hcovered,
        ((liquidity_backing unevenPool_wellFormed (by decide)).1 _ _ _ hd).mpr hcovered⟩

/-- One token of each mint is also given a tenth of the LP supply, though
it is next to nothing of the second reserve. -/
theorem deposit_dilutes :
    ¬ ∀ pool : Pool, pool.WellFormed → ∀ supply : TokenAmount, supply ≠ 0 →
      (∀ r ∈ pool.activeReserves, 0 < r.tokens) →
      ∀ maxTokens pool' result, pool.depositTokens maxTokens supply = .ok (pool', result) →
      ∀ r ∈ pool.activeReserves, lpTokens result.lpTokensToDistribute * r.tokens.val
        ≤ supply.val * mapAmounts result.tokensToDeposit r.mint := by
  intro h
  have hdilutes : ((unevenPool.depositTokens unitLimits 1000000).toOption.any (fun pr =>
      unevenPool.activeReserves.any (fun r =>
        ! decide (lpTokens pr.2.lpTokensToDistribute * r.tokens.val
          ≤ (1000000 : TokenAmount).val * mapAmounts pr.2.tokensToDeposit r.mint)))) = true := by
    decide +kernel
  cases hd : unevenPool.depositTokens unitLimits 1000000 with
  | error e => rw [hd] at hdilutes; cases hdilutes
  | ok pr =>
      rw [hd] at hdilutes
      obtain ⟨r, hr, hlt⟩ := List.any_eq_true.mp hdilutes
      have hle := h unevenPool unevenPool_wellFormed 1000000 (by decide) (by decide)
        unitLimits _ _ hd r hr
      rw [Bool.not_eq_true', decide_eq_false_iff_not] at hlt
      exact hlt hle

end SolanaAmm.Amm
