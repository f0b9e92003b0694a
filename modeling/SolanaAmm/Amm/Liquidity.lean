import SolanaAmm.Amm.Moved
import SolanaAmm.Amm.MulDiv
import SolanaAmm.Amm.Maps
import Mathlib.Algebra.Order.Ring.Int

/-!
# Amm — Liquidity

What a successful deposit or redemption did, in whole numbers: the ratio
a deposit is made at, the tokens taken of each reserve, the LP tokens
given for them, and the tokens a redemption pays.
-/

namespace SolanaAmm.Amm

open Result Decimal

namespace Pool

variable {pool : Pool}

/-! ## The ratio of a deposit -/

/-- Some reserve is so large that ratios are inverted. -/
def isInverted (pool : Pool) : Bool :=
  pool.activeReserves.any (fun r => r.tokens > invertAbove)

/-- `min (t_i / x_i)`, in units of `10 ^ -18`. -/
def directRatio (pool : Pool) (maxTokens : BTreeMap TokenAmount) : ℕ :=
  ((pool.activeReserves.map (fun r =>
    mapAmounts maxTokens r.mint * wad / r.tokens.val)).min?).getD 0

/-- `max (x_i / t_i)`, in units of `10 ^ -18`. -/
def invertedRatio (pool : Pool) (maxTokens : BTreeMap TokenAmount) : ℕ :=
  ((pool.activeReserves.map (fun r =>
    r.tokens.val * wad / mapAmounts maxTokens r.mint)).max?).getD 0

/-- The fraction of every reserve that is deposited: numerator and
denominator. -/
def depositRatio (pool : Pool) (maxTokens : BTreeMap TokenAmount) : ℕ × ℕ :=
  if pool.isInverted then (wad, pool.invertedRatio maxTokens)
  else (pool.directRatio maxTokens, wad)

/-- The tokens deposited into a reserve of `x` tokens: the fraction of it,
truncated to 18 decimals and then rounded up to a whole token. -/
def roundedShare (ratio : ℕ × ℕ) (x : ℕ) : ℕ :=
  (x * wad * ratio.1 / ratio.2 + (wad - 1)) / wad

theorem isInverted_eq (hp : pool.WellFormed) :
    pool.reservesHashmap.values.any (fun t => t > invertAbove) = pool.isInverted := by
  rw [Bool.eq_iff_iff, values_any, isInverted, List.any_eq_true]
  constructor
  · rintro ⟨k, v, hk, hv⟩
    obtain ⟨r, hr, -, rfl⟩ := (reservesHashmap_getElem? hp).mp hk
    exact ⟨r, hr, hv⟩
  · rintro ⟨r, hr, hv⟩
    exact ⟨r.mint, r.tokens, reservesHashmap_mint hp hr, hv⟩

/-- The checks at the head of a deposit: the map has a positive limit for
exactly the mints of the pool. -/
structure Covers (pool : Pool) (maxTokens : BTreeMap TokenAmount) : Prop where
  limit : ∀ r ∈ pool.activeReserves, ∃ t, maxTokens[r.mint]? = some t ∧ t ≠ 0
  mint : ∀ k t, maxTokens[k]? = some t → ∃ r ∈ pool.activeReserves, r.mint = k

theorem covers_of_checks (hp : pool.WellFormed) {maxTokens : BTreeMap TokenAmount}
    (hpos : ¬ maxTokens.values.any (fun v => v = 0) = true)
    (hsize : maxTokens.size = pool.dimension.val)
    (hmints : ¬ pool.activeReserves.any (fun r => ! maxTokens.contains r.mint) = true) :
    pool.Covers maxTokens := by
  have hcontains : ∀ r ∈ pool.activeReserves, maxTokens.contains r.mint = true := by
    intro r hr
    cases hc : maxTokens.contains r.mint with
    | true => rfl
    | false => exact absurd (List.any_eq_true.mpr ⟨r, hr, by rw [hc]; rfl⟩) hmints
  refine ⟨fun r hr => ?_, fun k t hk => ?_⟩
  · have h := hcontains r hr
    rw [Std.TreeMap.contains_eq_isSome_getElem?] at h
    obtain ⟨t, ht⟩ := Option.isSome_iff_exists.mp h
    refine ⟨t, ht, fun h0 => hpos (values_any.mpr ⟨r.mint, t, ht, ?_⟩)⟩
    simpa using h0
  · have hk' := Maps.mem_keys_of_size hp.mints_nodup
      (by
        intro k hk
        obtain ⟨r, hr, rfl⟩ := List.mem_map.mp hk
        exact hcontains r hr)
      (by rw [List.length_map, hp.length, hsize]) k t hk
    obtain ⟨r, hr, rfl⟩ := List.mem_map.mp hk'
    exact ⟨r, hr, rfl⟩

/-- Both branches of `get_deposit_ratio` collect one quotient a reserve;
the values of the collected map are these quotients. -/
theorem ratio_values {maxTokens : BTreeMap TokenAmount} {ratio : BTreeMap Decimal}
    {f : TokenAmount → TokenAmount → Except AmmError Decimal} {g : ℕ → ℕ → ℕ}
    (hp : pool.WellFormed) (hc : pool.Covers maxTokens)
    (hf : ∀ t x z, f t x = .ok z → z.raw = g t.val x.val)
    (h : mapPairs (fun mint maxToken => do
      let tokenReserve ← okOr pool.reservesHashmap[mint]? missingMint
      f maxToken tokenReserve) maxTokens.toList = .ok ratio) (n : ℕ) :
    (∃ z ∈ ratio.values, z.raw = n) ↔
      n ∈ pool.activeReserves.map (fun r => g (mapAmounts maxTokens r.mint) r.tokens.val) := by
  have hkeys := Maps.keys_nodup maxTokens
  rw [List.mem_map]
  constructor
  · rintro ⟨z, hz, rfl⟩
    obtain ⟨k, hk⟩ := mem_values.mp hz
    obtain ⟨t, ht, hft⟩ := (mapPairs_eq_ok hkeys h k z).mp hk
    simp only [bind_eq_ok, okOr_eq_ok] at hft
    obtain ⟨x, hx, hft⟩ := hft
    obtain ⟨r, hr, rfl, rfl⟩ := (reservesHashmap_getElem? hp).mp hx
    refine ⟨r, hr, ?_⟩
    rw [mapAmounts_of_getElem? (Maps.mem_toList.mp ht), hf _ _ _ hft]
  · rintro ⟨r, hr, rfl⟩
    obtain ⟨t, ht, -⟩ := hc.limit r hr
    obtain ⟨z, hz, hk⟩ := mapPairs_total hkeys h (Maps.mem_toList.mpr ht)
    simp only [bind_eq_ok, okOr_eq_ok, reservesHashmap_mint hp hr, Option.some.injEq] at hz
    obtain ⟨x, rfl, hz⟩ := hz
    exact ⟨z, mem_values.mpr ⟨_, hk⟩, by rw [hf _ _ _ hz, mapAmounts_of_getElem? ht]⟩

theorem tryDiv_ofU64 {a b : U64} {z : Decimal}
    (h : tryDiv (ε := AmmError) (ofU64 a) (ofU64 b) = .ok z) :
    b.val ≠ 0 ∧ z.raw = a.val * wad / b.val := by
  rw [tryDiv_eq_ok] at h
  refine ⟨fun hb => h.1 (by rw [ofU64_raw, hb, Nat.zero_mul]), ?_⟩
  rw [h.2]
  exact Fixed.div_whole_raw wad_pos (ofU64_raw a) (ofU64_raw b)

/-- **The ratio**: what `get_deposit_ratio` returns is the spec's ratio. -/
theorem getDepositRatio_eq_ok {maxTokens : BTreeMap TokenAmount} {ratio : Decimal}
    {inverted : Bool} (hp : pool.WellFormed) (hc : pool.Covers maxTokens)
    (h : getDepositRatio pool.reservesHashmap maxTokens = .ok (ratio, inverted)) :
    inverted = pool.isInverted ∧
      ratio.raw = if pool.isInverted then pool.invertedRatio maxTokens
        else pool.directRatio maxTokens := by
  unfold getDepositRatio at h
  rw [isInverted_eq hp] at h
  cases hinv : pool.isInverted with
  | false =>
      rw [hinv] at h
      simp only [if_true, bind_eq_ok, okOr_eq_ok, pure_eq_ok, Prod.mk.injEq] at h
      obtain ⟨t, ht, z, hz, rfl, rfl⟩ := h
      obtain ⟨hmem, hmin⟩ := List.min?_eq_some_iff.mp hz
      have hvals := ratio_values (g := fun t x => t * wad / x) hp hc
        (fun t x z hz => (tryDiv_ofU64 hz).2) ht
      refine ⟨rfl, ?_⟩
      have hleast : (pool.activeReserves.map (fun r =>
          mapAmounts maxTokens r.mint * wad / r.tokens.val)).min? = some z.raw := by
        refine List.min?_eq_some_iff.mpr ⟨(hvals _).mp ⟨z, hmem, rfl⟩, fun b hb => ?_⟩
        obtain ⟨y, hy, rfl⟩ := (hvals b).mpr hb
        exact hmin y hy
      rw [directRatio, hleast]
      rfl
  | true =>
      rw [hinv] at h
      simp only [Bool.true_eq_false, if_false, bind_eq_ok, okOr_eq_ok, pure_eq_ok,
        Prod.mk.injEq] at h
      obtain ⟨t, ht, z, hz, rfl, rfl⟩ := h
      obtain ⟨hmem, hmax⟩ := List.max?_eq_some_iff.mp hz
      have hvals := ratio_values (g := fun t x => x * wad / t) hp hc
        (fun t x z hz => (tryDiv_ofU64 hz).2) ht
      refine ⟨rfl, ?_⟩
      have hgreatest : (pool.activeReserves.map (fun r =>
          r.tokens.val * wad / mapAmounts maxTokens r.mint)).max? = some z.raw := by
        refine List.max?_eq_some_iff.mpr ⟨(hvals _).mp ⟨z, hmem, rfl⟩, fun b hb => ?_⟩
        obtain ⟨y, hy, rfl⟩ := (hvals b).mpr hb
        exact hmax y hy
      rw [invertedRatio, hgreatest]
      rfl

/-- **The amount**: what is deposited into one reserve. -/
theorem depositAmount_eq_ok {ratio : Decimal} {inverted : Bool} {x d : TokenAmount}
    (h : depositAmount ratio inverted x = .ok d) :
    d.val = roundedShare (if inverted then (wad, ratio.raw) else (ratio.raw, wad)) x.val
      ∧ (inverted = true → ratio.raw ≠ 0) := by
  unfold depositAmount at h
  cases inverted with
  | false =>
      simp only [if_true, bind_eq_ok, tryMul_eq_ok, tryCeil_eq_ok] at h
      obtain ⟨z, hz, hd⟩ := h
      rw [ofU64_raw] at hz
      rw [hd, Fixed.ceil, hz]
      exact ⟨rfl, by intro h; cases h⟩
  | true =>
      simp only [Bool.true_eq_false, if_false, bind_eq_ok, tryDiv_eq_ok, tryCeil_eq_ok] at h
      obtain ⟨z, ⟨hne, hz⟩, hd⟩ := h
      rw [ofU64_raw] at hz
      rw [hd, Fixed.ceil, hz]
      exact ⟨rfl, fun _ => hne⟩

/-! ## LP tokens -/

/-- The LP tokens of a result, nothing if there are none. -/
def lpTokens (lp : Option TokenAmount) : ℕ := (lp.map (·.val)).getD 0

/-- The LP tokens that the first reserve counts. -/
theorem getEligibleLpTokens_iff {tokens : BTreeMap TokenAmount} {supply : TokenAmount}
    {lp : Option TokenAmount} {r : Reserve} {d : TokenAmount}
    (hr : pool.reserves.head? = some r) (hd : tokens[r.mint]? = some d) :
    pool.getEligibleLpTokens tokens supply = .ok lp ↔ r.tokens.val ≠ 0
      ∧ ∃ n : TokenAmount, n.val = supply.val * d.val / r.tokens.val
        ∧ lp = if n = 0 then none else some n := by
  simp only [getEligibleLpTokens, hr, hd, bind_eq_ok, okOr_eq_ok, pure_eq_ok,
    Option.some.injEq, tryFloor_eq_ok, exists_eq_left', tryMulDiv_ofU64_eq_ok]
  constructor
  · rintro ⟨z, ⟨hne, hz⟩, n, hn, rfl⟩
    exact ⟨hne, n, hn.trans (floor_ruleOfThree hz), rfl⟩
  · rintro ⟨hne, n, hn, rfl⟩
    obtain ⟨z, hz, hfloor⟩ := exists_tryMulDiv_ofU64 (a := supply) (b := d) hne
    exact ⟨z, tryMulDiv_ofU64_eq_ok.mp hz, n, hn.trans hfloor.symm, rfl⟩

theorem getEligibleLpTokens_eq_ok {tokens : BTreeMap TokenAmount} {supply : TokenAmount}
    {lp : Option TokenAmount} {r : Reserve} {d : TokenAmount}
    (hr : pool.reserves.head? = some r) (hd : tokens[r.mint]? = some d)
    (h : pool.getEligibleLpTokens tokens supply = .ok lp) :
    r.tokens.val ≠ 0 ∧ lpTokens lp = supply.val * d.val / r.tokens.val := by
  obtain ⟨hne, n, hn, rfl⟩ := (getEligibleLpTokens_iff hr hd).mp h
  refine ⟨hne, ?_⟩
  rw [← hn]
  by_cases h0 : n = 0
  · simp [lpTokens, h0]
  · simp [lpTokens, h0]

/-! ## Deposits -/

/-- What a successful deposit into a pool with LP supply did. -/
structure Deposited (pool : Pool) (maxTokens : BTreeMap TokenAmount) (supply : TokenAmount)
    (pool' : Pool) (result : DepositResult) : Prop where
  covers : pool.Covers maxTokens
  /-- The tokens taken of each mint. -/
  amount : ∀ r ∈ pool.activeReserves, mapAmounts result.tokensToDeposit r.mint
    = roundedShare (pool.depositRatio maxTokens) r.tokens.val
  /-- The LP tokens given, by the rule of three over the first reserve. -/
  lp : ∃ first, pool.reserves.head? = some first ∧ first ∈ pool.activeReserves
    ∧ first.tokens.val ≠ 0
    ∧ lpTokens result.lpTokensToDistribute = supply.val *
      roundedShare (pool.depositRatio maxTokens) first.tokens.val / first.tokens.val
  ratio_pos : 0 < (pool.depositRatio maxTokens).2
  moved : Moved pool pool' (mapAmounts result.tokensToDeposit) (fun _ => 0)

theorem deposited {maxTokens : BTreeMap TokenAmount} {supply : TokenAmount} {pool' : Pool}
    {result : DepositResult} (hp : pool.WellFormed) (hs : supply ≠ 0)
    (h : pool.depositTokens maxTokens supply = .ok (pool', result)) :
    Deposited pool maxTokens supply pool' result := by
  simp only [depositTokens, bind_eq_ok, ensure_eq_ok, pure_eq_ok, depositPlan, hs, if_false,
    Prod.exists, Prod.mk.injEq] at h
  obtain ⟨-, hpos, -, hsize, -, hmints, tokens, lp, ⟨ratio, inverted, hratio, t, ht, l, hl,
    rfl, rfl⟩, p, hadd, rfl, rfl⟩ := h
  have hc := covers_of_checks hp hpos hsize hmints
  obtain ⟨rfl, hraw⟩ := getDepositRatio_eq_ok hp hc hratio
  have hpair : (if pool.isInverted = true then (wad, ratio.raw) else (ratio.raw, wad))
      = pool.depositRatio maxTokens := by
    unfold depositRatio
    cases hinv : pool.isInverted <;> rw [hinv] at hraw <;> simp [hraw]
  -- every reserve gets its share
  have hshare : ∀ r ∈ pool.activeReserves, ∃ d, t[r.mint]? = some d
      ∧ d.val = roundedShare (pool.depositRatio maxTokens) r.tokens.val
      ∧ (pool.isInverted = true → ratio.raw ≠ 0) := by
    intro r hr
    obtain ⟨d, hd, hget⟩ := mapPairs_total (Maps.keys_nodup _) ht
      (Maps.mem_toList.mpr (reservesHashmap_mint hp hr))
    have hamount := depositAmount_eq_ok hd
    rw [hpair] at hamount
    exact ⟨d, hget, hamount⟩
  obtain ⟨first, hfirst, hmem⟩ := hp.head?
  obtain ⟨d, hget, hd, hne⟩ := hshare first hmem
  obtain ⟨hpos, hlp⟩ := getEligibleLpTokens_eq_ok hfirst hget hl
  refine
    { covers := hc
      amount := fun r hr => ?_
      lp := ⟨first, hfirst, hmem, hpos, by rw [← hd]; exact hlp⟩
      ratio_pos := ?_
      moved := addAll_moved hp hadd }
  · obtain ⟨d, hget, hd, -⟩ := hshare r hr
    rw [mapAmounts_of_getElem? hget, hd]
  · rw [← hpair]
    cases hinv : pool.isInverted with
    | false => exact wad_pos
    | true => exact Nat.pos_of_ne_zero (hne hinv)

/-! ## Redemptions -/

/-- What a successful redemption did. -/
structure Redeemed (pool : Pool) (burned supply : TokenAmount) (pool' : Pool)
    (tokens : BTreeMap TokenAmount) : Prop where
  supply_pos : supply ≠ 0
  burned_le : burned ≤ supply
  /-- The tokens paid of each mint: the burned fraction, truncated to 18
  decimals, of the reserve. -/
  amount : ∀ r ∈ pool.activeReserves, mapAmounts tokens r.mint
    = r.tokens.val * (burned.val * wad / supply.val) / wad
  moved : Moved pool pool' (fun _ => 0) (mapAmounts tokens)

theorem redeemed {minTokens : BTreeMap TokenAmount} {burned supply : TokenAmount}
    {pool' : Pool} {tokens : BTreeMap TokenAmount} (hp : pool.WellFormed)
    (h : pool.redeemTokens minTokens burned supply = .ok (pool', tokens)) :
    Redeemed pool burned supply pool' tokens := by
  simp only [redeemTokens, bind_eq_ok, ensure_eq_ok, pure_eq_ok, Prod.mk.injEq] at h
  obtain ⟨-, hs, -, hle, -, -, -, -, w, hw, t, ht, b, -, -, -, p, hremove, rfl, rfl⟩ := h
  have hnodup : ((pool.activeReserves.map (fun r => (r.mint, r.tokens))).map Prod.fst).Nodup := by
    rw [List.map_map]
    exact hp.mints_nodup
  refine
    { supply_pos := hs
      burned_le := hle
      amount := fun r hr => ?_
      moved := removeAll_moved hp hremove }
  have hmem : (r.mint, r.tokens) ∈ pool.activeReserves.map (fun r => (r.mint, r.tokens)) :=
    List.mem_map.mpr ⟨r, hr, rfl⟩
  obtain ⟨d, hd, hget⟩ := mapPairs_total hnodup ht hmem
  simp only [bind_eq_ok, tryMul_eq_ok, tryFloor_eq_ok] at hd
  obtain ⟨z, hz, hd⟩ := hd
  rw [mapAmounts_of_getElem? hget, hd, Fixed.floor, hz,
    Fixed.mul_whole_raw wad_pos (ofU64_raw _), (tryDiv_ofU64 hw).2]

end Pool

end SolanaAmm.Amm
