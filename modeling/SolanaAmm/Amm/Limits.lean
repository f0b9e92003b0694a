import SolanaAmm.Amm.Liquidity

/-!
# Amm — Limits of a deposit

Whether a deposit takes more of a mint than its limit. The direct ratio is
truncated before it is multiplied, which keeps every amount within its
limit. The inverted ratio is truncated before it is divided by, which
pushes the amounts up: a limit that sets the ratio is exceeded by one
token as soon as what the truncation dropped is worth one unit of the
quotient.
-/

namespace SolanaAmm.Amm

open Result Decimal

namespace Pool

variable {pool : Pool} {maxTokens : BTreeMap TokenAmount}

/-! ## The ratios as bounds -/

/-- The direct ratio is no more than any quotient. -/
theorem directRatio_le {r : Reserve} (hr : r ∈ pool.activeReserves) :
    pool.directRatio maxTokens ≤ mapAmounts maxTokens r.mint * wad / r.tokens.val := by
  have hmem : mapAmounts maxTokens r.mint * wad / r.tokens.val ∈ pool.activeReserves.map
      (fun r => mapAmounts maxTokens r.mint * wad / r.tokens.val) :=
    List.mem_map.mpr ⟨r, hr, rfl⟩
  unfold directRatio
  cases hmin : (pool.activeReserves.map (fun r =>
      mapAmounts maxTokens r.mint * wad / r.tokens.val)).min? with
  | none => exact Nat.zero_le _
  | some n => exact (List.min?_eq_some_iff.mp hmin).2 _ hmem

/-- The inverted ratio is no less than any quotient. -/
theorem le_invertedRatio {r : Reserve} (hr : r ∈ pool.activeReserves) :
    r.tokens.val * wad / mapAmounts maxTokens r.mint ≤ pool.invertedRatio maxTokens := by
  have hmem : r.tokens.val * wad / mapAmounts maxTokens r.mint ∈ pool.activeReserves.map
      (fun r => r.tokens.val * wad / mapAmounts maxTokens r.mint) :=
    List.mem_map.mpr ⟨r, hr, rfl⟩
  unfold invertedRatio
  cases hmax : (pool.activeReserves.map (fun r =>
      r.tokens.val * wad / mapAmounts maxTokens r.mint)).max? with
  | none =>
      rw [List.max?_eq_none_iff] at hmax
      rw [hmax] at hmem
      cases hmem
  | some n => exact (List.max?_eq_some_iff.mp hmax).2 _ hmem

end Pool

/-! ## Rounding up a share -/

/-- A share rounded up is within a limit if and only if it is before it is
rounded up. -/
theorem roundedShare_le_iff {ratio : ℕ × ℕ} {x t : ℕ} :
    Pool.roundedShare ratio x ≤ t ↔ x * wad * ratio.1 / ratio.2 ≤ t * wad := by
  unfold Pool.roundedShare
  rw [Nat.div_le_iff_le_mul_add_pred wad_pos, Nat.mul_comm wad t]
  omega

/-- A ratio that is not above `t / x` takes at most `t` of `x` tokens. -/
theorem roundedShare_direct_le {ratio x t : ℕ} (h : ratio ≤ t * wad / x) :
    Pool.roundedShare (ratio, wad) x ≤ t := by
  rw [roundedShare_le_iff, Nat.mul_right_comm, Nat.mul_div_cancel _ wad_pos]
  calc x * ratio ≤ x * (t * wad / x) := Nat.mul_le_mul_left _ h
    _ ≤ t * wad := Nat.mul_div_le _ _

/-- **The inverted ratio.** Divided by a ratio that is not below the
truncated `x / t`, a balance of `x` tokens gives more than `t` only if
the ratio is this truncated quotient, and then exactly if the remainder of
the truncation is no less than a `wad`-th of it. -/
theorem roundedShare_inverted_le_iff {ratio x t : ℕ} (ht : 0 < t) (hratio : 0 < ratio)
    (h : x * wad / t ≤ ratio) :
    Pool.roundedShare (wad, ratio) x ≤ t ↔
      (x * wad / t = ratio → wad * (x * wad % t) < ratio) := by
  rw [roundedShare_le_iff, ← Nat.lt_succ_iff, Nat.div_lt_iff_lt_mul hratio]
  have hsplit : x * wad = t * (x * wad / t) + x * wad % t := (Nat.div_add_mod _ _).symm
  have hrem : x * wad % t < t := Nat.mod_lt _ ht
  generalize hq : x * wad / t = q at *
  generalize hr : x * wad % t = r at *
  rw [hsplit]
  have hleft : (t * q + r) * wad = t * wad * q + wad * r := by ring
  have hright : (t * wad).succ * ratio = t * wad * ratio + ratio := Nat.succ_mul _ _
  rw [hleft, hright]
  rcases Nat.eq_or_lt_of_le h with rfl | hlt
  · constructor
    · intro hle _
      omega
    · intro hle
      have := hle rfl
      omega
  · refine iff_of_true ?_ (fun heq => absurd heq hlt.ne)
    -- a larger ratio leaves room for a whole unit of the divisor
    have hstep : t * wad * q + t * wad ≤ t * wad * ratio := by
      rw [← Nat.mul_succ]
      exact Nat.mul_le_mul_left _ hlt
    have hdrop : wad * r < t * wad := by
      rw [Nat.mul_comm t]
      exact Nat.mul_lt_mul_of_pos_left hrem wad_pos
    omega

/-! ## The limits -/

namespace Pool

variable {pool : Pool} {maxTokens : BTreeMap TokenAmount}

/-- **The condition**: the ratio is direct, or else for every mint that
sets it, what truncating it dropped stays below a `wad`-th of it. -/
def LimitsKept (pool : Pool) (maxTokens : BTreeMap TokenAmount) : Prop :=
  pool.isInverted = true → ∀ r ∈ pool.activeReserves,
    r.tokens.val * wad / mapAmounts maxTokens r.mint = pool.invertedRatio maxTokens →
      wad * (r.tokens.val * wad % mapAmounts maxTokens r.mint) < pool.invertedRatio maxTokens

instance (pool : Pool) (maxTokens : BTreeMap TokenAmount) :
    Decidable (pool.LimitsKept maxTokens) :=
  inferInstanceAs (Decidable (_ → ∀ r ∈ pool.activeReserves, _))

/-- **Limits.** A deposit takes no more of any mint than its limit if and
only if the limits are kept; with the direct ratio they always are. -/
theorem deposit_limits {supply : TokenAmount} {pool' : Pool} {result : DepositResult}
    (hp : pool.WellFormed) (hs : supply ≠ 0)
    (h : pool.depositTokens maxTokens supply = .ok (pool', result)) :
    (∀ r ∈ pool.activeReserves,
        mapAmounts result.tokensToDeposit r.mint ≤ mapAmounts maxTokens r.mint)
      ↔ pool.LimitsKept maxTokens := by
  have hd := deposited hp hs h
  have hpos := hd.ratio_pos
  have hamount := hd.amount
  unfold depositRatio at hpos hamount
  cases hinv : pool.isInverted with
  | false =>
      rw [hinv] at hamount
      refine iff_of_true (fun r hr => ?_) (fun htrue => ?_)
      · rw [hamount r hr]
        exact roundedShare_direct_le (directRatio_le hr)
      · rw [hinv] at htrue
        cases htrue
  | true =>
      rw [hinv, if_pos rfl] at hpos
      rw [hinv] at hamount
      unfold LimitsKept
      rw [hinv]
      simp only [true_imp_iff]
      refine forall₂_congr (fun r hr => ?_)
      obtain ⟨t, ht, hne⟩ := hd.covers.limit r hr
      have htpos : 0 < mapAmounts maxTokens r.mint := by
        rw [mapAmounts_of_getElem? ht]
        exact Nat.pos_of_ne_zero (fun h0 => hne (Word.val_eq_zero.mp h0))
      rw [hamount r hr]
      exact roundedShare_inverted_le_iff htpos hpos (le_invertedRatio hr)

/-! ## One pool, two deposits -/

/-- A pool of two balanced reserves past the bound for direct ratios. -/
def largePool : Pool :=
  { (default : Pool) with
    dimension := 2
    reserves := [⟨20000000000, 1, 3⟩, ⟨20000000000, 2, 4⟩, default, default] }

theorem largePool_wellFormed : largePool.WellFormed :=
  ⟨by decide, by decide, by decide, by decide⟩

/-- A limit that divides the balance is met exactly. -/
theorem deposit_limits_divisor :
    ∃ pool' result, largePool.depositTokens (limitsMap [⟨1, 200000⟩, ⟨2, 300000⟩]) 20000000000
        = .ok (pool', result)
      ∧ ∀ r ∈ largePool.activeReserves, mapAmounts result.tokensToDeposit r.mint
        ≤ mapAmounts (limitsMap [⟨1, 200000⟩, ⟨2, 300000⟩]) r.mint := by
  have hok : (largePool.depositTokens (limitsMap [⟨1, 200000⟩, ⟨2, 300000⟩])
      20000000000).isOk = true := by
    decide +kernel
  cases hd : largePool.depositTokens (limitsMap [⟨1, 200000⟩, ⟨2, 300000⟩]) 20000000000 with
  | error e => rw [hd] at hok; cases hok
  | ok pr =>
      exact ⟨pr.1, pr.2, rfl,
        (deposit_limits largePool_wellFormed (by decide) hd).mpr (by decide +kernel)⟩

/-- With limits of 141552 and 200000 tokens the deposit takes 141553 of
both. -/
theorem deposit_exceeds_limit :
    ¬ ∀ pool : Pool, pool.WellFormed → ∀ supply : TokenAmount, supply ≠ 0 →
      (∀ r ∈ pool.activeReserves, 0 < r.tokens) →
      ∀ maxTokens pool' result, pool.depositTokens maxTokens supply = .ok (pool', result) →
      ∀ r ∈ pool.activeReserves,
        mapAmounts result.tokensToDeposit r.mint ≤ mapAmounts maxTokens r.mint := by
  intro h
  have hexceeds : ((largePool.depositTokens (limitsMap [⟨1, 141552⟩, ⟨2, 200000⟩])
      20000000000).toOption.any
      (fun pr => largePool.activeReserves.any (fun r =>
        ! decide (mapAmounts pr.2.tokensToDeposit r.mint
          ≤ mapAmounts (limitsMap [⟨1, 141552⟩, ⟨2, 200000⟩]) r.mint)))) = true := by
    decide +kernel
  cases hd : largePool.depositTokens (limitsMap [⟨1, 141552⟩, ⟨2, 200000⟩]) 20000000000 with
  | error e => rw [hd] at hexceeds; cases hexceeds
  | ok pr =>
      rw [hd] at hexceeds
      obtain ⟨r, hr, hlt⟩ := List.any_eq_true.mp hexceeds
      have hle := h largePool largePool_wellFormed 20000000000 (by decide) (by decide) _ _ _ hd r hr
      rw [Bool.not_eq_true', decide_eq_false_iff_not] at hlt
      exact hlt hle

end Pool

end SolanaAmm.Amm
