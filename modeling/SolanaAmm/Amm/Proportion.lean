import SolanaAmm.Amm.Limits
import SolanaAmm.Lib.Rounding

/-!
# Amm — Proportion

Deposits and redemptions against the exact proportional share of every
reserve. Both go through a ratio truncated to 18 decimals. A redemption
multiplies by it, so what the truncation dropped can cost a token where
the exact share is (almost) whole. A deposit multiplies by the direct
ratio, which is precise enough for the reserves it is used for, or divides
by the inverted one, which is precise only while it is not too small for
what it is divided into.
-/

namespace SolanaAmm.Amm

open Result Decimal

namespace Pool

variable {pool pool' : Pool} {minTokens maxTokens tokens : BTreeMap TokenAmount}
  {burned supply : TokenAmount} {result : DepositResult}

/-! ## Redemptions -/

/-- The loop over the redeemed tokens found none below its minimum. -/
theorem min_le_of_notBelow {l : List (Pubkey × TokenAmount)}
    (h : l.foldlM (fun below mt =>
      if below = true then (pure true : Except AmmError Bool)
      else do
        let minToken ← okOr minTokens[mt.1]? .panicked
        pure (mt.2 < minToken : Bool)) false = .ok false) :
    ∀ mt ∈ l, mapAmounts minTokens mt.1 ≤ mt.2.val := by
  refine foldlM_invariant (P := fun done below => below = false →
      ∀ mt ∈ done, mapAmounts minTokens mt.1 ≤ mt.2.val) (fun done mt below below' hP hf => ?_)
    l [] false false (fun _ mt hmt => absurd hmt List.not_mem_nil) h rfl
  cases below with
  | true =>
      rw [if_pos rfl, pure_eq_ok] at hf
      rintro rfl
      cases hf
  | false =>
      rw [if_neg Bool.false_ne_true] at hf
      simp only [bind_eq_ok, okOr_eq_ok, pure_eq_ok] at hf
      obtain ⟨t, ht, rfl⟩ := hf
      intro hnot mt' hmt'
      rcases List.mem_append.mp hmt' with hmt' | hmt'
      · exact hP rfl mt' hmt'
      · obtain rfl := List.mem_singleton.mp hmt'
        rw [mapAmounts_of_getElem? ht]
        exact not_lt.mp (of_decide_eq_false hnot)

theorem redeem_minimum (hp : pool.WellFormed)
    (h : pool.redeemTokens minTokens burned supply = .ok (pool', tokens)) :
    ∀ r ∈ pool.activeReserves, mapAmounts minTokens r.mint ≤ mapAmounts tokens r.mint := by
  simp only [redeemTokens, bind_eq_ok, ensure_eq_ok, pure_eq_ok, Prod.mk.injEq] at h
  obtain ⟨-, -, -, -, -, -, -, -, w, -, t, ht, below, hbelow, -, rfl, p, -, -, rfl⟩ := h
  have hnodup : ((pool.activeReserves.map (fun r => (r.mint, r.tokens))).map Prod.fst).Nodup := by
    rw [List.map_map]
    exact hp.mints_nodup
  intro r hr
  have hmem : (r.mint, r.tokens) ∈ pool.activeReserves.map (fun r => (r.mint, r.tokens)) :=
    List.mem_map.mpr ⟨r, hr, rfl⟩
  obtain ⟨d, -, hget⟩ := mapPairs_total hnodup ht hmem
  rw [mapAmounts_of_getElem? hget]
  exact min_le_of_notBelow hbelow _ (Maps.mem_toList.mpr hget)

/-- A redemption pays the exact share of every reserve, rounded down. -/
structure PaysShare (pool : Pool) (minTokens : BTreeMap TokenAmount) (burned supply : TokenAmount)
    (pool' : Pool) (tokens : BTreeMap TokenAmount) : Prop where
  share : ∀ r ∈ pool.activeReserves,
    mapAmounts tokens r.mint = r.tokens.val * burned.val / supply.val
  minimum : ∀ r ∈ pool.activeReserves, mapAmounts minTokens r.mint ≤ mapAmounts tokens r.mint
  paid : Moved pool pool' (fun _ => 0) (mapAmounts tokens)
  empties : burned = supply → ∀ r' ∈ pool'.activeReserves, r'.tokens = 0

/-- **The condition**: of no reserve, what truncating the burned fraction
dropped is worth more than the remainder of the exact share. -/
def FractionPrecise (pool : Pool) (burned supply : TokenAmount) : Prop :=
  ∀ r ∈ pool.activeReserves, r.tokens.val * (burned.val * wad % supply.val)
    ≤ wad * (r.tokens.val * burned.val % supply.val)

instance (pool : Pool) (burned supply : TokenAmount) :
    Decidable (pool.FractionPrecise burned supply) :=
  inferInstanceAs (Decidable (∀ r ∈ pool.activeReserves, _))

/-- Burning the whole supply leaves nothing. -/
theorem Redeemed.empties (h : Redeemed pool burned supply pool' tokens) (hb : burned = supply) :
    ∀ r' ∈ pool'.activeReserves, r'.tokens = 0 := by
  intro r' hr'
  obtain ⟨r, hr, hmoved⟩ := Lists.forall₂_exists_right h.moved.reserves.flip hr'
  have htokens := hmoved.tokens
  have hpos : 0 < supply.val :=
    Nat.pos_of_ne_zero (fun h0 => h.supply_pos (Word.val_eq_zero.mp h0))
  rw [h.amount r hr, hb, Nat.mul_div_cancel_left _ hpos, Nat.mul_div_cancel _ wad_pos] at htokens
  exact Word.val_eq_zero.mp (by omega)

/-- **Redemptions.** A redemption pays the exact share, rounded down, of
every reserve if and only if the burned fraction is precise. -/
theorem redeem_pays_share_iff (hp : pool.WellFormed)
    (h : pool.redeemTokens minTokens burned supply = .ok (pool', tokens)) :
    PaysShare pool minTokens burned supply pool' tokens ↔ pool.FractionPrecise burned supply := by
  have hr := redeemed hp h
  have hpos : 0 < supply.val :=
    Nat.pos_of_ne_zero (fun h0 => hr.supply_pos (Word.val_eq_zero.mp h0))
  have hshare : (∀ r ∈ pool.activeReserves,
      mapAmounts tokens r.mint = r.tokens.val * burned.val / supply.val)
        ↔ pool.FractionPrecise burned supply := by
    refine forall₂_congr (fun r hmem => ?_)
    rw [hr.amount r hmem]
    exact Rounding.mul_div_div_eq_iff hpos wad_pos
  constructor
  · exact fun hpays => hshare.mp hpays.share
  · intro hprecise
    exact ⟨hshare.mpr hprecise, redeem_minimum hp h, hr.moved, hr.empties⟩

/-- Half of the supply is half of every reserve. -/
theorem redeem_pays_share_half :
    ∃ pool' tokens, largePool.redeemTokens (limitsMap [⟨1, 7⟩, ⟨2, 7⟩]) 10000000000 20000000000
        = .ok (pool', tokens)
      ∧ PaysShare largePool (limitsMap [⟨1, 7⟩, ⟨2, 7⟩]) 10000000000 20000000000 pool' tokens := by
  have hok : (largePool.redeemTokens (limitsMap [⟨1, 7⟩, ⟨2, 7⟩]) 10000000000 20000000000).isOk
      = true := by decide +kernel
  cases hr : largePool.redeemTokens (limitsMap [⟨1, 7⟩, ⟨2, 7⟩]) 10000000000 20000000000 with
  | error e => rw [hr] at hok; cases hok
  | ok pr =>
      exact ⟨pr.1, pr.2, rfl,
        (redeem_pays_share_iff largePool_wellFormed hr).mpr (by decide +kernel)⟩

/-- A pool of three tokens of each of two mints. -/
def smallPool : Pool :=
  { (default : Pool) with
    dimension := 2
    reserves := [⟨3, 1, 3⟩, ⟨3, 2, 4⟩, default, default] }

/-- One of three LP tokens is a third of three tokens, but pays none. -/
theorem redeem_misses_share :
    ¬ ∀ pool : Pool, pool.WellFormed → ∀ minTokens burned supply pool' tokens,
      pool.redeemTokens minTokens burned supply = .ok (pool', tokens) →
      PaysShare pool minTokens burned supply pool' tokens := by
  intro h
  have hmisses : ((smallPool.redeemTokens (limitsMap [⟨1, 0⟩, ⟨2, 0⟩]) 1 3).toOption.any
      (fun pr => decide (mapAmounts pr.2 1 = 0))) = true := by
    decide +kernel
  cases hr : smallPool.redeemTokens (limitsMap [⟨1, 0⟩, ⟨2, 0⟩]) 1 3 with
  | error e => rw [hr] at hmisses; cases hmisses
  | ok pr =>
      rw [hr] at hmisses
      have hwell : smallPool.WellFormed := ⟨by decide, by decide, by decide, by decide⟩
      have hshare := (h smallPool hwell _ _ _ _ _ hr).share ⟨3, 1, 3⟩ (by decide)
      have hzero : mapAmounts pr.2 1 = 0 := of_decide_eq_true hmisses
      rw [hzero] at hshare
      exact absurd hshare (by decide)

/-! ## Deposits -/

/-- `min (t_i / x_i)`. -/
def exactRatio (pool : Pool) (maxTokens : BTreeMap TokenAmount) : ℚ :=
  ((pool.activeReserves.map (fun r =>
    (mapAmounts maxTokens r.mint : ℚ) / r.tokens.val)).min?).getD 0

/-- The exact share of a reserve of `x` tokens, rounded up. -/
def exactShare (pool : Pool) (maxTokens : BTreeMap TokenAmount) (x : ℕ) : ℕ :=
  ⌈(x : ℚ) * pool.exactRatio maxTokens⌉₊

/-- Equal up to one. -/
def WithinOne (a b : ℕ) : Prop := a ≤ b + 1 ∧ b ≤ a + 1

/-- A deposit takes at least one token of every mint and the exact share up
to one, and either ratio, where it can be used at all, gives the same up to
one. -/
structure Proportional (pool : Pool) (maxTokens tokens : BTreeMap TokenAmount) : Prop where
  positive : ∀ r ∈ pool.activeReserves, 1 ≤ mapAmounts tokens r.mint
  exact : ∀ r ∈ pool.activeReserves,
    WithinOne (mapAmounts tokens r.mint) (pool.exactShare maxTokens r.tokens.val)
  agree : 0 < pool.invertedRatio maxTokens → ∀ r ∈ pool.activeReserves,
    WithinOne (roundedShare (pool.directRatio maxTokens, wad) r.tokens.val)
      (roundedShare (wad, pool.invertedRatio maxTokens) r.tokens.val)

/-- The reserve whose limit is the least part of it. -/
def Limiting (pool : Pool) (maxTokens : BTreeMap TokenAmount) (l : Reserve) : Prop :=
  ∀ r ∈ pool.activeReserves, mapAmounts maxTokens l.mint * r.tokens.val
    ≤ mapAmounts maxTokens r.mint * l.tokens.val

theorem exists_limiting (hp : pool.WellFormed) (hpos : ∀ r ∈ pool.activeReserves, 0 < r.tokens)
    (maxTokens : BTreeMap TokenAmount) :
    ∃ l ∈ pool.activeReserves, pool.Limiting maxTokens l := by
  cases hmin : (pool.activeReserves.map (fun r =>
      (mapAmounts maxTokens r.mint : ℚ) / r.tokens.val)).min? with
  | none =>
      have hlen := hp.length
      have htwo := hp.two_le
      rw [List.min?_eq_none_iff, List.map_eq_nil_iff] at hmin
      rw [hmin, List.length_nil] at hlen
      omega
  | some q =>
      obtain ⟨hmem, hle⟩ := List.min?_eq_some_iff.mp hmin
      obtain ⟨l, hl, rfl⟩ := List.mem_map.mp hmem
      refine ⟨l, hl, fun r hr => ?_⟩
      have h := hle _ (List.mem_map.mpr ⟨r, hr, rfl⟩)
      have hl0 : (0 : ℚ) < l.tokens.val := by exact_mod_cast hpos l hl
      have hr0 : (0 : ℚ) < r.tokens.val := by exact_mod_cast hpos r hr
      rw [div_le_div_iff₀ hl0 hr0] at h
      exact_mod_cast h

theorem Covers.limit_pos (hc : pool.Covers maxTokens) {r : Reserve} (hr : r ∈ pool.activeReserves) :
    0 < mapAmounts maxTokens r.mint := by
  obtain ⟨t, ht, hne⟩ := hc.limit r hr
  rw [mapAmounts_of_getElem? ht]
  exact Nat.pos_of_ne_zero (fun h0 => hne (Word.val_eq_zero.mp h0))

/-! ### The ratios of the limiting reserve -/

section Limiting

variable {l : Reserve} {x : ℕ}

theorem exactShare_eq (hl : l ∈ pool.activeReserves) (hlim : pool.Limiting maxTokens l)
    (hpos : ∀ r ∈ pool.activeReserves, 0 < r.tokens) :
    pool.exactShare maxTokens x = (x * mapAmounts maxTokens l.mint) ⌈/⌉ l.tokens.val := by
  have hmin : (pool.activeReserves.map (fun r =>
      (mapAmounts maxTokens r.mint : ℚ) / r.tokens.val)).min?
      = some ((mapAmounts maxTokens l.mint : ℚ) / l.tokens.val) := by
    refine List.min?_eq_some_iff.mpr ⟨List.mem_map.mpr ⟨l, hl, rfl⟩, fun q hq => ?_⟩
    obtain ⟨r, hr, rfl⟩ := List.mem_map.mp hq
    have hl0 : (0 : ℚ) < l.tokens.val := by exact_mod_cast hpos l hl
    have hr0 : (0 : ℚ) < r.tokens.val := by exact_mod_cast hpos r hr
    rw [div_le_div_iff₀ hl0 hr0]
    exact_mod_cast hlim r hr
  rw [exactShare, exactRatio, hmin, Option.getD_some]
  exact Rounding.ceil_mul_div (hpos l hl)

theorem directRatio_eq (hl : l ∈ pool.activeReserves) (hlim : pool.Limiting maxTokens l)
    (hpos : ∀ r ∈ pool.activeReserves, 0 < r.tokens) :
    pool.directRatio maxTokens = mapAmounts maxTokens l.mint * wad / l.tokens.val := by
  have hmin : (pool.activeReserves.map (fun r =>
      mapAmounts maxTokens r.mint * wad / r.tokens.val)).min?
      = some (mapAmounts maxTokens l.mint * wad / l.tokens.val) := by
    refine List.min?_eq_some_iff.mpr ⟨List.mem_map.mpr ⟨l, hl, rfl⟩, fun n hn => ?_⟩
    obtain ⟨r, hr, rfl⟩ := List.mem_map.mp hn
    exact Rounding.div_le_div_of_cross (hpos l hl) (hpos r hr) (hlim r hr)
  rw [directRatio, hmin, Option.getD_some]

theorem invertedRatio_eq (hc : pool.Covers maxTokens) (hl : l ∈ pool.activeReserves)
    (hlim : pool.Limiting maxTokens l) :
    pool.invertedRatio maxTokens = l.tokens.val * wad / mapAmounts maxTokens l.mint := by
  have hmax : (pool.activeReserves.map (fun r =>
      r.tokens.val * wad / mapAmounts maxTokens r.mint)).max?
      = some (l.tokens.val * wad / mapAmounts maxTokens l.mint) := by
    refine List.max?_eq_some_iff.mpr ⟨List.mem_map.mpr ⟨l, hl, rfl⟩, fun n hn => ?_⟩
    obtain ⟨r, hr, rfl⟩ := List.mem_map.mp hn
    refine Rounding.div_le_div_of_cross (hc.limit_pos hr) (hc.limit_pos hl) ?_
    rw [Nat.mul_comm, Nat.mul_comm l.tokens.val]
    exact hlim r hr
  rw [invertedRatio, hmax, Option.getD_some]

end Limiting

theorem roundedShare_direct {ratio x : ℕ} : roundedShare (ratio, wad) x = (x * ratio) ⌈/⌉ wad := by
  rw [roundedShare, Nat.mul_right_comm, Nat.mul_div_cancel _ wad_pos,
    Rounding.ceilDiv_eq wad_pos]

theorem roundedShare_inverted {ratio x : ℕ} :
    roundedShare (wad, ratio) x = (x * wad * wad / ratio) ⌈/⌉ wad := by
  rw [roundedShare, Rounding.ceilDiv_eq wad_pos]

/-! ### When the ratios are precise -/

/-- For a reserve of `x` tokens, where one of `x₀` tokens with the limit `t`
is limiting: the inverted ratio leaves at least one unit of the share, and
what truncating it dropped is worth at most one token besides what rounding
up adds. -/
def InvertedPrecise (t x₀ x : ℕ) : Prop :=
  x₀ * wad / t ≤ x * wad * wad ∧ wad * (x * (x₀ * wad % t))
    < x₀ * wad / t * (x₀ * (wad + 1) + wad * Rounding.excess (x * t) x₀)

/-- What truncating both ratios takes off their product is worth at most
one token besides what rounding up adds. -/
def ProductPrecise (t x₀ x : ℕ) : Prop :=
  x * (wad * wad - t * wad / x₀ * (x₀ * wad / t))
    < x₀ * wad / t * (wad + 1 + Rounding.excess (x * (t * wad / x₀)) wad)

/-- **The condition**: the inverted ratio is precise where it is used, and
the product of both ratios where both can be. -/
def RatioPrecise (pool : Pool) (maxTokens : BTreeMap TokenAmount) : Prop :=
  ∀ l ∈ pool.activeReserves, pool.Limiting maxTokens l → ∀ r ∈ pool.activeReserves,
    (pool.isInverted = true →
      InvertedPrecise (mapAmounts maxTokens l.mint) l.tokens.val r.tokens.val)
    ∧ (0 < pool.invertedRatio maxTokens →
      ProductPrecise (mapAmounts maxTokens l.mint) l.tokens.val r.tokens.val)

instance (pool : Pool) (maxTokens : BTreeMap TokenAmount) (l : Reserve) :
    Decidable (pool.Limiting maxTokens l) :=
  inferInstanceAs (Decidable (∀ r ∈ pool.activeReserves, _))

instance (t x₀ x : ℕ) : Decidable (InvertedPrecise t x₀ x) :=
  inferInstanceAs (Decidable (_ ∧ _))

instance (t x₀ x : ℕ) : Decidable (ProductPrecise t x₀ x) :=
  inferInstanceAs (Decidable (_ < _))

instance (pool : Pool) (maxTokens : BTreeMap TokenAmount) :
    Decidable (pool.RatioPrecise maxTokens) :=
  inferInstanceAs (Decidable (∀ l ∈ pool.activeReserves, _ → ∀ r ∈ pool.activeReserves, _))

/-- Reserves for which ratios are not inverted are small. -/
theorem le_wad_of_direct (hinv : pool.isInverted = false) {r : Reserve}
    (hr : r ∈ pool.activeReserves) : r.tokens.val ≤ wad := by
  have h := List.any_eq_false.mp hinv r hr
  rw [decide_eq_true_eq, not_lt, Word.le_def] at h
  exact h.trans (by decide)

section Limiting

variable {l r : Reserve}

/-- The two ratios agree up to one as far as their product is precise. -/
theorem agree_iff (hc : pool.Covers maxTokens) (hpos : ∀ r ∈ pool.activeReserves, 0 < r.tokens)
    (hl : l ∈ pool.activeReserves) (hlim : pool.Limiting maxTokens l)
    (hinv : 0 < pool.invertedRatio maxTokens) :
    WithinOne (roundedShare (pool.directRatio maxTokens, wad) r.tokens.val)
        (roundedShare (wad, pool.invertedRatio maxTokens) r.tokens.val) ↔
      ProductPrecise (mapAmounts maxTokens l.mint) l.tokens.val r.tokens.val := by
  have hl0 : 0 < l.tokens.val := hpos l hl
  have ht0 := hc.limit_pos hl
  rw [invertedRatio_eq hc hl hlim] at hinv
  rw [directRatio_eq hl hlim hpos, invertedRatio_eq hc hl hlim, roundedShare_direct,
    roundedShare_inverted, ProductPrecise,
    ← Rounding.inverted_le_direct_succ_iff wad_pos hinv (Rounding.div_mul_div_le hl0 ht0)]
  -- the direct amount is never too large
  have hdirect := (Rounding.direct_le (x := r.tokens.val) (n := mapAmounts maxTokens l.mint) hl0
    wad_pos).trans (Rounding.le_inverted ht0 hl0 wad_pos hinv)
  exact ⟨fun h => h.2, fun h => ⟨hdirect, h⟩⟩

/-- What is taken of one reserve is at least one and the exact share up to
one as far as the inverted ratio is precise where it is used. -/
theorem amount_iff (hd : Deposited pool maxTokens supply pool' result)
    (hpos : ∀ r ∈ pool.activeReserves, 0 < r.tokens) (hl : l ∈ pool.activeReserves)
    (hlim : pool.Limiting maxTokens l) (hr : r ∈ pool.activeReserves) :
    (1 ≤ mapAmounts result.tokensToDeposit r.mint
        ∧ WithinOne (mapAmounts result.tokensToDeposit r.mint)
          (pool.exactShare maxTokens r.tokens.val)) ↔
      (pool.isInverted = true →
        InvertedPrecise (mapAmounts maxTokens l.mint) l.tokens.val r.tokens.val) := by
  have hl0 : 0 < l.tokens.val := hpos l hl
  have hr0 : 0 < r.tokens.val := hpos r hr
  have ht0 := hd.covers.limit_pos hl
  have hratio := hd.ratio_pos
  rw [hd.amount r hr, exactShare_eq hl hlim hpos]
  unfold depositRatio at hratio ⊢
  cases hinv : pool.isInverted with
  | false =>
      rw [if_neg Bool.false_ne_true, roundedShare_direct, directRatio_eq hl hlim hpos]
      have hle : l.tokens.val ≤ mapAmounts maxTokens l.mint * wad :=
        (le_wad_of_direct hinv hl).trans (Nat.le_mul_of_pos_left _ ht0)
      have hdirect : 0 < mapAmounts maxTokens l.mint * wad / l.tokens.val := Nat.div_pos hle hl0
      refine iff_of_true ⟨?_, ?_, ?_⟩ (fun h => absurd h Bool.false_ne_true)
      · exact (Rounding.ceilDiv_pos wad_pos).mpr (Nat.mul_pos hr0 hdirect)
      · exact (Rounding.direct_le hl0 wad_pos).trans (Nat.le_succ _)
      · exact Rounding.le_direct hl0 wad_pos (le_wad_of_direct hinv hr)
  | true =>
      rw [hinv, if_pos rfl, invertedRatio_eq hd.covers hl hlim] at hratio
      rw [if_pos rfl, roundedShare_inverted, invertedRatio_eq hd.covers hl hlim]
      have hone : 1 ≤ (r.tokens.val * wad * wad
            / (l.tokens.val * wad / mapAmounts maxTokens l.mint)) ⌈/⌉ wad
          ↔ l.tokens.val * wad / mapAmounts maxTokens l.mint ≤ r.tokens.val * wad * wad := by
        rw [Nat.one_le_iff_ne_zero, ← Nat.pos_iff_ne_zero, Rounding.ceilDiv_pos wad_pos,
          Nat.div_pos_iff]
        exact and_iff_right hratio
      rw [hone, InvertedPrecise, ← Rounding.inverted_le_succ_iff hl0 wad_pos hratio]
      have hlow := Rounding.le_inverted (x := r.tokens.val) ht0 hl0 wad_pos hratio
      exact ⟨fun h _ => ⟨h.1, h.2.1⟩, fun h => ⟨(h rfl).1, (h rfl).2, hlow⟩⟩

end Limiting

/-- **Deposits.** A deposit into a pool with LP supply and tokens of every
mint is proportional if and only if its ratios are precise. -/
theorem deposit_proportional_iff (hp : pool.WellFormed) (hs : supply ≠ 0)
    (hpos : ∀ r ∈ pool.activeReserves, 0 < r.tokens)
    (h : pool.depositTokens maxTokens supply = .ok (pool', result)) :
    pool.Proportional maxTokens result.tokensToDeposit ↔ pool.RatioPrecise maxTokens := by
  have hd := deposited hp hs h
  constructor
  · intro hprop l hl hlim r hr
    refine ⟨(amount_iff hd hpos hl hlim hr).mp ⟨hprop.positive r hr, hprop.exact r hr⟩,
      fun hinv => ?_⟩
    exact (agree_iff hd.covers hpos hl hlim hinv).mp (hprop.agree hinv r hr)
  · intro hprec
    obtain ⟨l, hl, hlim⟩ := exists_limiting hp hpos maxTokens
    have hamount := fun r hr => (amount_iff hd hpos hl hlim hr).mpr (hprec l hl hlim r hr).1
    exact ⟨fun r hr => (hamount r hr).1, fun r hr => (hamount r hr).2, fun hinv r hr =>
      (agree_iff hd.covers hpos hl hlim hinv).mpr ((hprec l hl hlim r hr).2 hinv)⟩

/-- A limit that divides the balance leaves nothing to truncate. -/
theorem deposit_proportional_divisor :
    ∃ pool' result, largePool.depositTokens (limitsMap [⟨1, 200000⟩, ⟨2, 300000⟩]) 20000000000
        = .ok (pool', result)
      ∧ largePool.Proportional (limitsMap [⟨1, 200000⟩, ⟨2, 300000⟩]) result.tokensToDeposit := by
  have hok : (largePool.depositTokens (limitsMap [⟨1, 200000⟩, ⟨2, 300000⟩]) 20000000000).isOk
      = true := by decide +kernel
  cases hd : largePool.depositTokens (limitsMap [⟨1, 200000⟩, ⟨2, 300000⟩]) 20000000000 with
  | error e => rw [hd] at hok; cases hok
  | ok pr =>
      exact ⟨pr.1, pr.2, rfl, (deposit_proportional_iff largePool_wellFormed (by decide)
        (by decide) hd).mpr (by decide +kernel)⟩

/-- A pool of `2 * 10 ^ 18` tokens of one mint and one of the other. -/
def dwarfedPool : Pool :=
  { (default : Pool) with
    dimension := 2
    reserves := [⟨2000000000000000000, 1, 3⟩, ⟨1, 2, 4⟩, default, default] }

/-- With a limit of one token of each, the deposit takes none of the second
mint: its share vanishes before it is rounded up. -/
theorem deposit_takes_nothing :
    ¬ ∀ pool : Pool, pool.WellFormed → ∀ supply : TokenAmount, supply ≠ 0 →
      (∀ r ∈ pool.activeReserves, 0 < r.tokens) →
      ∀ maxTokens pool' result, pool.depositTokens maxTokens supply = .ok (pool', result) →
      pool.Proportional maxTokens result.tokensToDeposit := by
  intro h
  have hnothing : ((dwarfedPool.depositTokens (limitsMap [⟨1, 1⟩, ⟨2, 1⟩])
      2000000000000000000).toOption.any
        (fun pr => decide (mapAmounts pr.2.tokensToDeposit 2 = 0))) = true := by
    decide +kernel
  cases hd : dwarfedPool.depositTokens (limitsMap [⟨1, 1⟩, ⟨2, 1⟩]) 2000000000000000000 with
  | error e => rw [hd] at hnothing; cases hnothing
  | ok pr =>
      rw [hd] at hnothing
      have hwell : dwarfedPool.WellFormed := ⟨by decide, by decide, by decide, by decide⟩
      have hone := (h dwarfedPool hwell _ (by decide) (by decide) _ _ _ hd).positive ⟨1, 2, 4⟩
        (by decide)
      have hzero : mapAmounts pr.2.tokensToDeposit 2 = 0 := of_decide_eq_true hnothing
      rw [hzero] at hone
      exact absurd hone (by decide)

end Pool

end SolanaAmm.Amm
