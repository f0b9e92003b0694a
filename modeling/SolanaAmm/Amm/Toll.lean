import SolanaAmm.Amm.Backing
import SolanaAmm.Amm.Endpoints

/-!
# Amm — Toll

The program owner's part of a swap fee is paid in new LP tokens, as many
as a deposit of that part would give. The deposit is only pretended, so
its rounding is the LP holders': the LP tokens are worth more than the
toll exactly when rounding up the share of the first reserve gains more
than truncating the ratio and rounding down the LP tokens lose.
-/

namespace SolanaAmm.Amm

open Result Decimal Pool

variable {pool : Pool} {swapFee supply lp : TokenAmount} {sell : Reserve}

/-- The toll in sell tokens, a reserve's part of it: a third of the fee
over the number of reserves, to the nearest integer. -/
def tollPerReserve (pool : Pool) (swapFee : TokenAmount) : ℕ :=
  (swapFee.val * (333333 * 10 ^ 12) / pool.dimension.val + wad / 2) / wad

/-- The limits of the pretended deposit: only that of the sell mint counts. -/
def tollLimits (pool : Pool) (sellMint : Pubkey) (toll : TokenAmount) : BTreeMap TokenAmount :=
  .ofList (pool.activeReserves.map (fun r =>
    (r.mint, if r.mint = sellMint then toll else Word.maxValue)))

/-- A toll was paid: what was pretended to be deposited, and what for. -/
structure Tolled (pool : Pool) (swapFee : TokenAmount) (sellMint : Pubkey)
    (supply lp toll : TokenAmount) : Prop where
  amount : toll.val = tollPerReserve pool swapFee
  deposit : ∃ pool' result, pool.depositTokens (tollLimits pool sellMint toll) supply
      = .ok (pool', result)
    ∧ result.lpTokensToDistribute = some lp

theorem tolled {sellMint : Pubkey} (hp : pool.WellFormed)
    (h : calculateTollInLpTokens pool swapFee sellMint supply = .ok (some lp)) :
    ∃ toll, Tolled pool swapFee sellMint supply lp toll := by
  simp only [calculateTollInLpTokens, bind_eq_ok, tryMul_eq_ok, tryDiv_eq_ok, tryRound_eq_ok] at h
  obtain ⟨part, hpart, share, ⟨-, hshare⟩, toll, htoll, h⟩ := h
  split at h
  · cases h
  · simp only [bind_eq_ok, pure_eq_ok, Prod.exists] at h
    obtain ⟨pool', result, hdep, hlp⟩ := h
    refine ⟨toll, ?_, pool', result, hdep, hlp⟩
    have hdim : 0 < pool.dimension.val := by
      have := hp.two_le
      omega
    have hfee : part.raw = swapFee.val * (333333 * 10 ^ 12) := by
      rw [hpart, Fixed.mul_whole_raw wad_pos (ofU64_raw swapFee)]
      rfl
    rw [htoll, Fixed.round, hshare, hfee, ofU64_raw, tollPerReserve,
      Nat.mul_div_mul_right _ _ wad_pos]

/-- **The condition**: relative to the balances, what rounding adds to the
share of the first reserve is covered by what truncating the ratio takes
off the toll together with what rounding drops from the LP tokens. -/
def TollCovered (pool : Pool) (swapFee : TokenAmount) (sell : Reserve) (supply : TokenAmount) :
    Prop :=
  let toll : TokenAmount := .wrap (tollPerReserve pool swapFee)
  let ratio := pool.depositRatio (tollLimits pool sell.mint toll)
  let first := (pool.reserves.headD default).tokens.val
  supply.val * roundingExcess ratio first * sell.tokens.val
    ≤ supply.val * (ratio.2 * toll.val - ratio.1 * sell.tokens.val : ℤ) * first
      + lpRemainder ratio supply.val first * sell.tokens.val

instance (pool : Pool) (swapFee : TokenAmount) (sell : Reserve) (supply : TokenAmount) :
    Decidable (TollCovered pool swapFee sell supply) :=
  inferInstanceAs (Decidable ((_ : ℤ) ≤ _))

/-- **The toll.** The LP tokens of a toll are worth no more of the sell
reserve than the reserve's part of the toll if and only if the rounding of
the pretended deposit is covered. -/
theorem toll_within_share (hp : pool.WellFormed) (hs : supply ≠ 0)
    (h : calculateTollInLpTokens pool swapFee sell.mint supply = .ok (some lp)) :
    lp.val * sell.tokens.val ≤ supply.val * tollPerReserve pool swapFee
      ↔ TollCovered pool swapFee sell supply := by
  obtain ⟨toll, htoll, pool', result, hdep, hlp⟩ := tolled hp h
  have hd := deposited hp hs hdep
  obtain ⟨first, hfirst, -, hpos, hgiven⟩ := hd.lp
  have hhead : pool.reserves.headD default = first := by
    rw [List.headD_eq_head?_getD, hfirst]
    rfl
  have hlp : lp.val = supply.val
      * roundedShare (pool.depositRatio (tollLimits pool sell.mint toll)) first.tokens.val
        / first.tokens.val := by
    rw [← hgiven, hlp]
    rfl
  have hwrap : (.wrap (tollPerReserve pool swapFee) : TokenAmount) = toll :=
    Word.ext ((Word.wrap_val (htoll ▸ toll.isLt)).trans htoll.symm)
  rw [hlp, ← htoll]
  simp only [TollCovered, hwrap, hhead]
  exact lp_le_iff hd.ratio_pos (Nat.pos_of_ne_zero hpos)

/-! ## One pool, two tolls -/

/-- The toll of a fee of six tokens of the first reserve is one token, a
tenth of the reserve, and so is what is given for it. -/
theorem toll_within_share_first :
    ∃ lp, calculateTollInLpTokens unevenPool 6 1 1000000 = .ok (some lp)
      ∧ lp.val * (10 : TokenAmount).val
        ≤ (1000000 : TokenAmount).val * tollPerReserve unevenPool 6 := by
  have hpaid : ((calculateTollInLpTokens unevenPool 6 1 1000000).toOption.getD none).isSome
      = true := by
    decide +kernel
  cases h : calculateTollInLpTokens unevenPool 6 1 1000000 with
  | error e => rw [h] at hpaid; cases hpaid
  | ok toll =>
      cases toll with
      | none => rw [h] at hpaid; cases hpaid
      | some lp =>
          have hfirst : calculateTollInLpTokens unevenPool 6 (⟨10, 1, 3⟩ : Reserve).mint 1000000
              = .ok (some lp) := h
          exact ⟨lp, rfl, (toll_within_share unevenPool_wellFormed (by decide) hfirst).mpr
            (by decide +kernel)⟩

/-- The toll of a fee of six tokens of the second reserve is one token of
`10 ^ 9`, and the LP tokens given for it are worth a tenth of the pool. -/
theorem toll_exceeds_share :
    ¬ ∀ pool : Pool, pool.WellFormed → (∀ r ∈ pool.activeReserves, 0 < r.tokens) →
      ∀ swapFee supply lp : TokenAmount, supply ≠ 0 → ∀ sell ∈ pool.activeReserves,
      calculateTollInLpTokens pool swapFee sell.mint supply = .ok (some lp) →
      lp.val * sell.tokens.val ≤ supply.val * tollPerReserve pool swapFee := by
  intro h
  have hexceeds : ((calculateTollInLpTokens unevenPool 6 2 1000000).toOption.getD none).any
      (fun lp => ! decide (lp.val * (1000000000 : TokenAmount).val
        ≤ (1000000 : TokenAmount).val * tollPerReserve unevenPool 6)) = true := by
    decide +kernel
  cases htoll : calculateTollInLpTokens unevenPool 6 2 1000000 with
  | error e => rw [htoll] at hexceeds; cases hexceeds
  | ok toll =>
      cases toll with
      | none => rw [htoll] at hexceeds; cases hexceeds
      | some lp =>
          rw [htoll] at hexceeds
          have hle := h unevenPool unevenPool_wellFormed (by decide) 6 1000000 lp (by decide)
            ⟨1000000000, 2, 4⟩ (List.mem_cons_of_mem _ List.mem_cons_self) htoll
          rw [Except.toOption, Option.getD_some, Option.any_some, Bool.not_eq_true',
            decide_eq_false_iff_not] at hexceeds
          exact hexceeds hle

end SolanaAmm.Amm
