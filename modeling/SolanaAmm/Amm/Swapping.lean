import SolanaAmm.Amm.Moved
import SolanaAmm.Amm.Maps
import Mathlib.Algebra.BigOperators.Group.List.Basic

/-!
# Amm — Swapping

What a successful swap did to the pool, on either curve, and the products
it computed on the way: products of whole numbers are exact.
-/

namespace SolanaAmm.Amm

open Result Decimal

/-! ## Products of whole numbers -/

/-- A fold over whole numbers keeps a whole number in the accumulator. -/
theorem foldProduct_ofU64 {l : List TokenAmount} {z : Decimal}
    (h : foldProduct (l.map ofU64) = .ok z) : z.raw = (l.map (·.val)).prod * wad := by
  have key : ∀ (l : List TokenAmount) (acc z : Decimal) (n : ℕ), acc.raw = n * wad →
      (l.map ofU64).foldlM (fun acc el => tryMul (ε := AmmError) acc el) acc = .ok z →
      z.raw = n * (l.map (·.val)).prod * wad := by
    intro l
    induction l with
    | nil =>
        intro acc z n hacc h
        simp only [List.map_nil, List.foldlM_nil, pure_eq_ok] at h
        rw [← h, hacc, List.map_nil, List.prod_nil, Nat.mul_one]
    | cons a l ih =>
        intro acc z n hacc h
        simp only [List.map_cons, List.foldlM_cons, bind_eq_ok, tryMul_eq_ok] at h
        obtain ⟨acc', hacc', h⟩ := h
        rw [Fixed.mul_whole_raw wad_pos hacc, ofU64_raw, ← Nat.mul_assoc] at hacc'
        rw [ih acc' z _ hacc' h, List.map_cons, List.prod_cons, Nat.mul_assoc n]
  have := key l Decimal.one z 1 (by rw [one_raw, Nat.one_mul]) h
  rwa [Nat.one_mul] at this

namespace Pool

variable {pool pool' : Pool} {sellMint buyMint : Pubkey}

/-- The exact product of all reserves. -/
def product (pool : Pool) : ℕ := (pool.activeReserves.map (·.tokens.val)).prod

/-- The exact product of all balances but the bought one, with `n` more
tokens of the sold mint. -/
def otherProduct (pool : Pool) (sellMint : Pubkey) (n : ℕ) (buyMint : Pubkey) : ℕ :=
  ((pool.activeReserves.filter (fun r => r.mint ≠ buyMint)).map
    (fun r => r.tokens.val + single sellMint n r.mint)).prod

theorem product_reservesHashmap (hp : pool.WellFormed) {z : Decimal}
    (h : foldProduct (pool.reservesHashmap.values.map ofU64) = .ok z) :
    z.raw = pool.product * wad := by
  rw [foldProduct_ofU64 h, product, Maps.values_eq, List.map_map,
    ((reservesHashmap_perm hp).map _).prod_eq, List.map_map]
  rfl

/-- The balances a swap multiplies and adds are whole numbers. -/
theorem soldOrNeutral_whole {n : TokenAmount} {balances : List Decimal}
    (hb : soldOrNeutralBalances pool.reservesHashmap sellMint n buyMint = .ok balances) :
    ∃ sums : List TokenAmount, balances = sums.map ofU64 ∧ sums.map (·.val)
      = (pool.reservesHashmap.toList.filter (fun mt => mt.1 ≠ buyMint)).map
          (fun mt => mt.2.val + single sellMint n.val mt.1) := by
  have h := mapM_eq_ok.mp hb
  clear hb
  generalize pool.reservesHashmap.toList.filter (fun mt => mt.1 ≠ buyMint) = l at h ⊢
  induction h with
  | nil => exact ⟨[], rfl, rfl⟩
  | @cons mt b l bs hmt _ ih =>
      obtain ⟨sums, rfl, hsums⟩ := ih
      by_cases hm : mt.1 = sellMint
      · simp only [hm, if_true, bind_eq_ok, okOr_eq_ok, Word.checkedAdd_eq_some,
          pure_eq_ok] at hmt
        obtain ⟨sum, hsum, rfl⟩ := hmt
        refine ⟨sum :: sums, rfl, ?_⟩
        rw [List.map_cons, List.map_cons, hsums, hm, single_self, hsum]
      · rw [if_neg hm, pure_eq_ok] at hmt
        subst hmt
        refine ⟨mt.2 :: sums, rfl, ?_⟩
        rw [List.map_cons, List.map_cons, hsums, single_ne hm, Nat.add_zero]

/-- Their product. -/
theorem product_soldOrNeutral (hp : pool.WellFormed) {n : TokenAmount}
    {balances : List Decimal} {z : Decimal}
    (hb : soldOrNeutralBalances pool.reservesHashmap sellMint n buyMint = .ok balances)
    (hz : foldProduct balances = .ok z) :
    z.raw = pool.otherProduct sellMint n.val buyMint * wad := by
  obtain ⟨sums, rfl, hsums⟩ := soldOrNeutral_whole hb
  rw [foldProduct_ofU64 hz, hsums, otherProduct,
    (((reservesHashmap_perm hp).filter _).map _).prod_eq, List.filter_map, List.map_map]
  rfl

/-! ## Swaps -/

/-- What a successful swap found and did. -/
structure Swapped (m : PowSqrt) (pool : Pool) (sellMint : Pubkey) (n : TokenAmount)
    (buyMint : Pubkey) (pool' : Pool) (received : TokenAmount) : Prop where
  positive : ∀ r ∈ pool.activeReserves, 0 < r.tokens.val
  sold : ∃ r ∈ pool.activeReserves, r.mint = sellMint ∧ n.val < r.tokens.val
  /-- The bought reserve, and the balance `b` the curve leaves it with. -/
  bought : ∃ r ∈ pool.activeReserves, r.mint = buyMint
    ∧ ∃ balances product b,
      soldOrNeutralBalances pool.reservesHashmap sellMint n buyMint = .ok balances
      ∧ foldProduct balances = .ok product
      ∧ boughtBalanceAfterSwap m pool.curve pool.reservesHashmap balances product = .ok b
      ∧ b.raw ≤ r.tokens.val * wad
      ∧ received.val = (r.tokens.val * wad - b.raw) / wad
  moved : Moved pool pool' (single sellMint n.val) (single buyMint received.val)

/-- What the tokens to receive were computed from. -/
theorem calculateSwap_ok {m : PowSqrt} {n received : TokenAmount} (hp : pool.WellFormed)
    (h : pool.calculateSwap m sellMint n buyMint = .ok received) :
    (∀ r ∈ pool.activeReserves, 0 < r.tokens.val)
    ∧ (∃ r ∈ pool.activeReserves, r.mint = sellMint ∧ n.val < r.tokens.val)
    ∧ ∃ r ∈ pool.activeReserves, r.mint = buyMint
      ∧ ∃ balances product b,
        soldOrNeutralBalances pool.reservesHashmap sellMint n buyMint = .ok balances
        ∧ foldProduct balances = .ok product
        ∧ boughtBalanceAfterSwap m pool.curve pool.reservesHashmap balances product = .ok b
        ∧ b.raw ≤ r.tokens.val * wad
        ∧ received.val = (r.tokens.val * wad - b.raw) / wad := by
  simp only [calculateSwap, bind_eq_ok, ensure_eq_ok, okOr_eq_ok,
    computeDeltaWithdrawTokenAmount, trySub_eq_ok, tryFloor_eq_ok, ofU64_raw] at h
  obtain ⟨-, hpos, -, -, -, -, s, hs, -, hlt, balances, hbal, product, hprod, b, hb, d,
    ⟨t, ht, hle, hd⟩, hrec⟩ := h
  obtain ⟨rs, hrs, hrsm, rfl⟩ := (reservesHashmap_getElem? hp).mp hs
  obtain ⟨rb, hrb, hrbm, rfl⟩ := (reservesHashmap_getElem? hp).mp ht
  refine ⟨fun r hr => ?_, ⟨rs, hrs, hrsm, hlt⟩,
    rb, hrb, hrbm, balances, product, b, hbal, hprod, hb, hle, ?_⟩
  · rcases Nat.eq_zero_or_pos r.tokens.val with h0 | h0
    · refine absurd (values_any.mpr ⟨r.mint, r.tokens, reservesHashmap_mint hp hr, ?_⟩) hpos
      simpa using Word.val_eq_zero.mp h0
    · exact h0
  · rw [hrec, Fixed.floor, hd]

theorem swapped {m : PowSqrt} {n received : TokenAmount} (hp : pool.WellFormed)
    (h : pool.swap m sellMint n buyMint = .ok (pool', received)) :
    Swapped m pool sellMint n buyMint pool' received := by
  simp only [swap, bind_eq_ok, pure_eq_ok, Prod.mk.injEq] at h
  obtain ⟨_, hcalc, p₁, hp₁, p₂, hp₂, rfl, rfl⟩ := h
  obtain ⟨hpos, hsold, hbought⟩ := calculateSwap_ok hp hcalc
  have hm₁ := updateReserve_moved hp.mints_nodup addTokens_moved hp₁
  have hm₂ := updateReserve_moved (hm₁.wellFormed hp).mints_nodup removeTokens_moved hp₂
  exact
    { positive := hpos
      sold := hsold
      bought := hbought
      moved := by simpa using hm₁.trans hm₂ }

/-- The balances after a swap, by mint. -/
theorem Swapped.tokens {m : PowSqrt} {n received : TokenAmount}
    (h : Swapped m pool sellMint n buyMint pool' received) :
    pool'.activeReserves.map (·.tokens.val) = pool.activeReserves.map (fun r =>
      r.tokens.val + single sellMint n.val r.mint - single buyMint received.val r.mint) := by
  refine (Lists.forall₂_map_eq (fun r r' hr => ?_) h.moved.reserves).symm
  have := hr.tokens
  omega

/-- **The product after a swap**: that of the other balances times what is
left of the bought one. -/
theorem Swapped.product_eq {m : PowSqrt} {n received : TokenAmount} (hp : pool.WellFormed)
    (hne : sellMint ≠ buyMint) (h : Swapped m pool sellMint n buyMint pool' received)
    {r : Reserve} (hr : r ∈ pool.activeReserves) (hm : r.mint = buyMint) :
    pool'.product
      = (r.tokens.val - received.val) * pool.otherProduct sellMint n.val buyMint := by
  rw [product, h.tokens, Lists.prod_map_eq_mul_filter hp.mints_nodup hr, hm, single_self,
    single_ne (Ne.symm hne), Nat.add_zero, otherProduct]
  congr 2
  refine List.map_congr_left (fun b hb => ?_)
  have hb' : b.mint ≠ buyMint := by simpa using (List.mem_filter.mp hb).2
  rw [single_ne hb', Nat.sub_zero]

end Pool

end SolanaAmm.Amm
