import SolanaAmm.Amm.Backing
import SolanaAmm.Amm.Newton
import SolanaAmm.Amm.Swapping

/-!
# Amm — Permuted

Two pools that differ by the order of their reserves. What goes through
the map of reserves, which is sorted by mint, is the same for both; so is
what the updates of single reserves leave, up to the order. Only two
results depend on the order: the LP tokens of a deposit, counted by the
first reserve, and the coefficients of the invariant's polynomial, for the
product of the scaled-down reserves is truncated after each factor.
-/

namespace SolanaAmm.Amm

open Result Decimal

namespace Pool

/-- The same pool with its initialised reserves in another order. -/
structure Permuted (p q : Pool) : Prop where
  wellFormed : p.WellFormed
  active : p.activeReserves.Perm q.activeReserves
  rest : q = p.withActive q.activeReserves

namespace Permuted

variable {p q p' : Pool}

theorem dimension (h : Permuted p q) : q.dimension = p.dimension := by
  rw [h.rest]
  rfl

theorem curve (h : Permuted p q) : q.curve = p.curve := by
  rw [h.rest]
  rfl

theorem unusedReserves (h : Permuted p q) : q.unusedReserves = p.unusedReserves := by
  rw [h.rest]
  exact withActive_unusedReserves h.active.length_eq.symm

theorem wellFormed_right (h : Permuted p q) : q.WellFormed where
  slots := by
    rw [h.rest, withActive_length h.active.length_eq.symm, h.wellFormed.slots]
  two_le := by
    rw [h.dimension]
    exact h.wellFormed.two_le
  le_max := by
    rw [h.dimension]
    exact h.wellFormed.le_max
  mints_nodup := (h.active.map _).nodup_iff.mp h.wellFormed.mints_nodup

/-- Both maps of reserves hold the same. -/
theorem reservesHashmap (h : Permuted p q) : p.reservesHashmap.Equiv q.reservesHashmap :=
  .of_toList_perm ((reservesHashmap_perm h.wellFormed).trans
    ((h.active.map _).trans (reservesHashmap_perm h.wellFormed_right).symm))

/-- **One reserve moves** in both. -/
theorem updateReserve (h : Permuted p q) {mint : Pubkey} {e : AmmError}
    {f : Reserve → Except AmmError Reserve} {up down : ℕ}
    (hf : ∀ r r', f r = .ok r' → ReserveMoved (fun _ => up) (fun _ => down) r r')
    (hp : p.updateReserve mint e f = .ok p') :
    ∃ q', q.updateReserve mint e f = .ok q' ∧ Permuted p' q' := by
  have hwf := (updateReserve_moved h.wellFormed.mints_nodup hf hp).wellFormed h.wellFormed
  simp only [Pool.updateReserve, bind_eq_ok, pure_eq_ok] at hp ⊢
  obtain ⟨rs, hrs, rfl⟩ := hp
  obtain ⟨rs', hrs', hperm⟩ := Lists.updateFirst_perm h.wellFormed.mints_nodup h.active hrs
  have hlen := Lists.updateFirst_length hrs
  have hactive : (p.withActive rs).activeReserves = rs := withActive_activeReserves hlen
  have hactive' : (q.withActive rs').activeReserves = rs' :=
    withActive_activeReserves (Lists.updateFirst_length hrs')
  refine ⟨q.withActive rs', ⟨rs', hrs', rfl⟩, hwf, ?_, ?_⟩
  · show (p.withActive rs).activeReserves.Perm _
    rw [hactive, hactive']
    exact hperm
  · show q.withActive rs' = (p.withActive rs).withActive _
    rw [hactive']
    unfold withActive
    have hunused : (p.withActive rs).unusedReserves = p.unusedReserves :=
      withActive_unusedReserves hlen
    unfold withActive at hunused
    rw [hunused, h.unusedReserves, h.rest]
    rfl

/-- A loop over pairs that moves reserves moves them in both. -/
theorem updateAll (h : Permuted p q) {g : Reserve → TokenAmount → Except AmmError Reserve}
    {up down : TokenAmount → ℕ}
    (hg : ∀ t r r', g r t = .ok r' → ReserveMoved (fun _ => up t) (fun _ => down t) r r')
    {l : List (Pubkey × TokenAmount)}
    (hp : l.foldlM (fun p mt => p.updateReserve mt.1 missingMint (fun r => g r mt.2)) p = .ok p') :
    ∃ q', l.foldlM (fun p mt => p.updateReserve mt.1 missingMint (fun r => g r mt.2)) q = .ok q'
      ∧ Permuted p' q' := by
  induction l generalizing p q with
  | nil =>
      rw [List.foldlM_nil, pure_eq_ok] at hp
      subst hp
      exact ⟨q, rfl, h⟩
  | cons mt l ih =>
      rw [List.foldlM_cons, bind_eq_ok] at hp
      obtain ⟨p₁, h₁, h₂⟩ := hp
      obtain ⟨q₁, hq₁, hperm⟩ := h.updateReserve (hg mt.2) h₁
      obtain ⟨q', hq', hperm'⟩ := ih hperm h₂
      refine ⟨q', ?_, hperm'⟩
      rw [List.foldlM_cons, bind_eq_ok]
      exact ⟨q₁, hq₁, hq'⟩

theorem addAll (h : Permuted p q) {l : List (Pubkey × TokenAmount)} (hp : p.addAll l = .ok p') :
    ∃ q', q.addAll l = .ok q' ∧ Permuted p' q' :=
  h.updateAll (g := Reserve.addTokens) (fun _ => addTokens_moved) hp

theorem removeAll (h : Permuted p q) {l : List (Pubkey × TokenAmount)}
    (hp : p.removeAll l = .ok p') : ∃ q', q.removeAll l = .ok q' ∧ Permuted p' q' :=
  h.updateAll (g := Reserve.removeTokens) (fun _ => removeTokens_moved) hp

end Permuted

/-! ## Reading the same map -/

section SameMap

variable {t t' : BTreeMap TokenAmount}

theorem values_congr (h : t.Equiv t') : t.values = t'.values := by
  rw [Maps.values_eq, Maps.values_eq, h.toList_eq]

theorem getDepositRatio_congr (h : t.Equiv t') (maxDeposits : BTreeMap TokenAmount) :
    getDepositRatio t maxDeposits = getDepositRatio t' maxDeposits := by
  have hget : ∀ k : Pubkey, t[k]? = t'[k]? := fun _ => h.getElem?_eq
  unfold getDepositRatio
  simp only [hget, values_congr h]

theorem boughtBalanceAfterSwap_congr (h : t.Equiv t') (m : PowSqrt) (curve : Curve)
    (balances : List Decimal) (product : Decimal) :
    boughtBalanceAfterSwap m curve t balances product
      = boughtBalanceAfterSwap m curve t' balances product := by
  unfold boughtBalanceAfterSwap
  rw [values_congr h, h.size_eq]

end SameMap

/-! ## Swaps and redemptions -/

variable {p q p' : Pool}

theorem calculateSwap_permuted (h : Permuted p q) (m : PowSqrt) (sellMint : Pubkey)
    (n : TokenAmount) (buyMint : Pubkey) :
    p.calculateSwap m sellMint n buyMint = q.calculateSwap m sellMint n buyMint := by
  have hmap := h.reservesHashmap
  have hget : ∀ k : Pubkey, p.reservesHashmap[k]? = q.reservesHashmap[k]? :=
    fun _ => hmap.getElem?_eq
  have hcontains : ∀ k : Pubkey, p.reservesHashmap.contains k = q.reservesHashmap.contains k :=
    fun _ => hmap.contains_eq
  unfold calculateSwap soldOrNeutralBalances computeDeltaWithdrawTokenAmount
  simp only [hget, hcontains, values_congr hmap, hmap.toList_eq,
    boughtBalanceAfterSwap_congr hmap, h.curve]

/-- **A swap** pays the same. -/
theorem swap_permuted (h : Permuted p q) {m : PowSqrt} {sellMint : Pubkey} {n : TokenAmount}
    {buyMint : Pubkey} {received : TokenAmount}
    (hp : p.swap m sellMint n buyMint = .ok (p', received)) :
    ∃ q', q.swap m sellMint n buyMint = .ok (q', received) ∧ Permuted p' q' := by
  simp only [swap, bind_eq_ok, pure_eq_ok, Prod.mk.injEq] at hp
  obtain ⟨t, ht, p₁, hp₁, p₂, hp₂, rfl, rfl⟩ := hp
  obtain ⟨q₁, hq₁, hperm₁⟩ := h.updateReserve addTokens_moved hp₁
  obtain ⟨q₂, hq₂, hperm₂⟩ := hperm₁.updateReserve removeTokens_moved hp₂
  refine ⟨q₂, ?_, hperm₂⟩
  simp only [swap, bind_eq_ok, pure_eq_ok, Prod.mk.injEq]
  exact ⟨t, calculateSwap_permuted h .. ▸ ht, q₁, hq₁, q₂, hq₂, rfl, rfl⟩

/-- Collecting pairs in another order gives a map that holds the same. -/
theorem mapPairs_perm {α β : Type} {f : Pubkey → α → Except AmmError β}
    {l l' : List (Pubkey × α)} {t : BTreeMap β} (hl : (l.map Prod.fst).Nodup) (hperm : l.Perm l')
    (h : mapPairs f l = .ok t) : ∃ t', mapPairs f l' = .ok t' ∧ t.Equiv t' := by
  simp only [mapPairs, bind_eq_ok, mapM_eq_ok, pure_eq_ok] at h ⊢
  obtain ⟨pairs, hpairs, rfl⟩ := h
  obtain ⟨pairs', hpairs', hperm'⟩ := List.perm_comp_forall₂ hperm.symm hpairs
  refine ⟨_, ⟨pairs', hpairs', rfl⟩, ?_⟩
  have hkeys : l.map Prod.fst = pairs.map Prod.fst := by
    refine Lists.forall₂_map_eq ?_ hpairs
    rintro a b ⟨c, -, rfl⟩
    rfl
  have hnodup : (pairs.map Prod.fst).Nodup := hkeys ▸ hl
  have hnodup' : (pairs'.map Prod.fst).Nodup := (hperm'.map _).nodup_iff.mpr hnodup
  exact .of_toList_perm ((Maps.toList_ofList_perm hnodup).trans
    (hperm'.symm.trans (Maps.toList_ofList_perm hnodup').symm))

/-- **A redemption** pays the same. -/
theorem redeem_permuted (h : Permuted p q) {minTokens : BTreeMap TokenAmount}
    {burned supply : TokenAmount} {tokens : BTreeMap TokenAmount}
    (hp : p.redeemTokens minTokens burned supply = .ok (p', tokens)) :
    ∃ q' tokens', q.redeemTokens minTokens burned supply = .ok (q', tokens')
      ∧ tokens.Equiv tokens' ∧ Permuted p' q' := by
  simp only [redeemTokens, bind_eq_ok, ensure_eq_ok, pure_eq_ok, Prod.mk.injEq] at hp
  obtain ⟨-, hs, -, hle, -, hsize, -, hmints, w, hw, t, ht, below, hbelow, -, hfalse, p₁, hp₁,
    rfl, rfl⟩ := hp
  have hnodup : ((p.activeReserves.map (fun r => (r.mint, r.tokens))).map Prod.fst).Nodup := by
    rw [List.map_map]
    exact h.wellFormed.mints_nodup
  obtain ⟨t', ht', hequiv⟩ := mapPairs_perm hnodup (h.active.map _) ht
  obtain ⟨q₁, hq₁, hperm⟩ := h.removeAll hp₁
  refine ⟨q₁, t', ?_, hequiv, hperm⟩
  simp only [redeemTokens, bind_eq_ok, ensure_eq_ok, pure_eq_ok, Prod.mk.injEq]
  refine ⟨⟨⟩, hs, ⟨⟩, hle, ⟨⟩, ?_, ⟨⟩, ?_, w, hw, t', ht', below, ?_, ⟨⟩, hfalse, q₁, ?_,
    rfl, rfl⟩
  · rw [h.dimension]
    exact hsize
  · rw [← h.active.any_eq]
    exact hmints
  · rw [← hequiv.toList_eq]
    exact hbelow
  · rw [← hequiv.toList_eq]
    exact hq₁

/-! ## Deposits -/

/-- **The condition** on a deposit: it is the first one, or what rounding
up adds to the shares of the reserves that come first in the two orders,
less what rounding the LP tokens down drops, is in proportion to them. -/
def RoundingAgrees (p q : Pool) (maxTokens : BTreeMap TokenAmount) (supply : TokenAmount) :
    Prop :=
  let ratio := p.depositRatio maxTokens
  let x := (p.reserves.headD default).tokens.val
  let y := (q.reserves.headD default).tokens.val
  supply = 0 ∨ 0 < x ∧ 0 < y ∧
    (supply.val * roundingExcess ratio x - lpRemainder ratio supply.val x) * y
      = (supply.val * roundingExcess ratio y - lpRemainder ratio supply.val y) * x

instance (p q : Pool) (maxTokens : BTreeMap TokenAmount) (supply : TokenAmount) :
    Decidable (RoundingAgrees p q maxTokens supply) :=
  inferInstanceAs (Decidable (_ ∨ _ ∧ _ ∧ _))

/-- Two reserves count the same LP tokens: the exact share cancels. -/
theorem lp_eq_iff {ratio : ℕ × ℕ} {s x y : ℕ} (hden : 0 < ratio.2) (hx : 0 < x) (hy : 0 < y) :
    s * roundedShare ratio x / x = s * roundedShare ratio y / y ↔
      (s * roundingExcess ratio x - lpRemainder ratio s x) * y
        = (s * roundingExcess ratio y - lpRemainder ratio s y) * x := by
  have hlpx := mul_lp (s := s) (x := x) hden
  have hlpy := mul_lp (s := s) (x := y) hden
  have hne : (ratio.2 * x * y : ℤ) ≠ 0 := by positivity
  rw [← Nat.cast_inj (R := ℤ), ← mul_right_inj' hne]
  generalize s * roundedShare ratio x / x = lp at hlpx ⊢
  generalize s * roundedShare ratio y / y = lp' at hlpy ⊢
  have hleft : (ratio.2 * x * y : ℤ) * lp
      = s * ratio.1 * x * y + (s * roundingExcess ratio x - lpRemainder ratio s x) * y := by
    linear_combination (y : ℤ) * hlpx
  have hright : (ratio.2 * x * y : ℤ) * lp'
      = s * ratio.1 * x * y + (s * roundingExcess ratio y - lpRemainder ratio s y) * x := by
    linear_combination (x : ℤ) * hlpy
  rw [hleft, hright, add_right_inj]

/-- Everything in a deposit but its plan is the same. -/
theorem deposit_iff_plan (h : Permuted p q) {maxTokens tokens : BTreeMap TokenAmount}
    {supply : TokenAmount} {lp : Option TokenAmount}
    (hp : p.depositTokens maxTokens supply = .ok (p', ⟨lp, tokens⟩)) :
    (∃ q', q.depositTokens maxTokens supply = .ok (q', ⟨lp, tokens⟩) ∧ Permuted p' q')
      ↔ q.depositPlan maxTokens supply = .ok (tokens, lp) := by
  simp only [depositTokens, bind_eq_ok, ensure_eq_ok, pure_eq_ok, Prod.exists, Prod.mk.injEq,
    DepositResult.mk.injEq] at hp ⊢
  obtain ⟨-, hpos, -, hsize, -, hmints, _, _, -, p₁, hadd, rfl, rfl, rfl⟩ := hp
  obtain ⟨q₁, hq₁, hperm⟩ := h.addAll hadd
  constructor
  · rintro ⟨q', ⟨-, -, -, -, -, -, tokens', lp', hplan', _, -, -, hlp, htokens⟩, -⟩
    rw [← hlp, ← htokens]
    exact hplan'
  · intro hplan
    refine ⟨q₁, ⟨⟨⟩, hpos, ⟨⟩, ?_, ⟨⟩, ?_, _, _, hplan, q₁, hq₁, rfl, rfl, rfl⟩, hperm⟩
    · rw [h.dimension]
      exact hsize
    · rw [← h.active.any_eq]
      exact hmints

/-- Amounts that give the same when zero stands for nothing. -/
theorem eq_of_nonzero_eq {n n' : TokenAmount}
    (h : (if n = 0 then none else some n) = if n' = 0 then none else some n') : n = n' := by
  by_cases h0 : n = 0
  · by_cases h0' : n' = 0
    · rw [h0, h0']
    · rw [if_pos h0, if_neg h0'] at h
      cases h
  · by_cases h0' : n' = 0
    · rw [if_neg h0, if_pos h0'] at h
      cases h
    · rw [if_neg h0, if_neg h0', Option.some.injEq] at h
      exact h

/-- **A deposit** takes the same; it gives the same exactly if the rounding
agrees. -/
theorem deposit_permuted_iff (h : Permuted p q) {maxTokens : BTreeMap TokenAmount}
    {supply : TokenAmount} {result : DepositResult}
    (hp : p.depositTokens maxTokens supply = .ok (p', result)) :
    (∃ q', q.depositTokens maxTokens supply = .ok (q', result) ∧ Permuted p' q')
      ↔ RoundingAgrees p q maxTokens supply := by
  have hpd := hp
  simp only [depositTokens, bind_eq_ok, ensure_eq_ok, pure_eq_ok, Prod.exists,
    Prod.mk.injEq] at hp
  obtain ⟨-, -, -, -, -, -, tokens, lp, hplan, p₁, -, rfl, rfl⟩ := hp
  rw [deposit_iff_plan h hpd]
  unfold RoundingAgrees
  by_cases hs : supply = 0
  · -- the first deposit does not look at the reserves
    refine iff_of_true ?_ (.inl hs)
    unfold depositPlan at hplan ⊢
    rw [if_pos hs] at hplan ⊢
    exact hplan
  rw [or_iff_right hs]
  have hd := deposited h.wellFormed hs hpd
  have hmap := h.reservesHashmap
  simp only [depositPlan, hs, if_false, bind_eq_ok, pure_eq_ok, Prod.exists,
    Prod.mk.injEq, ← getDepositRatio_congr hmap, ← hmap.toList_eq] at hplan ⊢
  obtain ⟨ratio, inverted, hratio, t, ht, l, hl, rfl, rfl⟩ := hplan
  have hplan : (∃ a b, getDepositRatio p.reservesHashmap maxTokens = .ok (a, b) ∧
      ∃ t', mapPairs (fun _ tokenReserve => depositAmount a b tokenReserve)
          p.reservesHashmap.toList = .ok t' ∧
        ∃ l', q.getEligibleLpTokens t' supply = .ok l' ∧ t' = t ∧ l' = l)
      ↔ q.getEligibleLpTokens t supply = .ok l := by
    constructor
    · rintro ⟨a, b, -, t', -, l', hl', rfl, rfl⟩
      exact hl'
    · intro hl'
      exact ⟨ratio, inverted, hratio, t, ht, l, hl', rfl, rfl⟩
  rw [hplan]
  have hshare : ∀ r ∈ p.activeReserves, ∃ d, t[r.mint]? = some d
      ∧ d.val = roundedShare (p.depositRatio maxTokens) r.tokens.val := by
    intro r hr
    obtain ⟨d, -, hget⟩ := mapPairs_total (Maps.keys_nodup _) ht
      (Maps.mem_toList.mpr (reservesHashmap_mint h.wellFormed hr))
    exact ⟨d, hget, mapAmounts_of_getElem? hget ▸ hd.amount r hr⟩
  -- both pools count by the reserve that comes first
  obtain ⟨first, hfirst, hmem⟩ := h.wellFormed.head?
  obtain ⟨second, hsecond, hmem'⟩ := h.wellFormed_right.head?
  obtain ⟨d, hget, hdval⟩ := hshare first hmem
  obtain ⟨d', hget', hdval'⟩ := hshare second (h.active.mem_iff.mpr hmem')
  rw [List.headD_eq_head?_getD, List.headD_eq_head?_getD, hfirst, hsecond, Option.getD_some,
    Option.getD_some]
  obtain ⟨hne, n, hn, rfl⟩ := (getEligibleLpTokens_iff hfirst hget).mp hl
  rw [hdval] at hn
  have hx : 0 < first.tokens.val := Nat.pos_of_ne_zero hne
  rw [getEligibleLpTokens_iff hsecond hget', hdval', ← Nat.pos_iff_ne_zero, and_iff_right hx]
  refine and_congr_right (fun hy => ?_)
  rw [← lp_eq_iff hd.ratio_pos hx hy, ← hn]
  constructor
  · rintro ⟨n', hn', heq⟩
    rw [eq_of_nonzero_eq heq]
    exact hn'
  · exact fun hn' => ⟨n, hn', rfl⟩

/-! ## The invariant -/

/-- Two additions fail together if the sum does not fit. -/
theorem tryAdd_tryAdd (x y z : Decimal) : (tryAdd (ε := AmmError) x y >>= fun c => tryAdd c z)
    = okOr (Fixed.ofRaw? (x.raw + y.raw + z.raw)) DecimalError.mathOverflow := by
  unfold tryAdd Fixed.tryAdd
  by_cases hfit : x.raw + y.raw < 2 ^ 192
  · rw [show Fixed.ofRaw? (x.raw + y.raw) = some (⟨_, hfit⟩ : Decimal) from dif_pos hfit]
    rfl
  · rw [show (Fixed.ofRaw? (x.raw + y.raw) : Option Decimal) = none from dif_neg hfit,
      show (Fixed.ofRaw? (x.raw + y.raw + z.raw) : Option Decimal) = none from
        dif_neg (by omega)]
    rfl

theorem sum_permuted {l l' : List TokenAmount} (h : l.Perm l') :
    l.foldlM (fun acc el => tryAdd (ε := AmmError) acc (ofU64 el)) Decimal.zero
      = l'.foldlM (fun acc el => tryAdd acc (ofU64 el)) Decimal.zero := by
  refine Lists.foldlM_perm (fun b a a' => ?_) h _
  rw [tryAdd_tryAdd, tryAdd_tryAdd, Nat.add_right_comm]

/-- The balances of a pool. -/
def balances (pool : Pool) : List ℕ := (pool.activeReserves.map (·.tokens)).map (·.val)

/-- **The condition** on the invariant: the product of the scaled-down
reserves, truncated after each factor, is the same in both orders. -/
def ProductsAgree (p q : Pool) : Prop :=
  truncatedProduct (sumExponent p.balances) p.balances
    = truncatedProduct (sumExponent p.balances) q.balances

instance (p q : Pool) : Decidable (ProductsAgree p q) :=
  inferInstanceAs (Decidable ((_ : ℕ) = _))

section New

variable {m : PowSqrt} {amp : U64} {l l' : List TokenAmount} {s : StableCurveInvariant}

/-- Equal products give the same coefficients. -/
theorem new_permuted (hm : m.Lawful) (hperm : l.Perm l') (hlen : l.length ≤ 10)
    (hprod : truncatedProduct (sumExponent (l.map (·.val))) (l.map (·.val))
      = truncatedProduct (sumExponent (l.map (·.val))) (l'.map (·.val)))
    (h : StableCurveInvariant.new m amp l = .ok s) :
    StableCurveInvariant.new m amp l' = .ok s := by
  simp only [StableCurveInvariant.new, bind_eq_ok, PowSqrt.pow_eq_ok] at h ⊢
  obtain ⟨sum, hsum, out, hout, coef, hcoef, z, hz, hrest⟩ := h
  refine ⟨sum, sum_permuted hperm ▸ hsum, out, hout, coef, hcoef, z, ?_, hperm.length_eq ▸ hrest⟩
  have hraw := sum_whole (n := 0) (by rw [zero_raw, Nat.zero_mul]) hsum
  rw [Nat.zero_add] at hraw
  have hexp : out.exponent = sumExponent (l.map (·.val)) := by
    rw [(scaleDownValue_eq hout).1, hraw]
    rfl
  have hcoef' := pow_whole hm (k := 1000) rfl hcoef
  rw [hexp] at hcoef'
  -- no reserve is above the sum
  have hparts : ∀ x ∈ l', x.val * wad / 1000 ^ sumExponent (l.map (·.val)) ≤ 1000 * wad := by
    intro x hx
    have hbound := div_scaleExponent_le sum
    rw [hraw] at hbound
    refine (Nat.div_le_div_right (Nat.mul_le_mul_right _ ?_)).trans hbound
    exact List.le_sum_of_mem (List.mem_map.mpr ⟨x, hperm.mem_iff.mpr hx, rfl⟩)
  obtain ⟨z', hz', -⟩ := scaledProduct_ok hcoef' hparts (hperm.length_eq ▸ hlen)
  have heq : z' = z := Fixed.ext (by
    rw [scaledProduct_raw hcoef' hz', scaledProduct_raw hcoef' hz, hprod])
  exact heq ▸ hz'

/-- The same coefficients come from equal products. -/
theorem products_of_new (hm : m.Lawful) (hamp : 1 ≤ amp.val) (hperm : l.Perm l')
    (hlen : 2 ≤ l.length) (hlen' : l.length ≤ 10) (hpos : ∀ x ∈ l, 1 ≤ x.val)
    (h : StableCurveInvariant.new m amp l = .ok s)
    (h' : StableCurveInvariant.new m amp l' = .ok s) :
    truncatedProduct (sumExponent (l.map (·.val))) (l.map (·.val))
      = truncatedProduct (sumExponent (l.map (·.val))) (l'.map (·.val)) := by
  have hvals := hperm.map (·.val)
  have hsum := one_le_sum_reserves (List.length_pos_iff.mp (by omega)) hpos
  have hc := (StableCurveInvariant.constructed hm (by omega) hsum h).linear
  have hc' := (StableCurveInvariant.constructed hm (hperm.length_eq ▸ by omega)
    (hvals.sum_eq ▸ hsum) h').linear
  unfold sumExponent at hc hc' ⊢
  rw [hc, ← hperm.length_eq, ← hvals.sum_eq] at hc'
  have hself : 2 ≤ l.length ^ l.length :=
    hlen.trans (Nat.le_self_pow (by omega) _)
  have hcoef : 2 ≤ amp.val * l.length ^ l.length :=
    hself.trans (Nat.le_mul_of_pos_left _ hamp)
  exact Nat.eq_of_mul_eq_mul_left (by omega : 0 < l.length ^ l.length)
    (Nat.eq_of_mul_eq_mul_left (by omega) hc')

end New

theorem computeInvariant_permuted (h : Permuted p q) {m : PowSqrt} (hm : m.Lawful)
    (hprod : ProductsAgree p q) {amp : U64} {d : Decimal}
    (hd : computeInvariant m amp (p.activeReserves.map (·.tokens)) = .ok d) :
    computeInvariant m amp (q.activeReserves.map (·.tokens)) = .ok d := by
  simp only [computeInvariant, bind_eq_ok] at hd ⊢
  obtain ⟨u, hamp, s, hs, hd⟩ := hd
  refine ⟨u, hamp, s, new_permuted hm (h.active.map _) ?_ hprod hs, hd⟩
  rw [List.length_map, h.wellFormed.length]
  exact h.wellFormed.le_max.trans (by decide)

/-- **Recomputing** stores the same. -/
theorem updateCurveInvariant_permuted (h : Permuted p q) {m : PowSqrt} (hm : m.Lawful)
    (hprod : ProductsAgree p q) (hp : p.updateCurveInvariant m = .ok p') :
    ∃ q', q.updateCurveInvariant m = .ok q' ∧ q'.curve = p'.curve ∧ Permuted p' q' := by
  unfold updateCurveInvariant at hp ⊢
  rw [h.curve]
  cases hcurve : p.curve with
  | constProd =>
      rw [hcurve] at hp
      simp only [pure_eq_ok] at hp ⊢
      subst hp
      exact ⟨q, rfl, h.curve, h⟩
  | stable amplifier old =>
      rw [hcurve] at hp
      simp only [bind_eq_ok, pure_eq_ok] at hp ⊢
      obtain ⟨invariant, hinv, rfl⟩ := hp
      refine ⟨_, ⟨invariant, ?_, rfl⟩, rfl, ⟨h.wellFormed.slots, h.wellFormed.two_le,
        h.wellFormed.le_max, h.wellFormed.mints_nodup⟩, h.active, ?_⟩
      · unfold freshInvariant at hinv ⊢
        rw [← (h.active.map _).any_eq]
        split at hinv
        · rename_i hempty
          rw [if_pos hempty]
          exact hinv
        · rename_i hfull
          rw [if_neg hfull]
          exact computeInvariant_permuted h hm hprod hinv
      · conv_lhs => rw [h.rest]
        rfl

/-- The products agree where at most the last factor is truncated. -/
theorem productsAgree_of_exact (h : Permuted p q)
    (hexact : 3 * (sumExponent p.balances * (p.dimension.val - 1)) ≤ 18) :
    ProductsAgree p q := by
  have hperm : p.balances.Perm q.balances := (h.active.map _).map _
  have hlen : p.balances.length = p.dimension.val := by
    rw [balances, List.length_map, List.length_map, h.wellFormed.length]
  have hlen' : q.balances.length = p.dimension.val := hperm.length_eq ▸ hlen
  have htwo := h.wellFormed.two_le
  unfold ProductsAgree
  rw [truncatedProduct_exact (hlen ▸ htwo) (hlen ▸ hexact),
    truncatedProduct_exact (hlen' ▸ htwo) (hlen' ▸ hexact), hperm.prod_eq, hlen, hlen']

/-- They always agree for two reserves, and for more while the pool is not
too large. -/
theorem productsAgree_small (h : Permuted p q)
    (hsmall : p.dimension.val = 2 ∨ p.dimension.val = 3 ∧ p.balances.sum ≤ 10 ^ 12
      ∨ p.dimension.val = 4 ∧ p.balances.sum ≤ 10 ^ 9) : ProductsAgree p q := by
  have hlen := h.wellFormed.length
  refine productsAgree_of_exact h ?_
  have hexp : ∀ k, k ≤ 20 → p.balances.sum ≤ 1000 ^ (k + 1) → sumExponent p.balances ≤ k :=
    fun k hk hle => scaleExponent_le hk (Nat.mul_le_mul_right wad hle)
  rcases hsmall with hdim | ⟨hdim, hsum⟩ | ⟨hdim, hsum⟩
  · have : sumExponent p.balances ≤ 6 := sumExponent_le (by
      rw [List.length_map, hlen, hdim]
      norm_num)
    rw [hdim]
    omega
  · have := hexp 3 (by norm_num) (hsum.trans (by norm_num))
    rw [hdim]
    omega
  · have := hexp 2 (by norm_num) (hsum.trans (by norm_num))
    rw [hdim]
    omega

/-- **The order of the reserves.** Pools that differ by the order of their
reserves pay the same for redemptions and swaps; they give the same LP
tokens for a deposit if and only if the rounding of their first reserves
agrees. They store the same invariant if the truncated products agree, and
only then compute it from the same coefficients; so they do for two
reserves, and for more while the pool is not too large. -/
theorem order_of_reserves (h : Permuted p q) {m : PowSqrt} (hm : m.Lawful) :
    (∀ maxTokens supply p' result, p.depositTokens maxTokens supply = .ok (p', result) →
      ((∃ q', q.depositTokens maxTokens supply = .ok (q', result) ∧ Permuted p' q')
        ↔ RoundingAgrees p q maxTokens supply))
    ∧ (∀ minTokens burned supply p' tokens,
      p.redeemTokens minTokens burned supply = .ok (p', tokens) →
      ∃ q' tokens', q.redeemTokens minTokens burned supply = .ok (q', tokens')
        ∧ tokens.Equiv tokens' ∧ Permuted p' q')
    ∧ (∀ sellMint n buyMint p' received, p.swap m sellMint n buyMint = .ok (p', received) →
      ∃ q', q.swap m sellMint n buyMint = .ok (q', received) ∧ Permuted p' q')
    ∧ (ProductsAgree p q → ∀ p', p.updateCurveInvariant m = .ok p' →
      ∃ q', q.updateCurveInvariant m = .ok q' ∧ q'.curve = p'.curve ∧ Permuted p' q')
    ∧ (∀ amp : U64, 1 ≤ amp.val → (∀ r ∈ p.activeReserves, 1 ≤ r.tokens.val) → ∀ s,
      StableCurveInvariant.new m amp (p.activeReserves.map (·.tokens)) = .ok s →
      (StableCurveInvariant.new m amp (q.activeReserves.map (·.tokens)) = .ok s
        ↔ ProductsAgree p q))
    ∧ (p.dimension.val = 2 ∨ p.dimension.val = 3 ∧ p.balances.sum ≤ 10 ^ 12
      ∨ p.dimension.val = 4 ∧ p.balances.sum ≤ 10 ^ 9 → ProductsAgree p q) := by
  refine ⟨fun _ _ _ _ => deposit_permuted_iff h, fun _ _ _ _ _ => redeem_permuted h,
    fun _ _ _ _ _ => swap_permuted h, fun hprod _ => updateCurveInvariant_permuted h hm hprod, ?_,
    productsAgree_small h⟩
  intro amp hamp hpos s hs
  have hperm := h.active.map (·.tokens)
  have hlen : (p.activeReserves.map (·.tokens)).length = p.dimension.val := by
    rw [List.length_map, h.wellFormed.length]
  have htwo := h.wellFormed.two_le
  have hten : p.dimension.val ≤ 10 := h.wellFormed.le_max.trans (by decide)
  constructor
  · exact fun hs' => products_of_new hm hamp hperm (hlen ▸ htwo) (hlen ▸ hten) (fun x hx => by
      obtain ⟨r, hr, rfl⟩ := List.mem_map.mp hx
      exact hpos r hr) hs hs'
  · exact fun hprod => new_permuted hm hperm (hlen ▸ hten) hprod hs

/-! ## One pool in two orders -/

/-- The uneven pool with its reserves in the other order. -/
def reversedPool : Pool :=
  { unevenPool with reserves := [⟨1000000000, 2, 4⟩, ⟨10, 1, 3⟩, default, default] }

theorem reversedPool_permuted : Permuted unevenPool reversedPool :=
  ⟨unevenPool_wellFormed, .swap _ _ _, rfl⟩

/-- A deposit that doubles the pool gives the same in both orders. -/
theorem order_of_reserves_doubled :
    ∃ p' q' result,
      unevenPool.depositTokens (limitsMap [⟨1, 10⟩, ⟨2, 1000000000⟩]) 1000000 = .ok (p', result)
      ∧ reversedPool.depositTokens (limitsMap [⟨1, 10⟩, ⟨2, 1000000000⟩]) 1000000
        = .ok (q', result) ∧ Permuted p' q' := by
  have hok : (unevenPool.depositTokens (limitsMap [⟨1, 10⟩, ⟨2, 1000000000⟩]) 1000000).isOk
      = true := by
    decide +kernel
  cases hd : unevenPool.depositTokens (limitsMap [⟨1, 10⟩, ⟨2, 1000000000⟩]) 1000000 with
  | error e => rw [hd] at hok; cases hok
  | ok pr =>
      obtain ⟨q', hq', hperm⟩ := ((order_of_reserves reversedPool_permuted
        PowSqrt.reference_lawful).1 _ _ _ _
        hd).mpr (by decide +kernel)
      exact ⟨pr.1, q', pr.2, rfl, hq', hperm⟩

/-- One token of each mint earns a tenth of the supply, or nothing. -/
theorem deposit_depends_on_order :
    ¬ ∀ p q : Pool, Permuted p q → (∀ r ∈ p.activeReserves, 0 < r.tokens) →
      ∀ maxTokens supply p' result, p.depositTokens maxTokens supply = .ok (p', result) →
      ∃ q' result', q.depositTokens maxTokens supply = .ok (q', result')
        ∧ result'.lpTokensToDistribute = result.lpTokensToDistribute := by
  intro h
  have hgiven : ((unevenPool.depositTokens (limitsMap [⟨1, 1⟩, ⟨2, 1⟩]) 1000000).toOption.any
      (fun pr => pr.2.lpTokensToDistribute = some 100000)) = true := by
    decide +kernel
  have hnothing : ((reversedPool.depositTokens (limitsMap [⟨1, 1⟩, ⟨2, 1⟩]) 1000000).toOption.all
      (fun pr => pr.2.lpTokensToDistribute = none)) = true := by
    decide +kernel
  cases hd : unevenPool.depositTokens (limitsMap [⟨1, 1⟩, ⟨2, 1⟩]) 1000000 with
  | error e => rw [hd] at hgiven; cases hgiven
  | ok pr =>
      obtain ⟨q', result', hq', hsame⟩ :=
        h unevenPool reversedPool reversedPool_permuted (by decide) _ _ _ _ hd
      rw [hd, Except.toOption, Option.any_some, decide_eq_true_eq] at hgiven
      rw [hq', Except.toOption, Option.all_some, decide_eq_true_eq] at hnothing
      rw [hgiven, hnothing] at hsame
      cases hsame

end Pool

end SolanaAmm.Amm
