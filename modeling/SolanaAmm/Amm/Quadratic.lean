import SolanaAmm.Amm.Swapping
import SolanaAmm.Amm.Newton

/-!
# Amm — Quadratic

What solving the quadratic of a swap on a stable curve comes to in whole
numbers. Sums and products of balances are exact, so are the coefficient
of the square and the linear term; the constant term, the square of the
linear term, the square root and the quotient are truncated.
-/

namespace SolanaAmm.Amm

open Result Decimal

/-! ## Sums of whole numbers -/

theorem foldSum_ofU64 {l : List TokenAmount} {z : Decimal}
    (h : foldSum (l.map ofU64) = .ok z) : z.raw = (l.map (·.val)).sum * wad := by
  unfold foldSum at h
  rw [List.foldlM_map] at h
  have hz := sum_whole (n := 0) (by rw [zero_raw, Nat.zero_mul]) h
  rwa [Nat.zero_add] at hz

namespace Pool

variable {pool : Pool} {sellMint buyMint : Pubkey}

/-- The exact sum of all balances but the bought one, with `n` more tokens
of the sold mint. -/
def otherSum (pool : Pool) (sellMint : Pubkey) (n : ℕ) (buyMint : Pubkey) : ℕ :=
  ((pool.activeReserves.filter (fun r => r.mint ≠ buyMint)).map
    (fun r => r.tokens.val + single sellMint n r.mint)).sum

theorem sum_soldOrNeutral (hp : pool.WellFormed) {n : TokenAmount}
    {balances : List Decimal} {z : Decimal}
    (hb : soldOrNeutralBalances pool.reservesHashmap sellMint n buyMint = .ok balances)
    (hz : foldSum balances = .ok z) :
    z.raw = pool.otherSum sellMint n.val buyMint * wad := by
  obtain ⟨sums, rfl, hsums⟩ := soldOrNeutral_whole hb
  rw [foldSum_ofU64 hz, hsums, otherSum,
    (((reservesHashmap_perm hp).filter _).map _).sum_eq, List.filter_map, List.map_map]
  rfl

theorem reservesHashmap_size (hp : pool.WellFormed) :
    (Word.wrap pool.reservesHashmap.size : U64).val = pool.dimension.val := by
  have hsize : pool.reservesHashmap.size = pool.dimension.val := by
    rw [← Std.TreeMap.length_toList, (reservesHashmap_perm hp).length_eq, List.length_map,
      hp.length]
  rw [hsize]
  exact Word.wrap_val pool.dimension.isLt

end Pool

/-! ## The quadratic -/

/-- The quadratic `a y² + l y - c` of a swap, in units of `10 ^ -18` of
tokens scaled down by `1000 ^ exponent`. -/
structure Quadratic where
  exponent : ℕ
  a : ℕ
  l : ℤ
  c : ℕ

namespace Quadratic

/-- The square root of the discriminant. -/
def sqrt (q : Quadratic) : ℕ :=
  Nat.sqrt ((q.l.natAbs * q.l.natAbs / wad + 4 * q.a * q.c) * wad)

/-- The positive root, scaled up again. -/
def balance (q : Quadratic) : ℕ :=
  (q.sqrt - q.l).toNat / (2 * q.a) * 1000 ^ q.exponent

end Quadratic

/-- The quadratic with `a = A n^n`, `l = a sum - (a - 1) d` and
`c = dPow / (n^n product)`, the sum and the product scaled down. -/
def truncatedQuadratic (n amp exponent d dPow sum product : ℕ) : Quadratic :=
  let scale := 1000 ^ exponent
  let a := amp * n ^ n
  { exponent
    a
    l := a * (sum * wad / scale : ℕ) - d * (a - 1 : ℕ)
    c := dPow * wad / (n ^ n * (product * wad / scale ^ (n - 1))) }

/-- The quadratic of a swap, from the invariant scaled down and its power. -/
def swapQuadratic (n amp : ℕ) (d : ScaleDownOutput) (dPow : Decimal) (sum product : ℕ) :
    Quadratic :=
  truncatedQuadratic n amp d.exponent d.scaleDown.raw dPow.raw sum product

/-- The quadratic of a swap, from the stored invariant `d` in units. -/
def storedQuadratic (m : PowSqrt) (n amp d sum product : ℕ) : Quadratic :=
  let scaled := d / 1000 ^ scaleExponent d
  truncatedQuadratic n amp (scaleExponent d) scaled (m.powRaw scaled (n + 1)) sum product

theorem thousandPow_raw {exp : ℕ} {scale : Decimal} (h : thousandPow exp = .ok scale) :
    scale.raw = 1000 ^ exp * wad := by
  simp only [thousandPow, bind_eq_ok, okOr_eq_ok, pure_eq_ok] at h
  obtain ⟨p, hp, rfl⟩ := h
  rw [ofU64_raw, Word.ofNat?_eq_some.mp hp]

/-- The scale fits into a `u64`. -/
theorem exponent_le_of_thousandPow {exp : ℕ} {scale : Decimal} (h : thousandPow exp = .ok scale) :
    exp ≤ 6 := by
  simp only [thousandPow, bind_eq_ok, okOr_eq_ok, pure_eq_ok] at h
  obtain ⟨p, hp, -⟩ := h
  by_contra hlt
  have hpow : 1000 ^ 7 ≤ 1000 ^ exp := Nat.pow_le_pow_right (by decide) (by omega)
  have hp' := Word.ofNat?_eq_some.mp hp
  have := p.isLt
  omega

/-- The linear term, with the sign its flag says. -/
theorem linearTerm_eq_ok {second first b : Decimal} {negative : Bool}
    (h : linearTerm second first = .ok (b, negative)) :
    (second.raw - first.raw : ℤ) = if negative then -(b.raw : ℤ) else b.raw := by
  unfold linearTerm at h
  split at h
  · rename_i val hval
    rw [pure_eq_ok, Prod.mk.injEq] at h
    obtain ⟨rfl, rfl⟩ := h
    obtain ⟨hle, hraw⟩ := trySub_eq_ok.mp hval
    simp only [Bool.false_eq_true, if_false]
    omega
  · simp only [bind_eq_ok, pure_eq_ok, Prod.mk.injEq, trySub_eq_ok] at h
    obtain ⟨val, ⟨hle, hraw⟩, rfl, rfl⟩ := h
    simp only [if_true]
    omega

/-- What a successful solution found: the quadratic, whose coefficients were
in range, and its root. -/
structure Solved (m : PowSqrt) (n amp : ℕ) (d : Decimal) (sum product : ℕ) (balance : ℕ)
    (out : ScaleDownOutput) (dPow : Decimal) : Prop where
  scaled : scaleDownValue d = .ok out
  power : m.tryPow out.scaleDown (n + 1) = some dPow
  exponent_le : out.exponent ≤ 6
  product_ge : 10 ^ 6 ≤ product * wad / (1000 ^ out.exponent) ^ (n - 1)
  a_pos : 0 < amp * n ^ n
  l_le : (swapQuadratic n amp out dPow sum product).l
    ≤ (swapQuadratic n amp out dPow sum product).sqrt
  balance_eq : balance = (swapQuadratic n amp out dPow sum product).balance

/-- **The root** that the equation finds. -/
theorem getBuyReserveBalanceAfterSwap_solved {m : PowSqrt} (hm : m.Lawful) {n amp : U64}
    {d sum product b : Decimal} {σ π : ℕ} (hsum : sum.raw = σ * wad)
    (hproduct : product.raw = π * wad)
    (h : getBuyReserveBalanceAfterSwap m n (ofU64 amp) d sum product = .ok b) :
    ∃ out dPow, Solved m n.val amp.val d σ π b.raw out dPow := by
  simp only [getBuyReserveBalanceAfterSwap, bind_eq_ok, PowSqrt.pow_eq_ok, PowSqrt.sqrt_eq_ok,
    tryDiv_eq_ok, tryMul_eq_ok, tryAdd_eq_ok, trySub_eq_ok, ensure_eq_ok, Prod.exists] at h
  obtain ⟨out, hout, scale, hscale, scalePow, hscalePow, p, ⟨-, hp⟩, -, hmin, s, ⟨-, hs⟩, nn, hnn,
    nA, hnA, nA1, ⟨hone, hnA1⟩, first, hfirst, quad, hquad, second, hsecond, lin, negative, hlin,
    dPow, hdPow, nProduct, hnProduct, c, ⟨-, hc⟩, bSquare, hbSquare, fourA, hfourA, fourAC,
    hfourAC, disc, hdisc, root, hroot, twoA, htwoA, h⟩ := h
  have hlin' := linearTerm_eq_ok hlin
  -- whatever the sign, the numerator is the square root less the linear term
  obtain ⟨num, hnum, q, hq, up, hup, hb⟩ : ∃ num : Decimal,
      (num.raw : ℤ) = root.raw - (second.raw - first.raw : ℤ)
        ∧ ∃ q : Decimal, q.raw = num.raw * wad / twoA.raw ∧ ∃ up : Decimal,
          m.tryPow thousand out.exponent = some up ∧ b.raw = q.raw * up.raw / wad := by
    rw [hlin']
    cases negative with
    | true =>
        simp only [if_true, bind_eq_ok, tryAdd_eq_ok, tryDiv_eq_ok, PowSqrt.pow_eq_ok,
          tryMul_eq_ok] at h
        obtain ⟨num, hnum, q, ⟨-, hq⟩, hrest⟩ := h
        exact ⟨num, by rw [if_pos rfl]; omega, q, hq, hrest⟩
    | false =>
        simp only [Bool.false_eq_true, if_false, bind_eq_ok, okOr_eq_ok, Fixed.trySub_eq_some,
          tryDiv_eq_ok, PowSqrt.pow_eq_ok, tryMul_eq_ok] at h
        obtain ⟨num, ⟨hle, hnum⟩, q, ⟨-, hq⟩, hrest⟩ := h
        exact ⟨num, by rw [if_neg (by decide)]; omega, q, hq, hrest⟩
  -- every intermediate value in units
  have hscale' := thousandPow_raw hscale
  have hscalePow' := pow_whole hm hscale' hscalePow
  rw [Fixed.div_whole_raw wad_pos hproduct hscalePow'] at hp
  rw [Fixed.div_whole_raw wad_pos hsum hscale'] at hs
  have hnn' := pow_whole hm (ofU64_raw n) hnn
  have ha : nA.raw = amp.val * n.val ^ n.val * wad := by
    rw [hnA, Fixed.mul_whole_raw wad_pos hnn', ofU64_raw]
    ring
  have ha1 : nA1.raw = (amp.val * n.val ^ n.val - 1) * wad := by
    rw [hnA1, ha, one_raw, Nat.sub_mul, Nat.one_mul]
  rw [Nat.mul_comm, Fixed.mul_whole_raw wad_pos ha1] at hfirst
  have hquad' : quad.raw = amp.val * n.val ^ n.val * wad := by
    rw [hquad, Fixed.mul_whole_raw wad_pos (ofU64_raw amp), hnn', Nat.mul_assoc]
  rw [Fixed.mul_whole_raw wad_pos hquad', hs] at hsecond
  rw [Fixed.mul_whole_raw wad_pos hnn', hp] at hnProduct
  rw [hnProduct] at hc
  have hsq := (hm.pow_chain (by decide) hbSquare).two_raw
  have hfour : fourA.raw = 4 * (amp.val * n.val ^ n.val) * wad := by
    rw [hfourA, Fixed.mul_whole_raw wad_pos (ofU64_raw 4), hquad']
    exact (Nat.mul_assoc _ _ _).symm
  rw [Fixed.mul_whole_raw wad_pos hfour] at hfourAC
  have htwo : twoA.raw = 2 * (amp.val * n.val ^ n.val) * wad := by
    rw [htwoA, Fixed.mul_whole_raw wad_pos (ofU64_raw 2), hquad']
    exact (Nat.mul_assoc _ _ _).symm
  have hup' := pow_whole hm (k := 1000) rfl hup
  have hbq : b.raw = q.raw * 1000 ^ out.exponent := by
    rw [hb, Nat.mul_comm, Fixed.mul_whole_raw wad_pos hup', Nat.mul_comm]
  rw [htwo, Nat.mul_div_mul_right _ _ wad_pos] at hq
  have hlinear : (second.raw - first.raw : ℤ)
      = (swapQuadratic n.val amp.val out dPow σ π).l := by
    rw [hsecond, hfirst, Nat.cast_mul (amp.val * n.val ^ n.val), Nat.cast_mul (_ - 1),
      Int.mul_comm ((amp.val * n.val ^ n.val - 1 : ℕ) : ℤ)]
    rfl
  have habs : (swapQuadratic n.val amp.val out dPow σ π).l.natAbs = lin.raw := by
    rw [← hlinear, hlin']
    split
    · rw [Int.natAbs_neg, Int.natAbs_natCast]
    · exact Int.natAbs_natCast _
  have hsqrt : root.raw = (swapQuadratic n.val amp.val out dPow σ π).sqrt := by
    rw [hm.sqrt_floor hroot, hdisc, hsq, hfourAC, hc, Quadratic.sqrt, habs]
    rfl
  rw [hlinear, hsqrt] at hnum
  refine ⟨out, dPow, hout, hdPow, exponent_le_of_thousandPow hscale, ?_, ?_, ?_, ?_⟩
  · rw [← hp]
    exact hmin
  · refine Nat.pos_of_ne_zero (fun h0 => ?_)
    rw [ha, h0, Nat.zero_mul, one_raw] at hone
    exact absurd hone (by decide)
  · have := Int.natCast_nonneg num.raw
    omega
  · rw [Quadratic.balance, ← hnum, Int.toNat_natCast, hbq, hq]
    rfl

/-! ## Below the root -/

theorem le_sqrt_iff {x : ℤ} {n : ℕ} : x ≤ Nat.sqrt n ↔ x ≤ 0 ∨ x ^ 2 ≤ n := by
  rcases Int.le_total x 0 with hx | hx
  · exact iff_of_true (hx.trans (Int.natCast_nonneg _)) (.inl hx)
  · obtain ⟨k, rfl⟩ := Int.eq_ofNat_of_zero_le hx
    have h : k ≤ Nat.sqrt n ↔ k ^ 2 ≤ n := Nat.le_sqrt'
    constructor
    · intro hk
      exact .inr (by exact_mod_cast h.mp (by exact_mod_cast hk))
    · rintro (h0 | hk)
      · have : k = 0 := by omega
        subst this
        exact Int.natCast_nonneg _
      · exact_mod_cast h.mpr (by exact_mod_cast hk)

namespace Quadratic

variable {q : Quadratic} {w : ℕ}

/-- At the first balance above `w` whole tokens, counted in units, the
quadratic is not positive. -/
def NotPositiveAbove (q : Quadratic) (w : ℕ) : Prop :=
  let y := w * wad / 1000 ^ q.exponent + 1
  2 * q.a * y + q.l ≤ 0
    ∨ (2 * q.a * y + q.l) ^ 2 ≤ ((q.l.natAbs * q.l.natAbs / wad + 4 * q.a * q.c) * wad : ℕ)

instance (q : Quadratic) (w : ℕ) : Decidable (q.NotPositiveAbove w) :=
  inferInstanceAs (Decidable (_ ∨ _))

/-- **The balance** is above `w` tokens exactly if the quadratic is not
positive above them. -/
theorem lt_balance_iff (ha : 0 < q.a) (hle : q.l ≤ q.sqrt) :
    w * wad < q.balance ↔ q.NotPositiveAbove w := by
  have hscale : 0 < 1000 ^ q.exponent := Nat.pow_pos (by decide)
  rw [balance, ← Nat.div_lt_iff_lt_mul hscale, Nat.lt_iff_add_one_le,
    Nat.le_div_iff_mul_le (by omega)]
  dsimp only [NotPositiveAbove]
  rw [← le_sqrt_iff]
  generalize w * wad / 1000 ^ q.exponent + 1 = y
  have hnum : (((q.sqrt : ℤ) - q.l).toNat : ℤ) = q.sqrt - q.l := Int.toNat_of_nonneg (by omega)
  have hcast : y * (2 * q.a) ≤ ((q.sqrt : ℤ) - q.l).toNat
      ↔ (2 * q.a * y : ℤ) ≤ q.sqrt - q.l := by
    rw [← hnum, Nat.mul_comm]
    exact_mod_cast Iff.rfl
  rw [hcast]
  show _ ↔ _ ≤ (q.sqrt : ℤ)
  omega

end Quadratic

theorem Solved.quadratic_eq {m : PowSqrt} {n amp : ℕ} {d : Decimal} {sum product balance : ℕ}
    {out : ScaleDownOutput} {dPow : Decimal}
    (h : Solved m n amp d sum product balance out dPow) :
    swapQuadratic n amp out dPow sum product = storedQuadratic m n amp d.raw sum product := by
  obtain ⟨hexp, hraw, -⟩ := scaleDownValue_eq h.scaled
  dsimp only [swapQuadratic, storedQuadratic]
  rw [← hexp] at hraw ⊢
  rw [← hraw, PowSqrt.powRaw_eq h.power]

/-- **The root** is above `w` tokens if and only if the quadratic is not
positive at the first balance above them. -/
theorem getBuyReserveBalanceAfterSwap_lt_iff {m : PowSqrt} (hm : m.Lawful) {n amp : U64}
    {d sum product b : Decimal} {σ π w : ℕ} (hsum : sum.raw = σ * wad)
    (hproduct : product.raw = π * wad)
    (h : getBuyReserveBalanceAfterSwap m n (ofU64 amp) d sum product = .ok b) :
    w * wad < b.raw ↔ (storedQuadratic m n.val amp.val d.raw σ π).NotPositiveAbove w := by
  obtain ⟨out, dPow, hsolved⟩ := getBuyReserveBalanceAfterSwap_solved hm hsum hproduct h
  rw [hsolved.balance_eq, ← hsolved.quadratic_eq]
  exact Quadratic.lt_balance_iff hsolved.a_pos hsolved.l_le

/-! ## A root in sight -/

/-- A constant term that outweighs the linear term shows a root. -/
theorem Quadratic.notPositiveAbove_zero {q : Quadratic} (ha : 0 < q.a)
    (h : q.a + q.l + wad ≤ q.c * wad) : q.NotPositiveAbove 0 := by
  right
  rw [Nat.zero_mul, Nat.zero_div, Nat.zero_add, Nat.cast_one, Int.mul_one]
  -- the square of the linear term loses less than a unit
  have hsq : q.l ^ 2 ≤ ((q.l.natAbs * q.l.natAbs / wad : ℕ) : ℤ) * wad + wad := by
    have hlt := Nat.lt_mul_div_succ (q.l.natAbs * q.l.natAbs) wad_pos
    rw [Nat.mul_add, Nat.mul_one, Nat.mul_comm wad] at hlt
    have hcast := (Nat.cast_lt (α := ℤ)).mpr hlt
    rw [Nat.cast_mul, Int.natAbs_mul_self' q.l, Nat.cast_add, Nat.cast_mul] at hcast
    rw [pow_two]
    exact hcast.le
  have ha' : (1 : ℤ) ≤ q.a := by exact_mod_cast ha
  have hmul : (q.a : ℤ) * (q.a + q.l + wad) ≤ q.a * (q.c * wad) :=
    mul_le_mul_of_nonneg_left h (by positivity)
  have hwad : (wad : ℤ) ≤ q.a * wad := le_mul_of_one_le_left (Int.natCast_nonneg _) ha'
  generalize q.l.natAbs * q.l.natAbs / wad = square at hsq ⊢
  rw [Nat.cast_mul, Nat.cast_add, Nat.cast_mul, Nat.cast_mul, Nat.cast_ofNat]
  linarith

/-- **The condition** on the invariant `d` of a stable curve, in units, and
the sum and the product of the other balances: `d ≥ 1` and
`4 n^n product (a sum + (2 d + a d / 10^18) / 10^18) ≤ 10^18 d^n` with
`a = A n^n`. -/
def RootVisible (n amp d sum product : ℕ) : Prop :=
  let a := amp * n ^ n
  wad ≤ d
    ∧ 4 * n ^ n * product * (a * (sum * wad ^ 2 + d) + 2 * d * wad) * wad ^ (n - 2)
      ≤ d ^ n * wad

instance (n amp d sum product : ℕ) : Decidable (RootVisible n amp d sum product) :=
  inferInstanceAs (Decidable (_ ∧ _))

/-- One unit more of a large number at most doubles its power. -/
theorem succ_pow_le {t k : ℕ} (ht : wad ≤ t) (hk : k ≤ 5) : (t + 1) ^ k ≤ 2 * t ^ k := by
  have hwad : (wad + 1) ^ k ≤ 2 * wad ^ k :=
    (by decide : ∀ k ≤ 5, (wad + 1) ^ k ≤ 2 * wad ^ k) k hk
  refine Nat.le_of_mul_le_mul_right ?_ (Nat.pow_pos (n := k) wad_pos)
  calc (t + 1) ^ k * wad ^ k = ((t + 1) * wad) ^ k := (Nat.mul_pow _ _ _).symm
    _ ≤ (t * (wad + 1)) ^ k := Nat.pow_le_pow_left (by rw [Nat.mul_add, Nat.add_mul]; omega) _
    _ = t ^ k * (wad + 1) ^ k := Nat.mul_pow _ _ _
    _ ≤ t ^ k * (2 * wad ^ k) := Nat.mul_le_mul_left _ hwad
    _ = 2 * t ^ k * wad ^ k := by ring

/-- Scaling an invariant down and multiplying it loses at most three
quarters of the power. -/
theorem pow_le_four_mul {x z : Decimal} {d k n : ℕ} (hn : n ≤ 4) (hk : 0 < k)
    (hx : x.raw = d / k) (hwad : wad ≤ x.raw) (h : Fixed.PowChain x (n + 1) z) :
    d ^ (n + 1) ≤ 4 * (z.raw * wad ^ n) * k ^ (n + 1) := by
  have hpow := h.pow_le wad_pos
  rw [Nat.add_sub_cancel, max_eq_left hwad] at hpow
  have htrunc : 2 * (n * x.raw ^ n) ≤ x.raw ^ (n + 1) := by
    have hlarge : 2 * n ≤ x.raw := le_trans (by omega) (le_trans (by decide : 8 ≤ wad) hwad)
    rw [Nat.pow_succ, ← Nat.mul_assoc, Nat.mul_comm (x.raw ^ n)]
    exact Nat.mul_le_mul_right _ hlarge
  have hd : d ≤ (x.raw + 1) * k := by
    have := Nat.lt_mul_div_succ d hk
    rw [← hx, Nat.mul_comm] at this
    exact this.le
  calc d ^ (n + 1) ≤ ((x.raw + 1) * k) ^ (n + 1) := Nat.pow_le_pow_left hd _
    _ = (x.raw + 1) ^ (n + 1) * k ^ (n + 1) := Nat.mul_pow _ _ _
    _ ≤ 2 * x.raw ^ (n + 1) * k ^ (n + 1) :=
        Nat.mul_le_mul_right _ (succ_pow_le hwad (by omega))
    _ ≤ 4 * (z.raw * wad ^ n) * k ^ (n + 1) := Nat.mul_le_mul_right _ (by omega)

/-- The condition, scaled down by `k` and with the power truncated. -/
theorem RootVisible.scaled {n amp d sum product s p k z : ℕ}
    (h : RootVisible (n + 2) amp d sum product) (hp : p * k ^ (n + 1) ≤ product * wad)
    (hs : s * k ≤ sum * wad) (hk : 0 < k) (hd : wad * k ≤ d)
    (hz : d ^ (n + 3) ≤ 4 * (z * wad ^ (n + 2)) * k ^ (n + 3)) :
    (n + 2) ^ (n + 2) * p * (amp * (n + 2) ^ (n + 2) * (s + 1) + 2 * wad) ≤ z * wad ^ 2 := by
  have hle := h.2
  rw [Nat.add_sub_cancel] at hle
  generalize (n + 2) ^ (n + 2) = nn at *
  generalize amp * nn = a at *
  have hpos : 0 < 4 * wad ^ n * k ^ (n + 3) * wad :=
    Nat.mul_pos (Nat.mul_pos (Nat.mul_pos (by decide) (Nat.pow_pos wad_pos)) (Nat.pow_pos hk))
      wad_pos
  have hlinear : (a * (s + 1) + 2 * wad) * k * wad ≤ a * (sum * wad ^ 2 + d) + 2 * d * wad := by
    have hsum := Nat.mul_le_mul_left (a * wad) hs
    have hone := Nat.mul_le_mul_left a hd
    have htwo := Nat.mul_le_mul_left (2 * wad) hd
    linarith
  refine Nat.le_of_mul_le_mul_left ?_ hpos
  calc 4 * wad ^ n * k ^ (n + 3) * wad * (nn * p * (a * (s + 1) + 2 * wad))
      = 4 * nn * wad ^ n * (p * k ^ (n + 1)) * ((a * (s + 1) + 2 * wad) * k * wad) * k := by ring
    _ ≤ 4 * nn * wad ^ n * (product * wad) * (a * (sum * wad ^ 2 + d) + 2 * d * wad) * k :=
        Nat.mul_le_mul_right _ (Nat.mul_le_mul (Nat.mul_le_mul_left _ hp) hlinear)
    _ = 4 * nn * product * (a * (sum * wad ^ 2 + d) + 2 * d * wad) * wad ^ n * (wad * k) := by ring
    _ ≤ d ^ (n + 2) * wad * d := Nat.mul_le_mul hle hd
    _ = d ^ (n + 3) * wad := by ring
    _ ≤ 4 * (z * wad ^ (n + 2)) * k ^ (n + 3) * wad := Nat.mul_le_mul_right _ hz
    _ = 4 * wad ^ n * k ^ (n + 3) * wad * (z * wad ^ 2) := by ring

theorem le_div_mul {b x z : ℕ} (hb : 0 < b) (h : b * (x + wad) ≤ z * wad ^ 2) :
    x ≤ z * wad / b * wad := by
  have hlt := Nat.mul_lt_mul_of_pos_right (Nat.lt_mul_div_succ (z * wad) hb) wad_pos
  have hle : b * (x + wad) < b * ((z * wad / b + 1) * wad) :=
    h.trans_lt (lt_of_eq_of_lt (by ring) (lt_of_lt_of_eq hlt (by ring)))
  have := Nat.lt_of_mul_lt_mul_left hle
  rw [Nat.add_mul] at this
  omega

namespace Solved

variable {m : PowSqrt} {n amp : ℕ} {d : Decimal} {sum product balance : ℕ}
  {out : ScaleDownOutput} {dPow : Decimal}

/-- Under the condition the constant term outweighs the linear term. -/
theorem outweighs (hm : m.Lawful) (h : Solved m (n + 2) amp d sum product balance out dPow)
    (hn : n + 2 ≤ 4) (hvisible : RootVisible (n + 2) amp d.raw sum product) :
    (swapQuadratic (n + 2) amp out dPow sum product).a
      + (swapQuadratic (n + 2) amp out dPow sum product).l + wad
      ≤ (swapQuadratic (n + 2) amp out dPow sum product).c * wad := by
  obtain ⟨hexp, hraw, hlarge⟩ := scaleDownValue_eq h.scaled
  have hwad := hlarge hvisible.1
  have hscale : 0 < 1000 ^ out.exponent := Nat.pow_pos (by decide)
  rw [← hexp] at hraw
  have hpow := pow_le_four_mul hn hscale hraw hwad (hm.pow_chain (Nat.succ_pos _) h.power)
  -- the scale is at most the invariant
  have hd : wad * 1000 ^ out.exponent ≤ d.raw :=
    (Nat.mul_le_mul_right _ (hraw ▸ hwad)).trans (Nat.div_mul_le_self _ _)
  have hle := hvisible.scaled
    (Nat.div_mul_le_self (product * wad) ((1000 ^ out.exponent) ^ (n + 1)))
    (Nat.div_mul_le_self (sum * wad) (1000 ^ out.exponent)) hscale hd hpow
  have hmin := h.product_ge
  rw [show n + 2 - 1 = n + 1 from rfl] at hmin
  have hc : amp * (n + 2) ^ (n + 2)
      + amp * (n + 2) ^ (n + 2) * (sum * wad / 1000 ^ out.exponent) + wad
      ≤ dPow.raw * wad / ((n + 2) ^ (n + 2) * (product * wad / (1000 ^ out.exponent) ^ (n + 1)))
        * wad := by
    refine le_div_mul (Nat.mul_pos (Nat.pow_pos (by omega)) (by omega)) (le_of_eq_of_le ?_ hle)
    rw [Nat.mul_add _ _ 1, Nat.mul_one, Nat.two_mul]
    ac_rfl
  have hl : (swapQuadratic (n + 2) amp out dPow sum product).l
      ≤ (amp * (n + 2) ^ (n + 2) : ℕ) * (sum * wad / 1000 ^ out.exponent : ℕ) :=
    Int.sub_le_self _ (mul_nonneg (Int.natCast_nonneg _) (Int.natCast_nonneg _))
  have hcast := (Nat.cast_le (α := ℤ)).mpr hc
  rw [Nat.cast_add, Nat.cast_add, Nat.cast_mul (amp * (n + 2) ^ (n + 2)), Nat.cast_mul _ wad]
    at hcast
  exact (Int.add_le_add_right (Int.add_le_add_left hl _) _).trans hcast

/-- **A root in sight**: under the condition some of the bought balance is
left. -/
theorem balance_pos (hm : m.Lawful) (h : Solved m n amp d sum product balance out dPow)
    (hn : 2 ≤ n) (hn4 : n ≤ 4) (hvisible : RootVisible n amp d.raw sum product) :
    0 < balance := by
  obtain ⟨n, rfl⟩ := Nat.exists_eq_add_of_le' hn
  have hroot := (Quadratic.lt_balance_iff h.a_pos h.l_le).mpr
    (Quadratic.notPositiveAbove_zero h.a_pos (h.outweighs hm hn4 hvisible))
  rwa [Nat.zero_mul, ← h.balance_eq] at hroot

end Solved

end SolanaAmm.Amm
