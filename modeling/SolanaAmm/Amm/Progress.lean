import SolanaAmm.Amm.Descent
import Mathlib.Tactic.IntervalCases
import Mathlib.Tactic.NormNum

/-!
# Amm — Progress of the invariant's computation

When the computation of the invariant succeeds. A step of more than one
half leaves the polynomial so far above zero that no truncation hides it,
so that every later iteration goes through and takes another step. Only
the first iteration can fail: near balance the polynomial at the sum of
the reserves is nearly zero, and what was truncated decides.
-/

namespace SolanaAmm.Amm

open Result Decimal

namespace StableCurveInvariant

/-! ## After a long step -/

section LongStep

variable {k : ℕ} {c t d s v g v₁ g₁ x : ℚ}

theorem ulp_le : ulp ≤ 1 / 10 ^ 15 := by norm_num [ulp, Fixed.unit]

/-- From one half on, a power of at least one is hardly more than the
power. -/
theorem max_pow_le {j : ℕ} (hd : 1 / 2 ≤ d) : max d 1 ^ j ≤ 2 ^ j * d ^ j := by
  rw [← mul_pow]
  refine pow_le_pow_left₀ (zero_le_one.trans (le_max_right _ _)) (max_le ?_ ?_) j
  · linarith
  · linarith

theorem hiddenSlope_le (hk3 : k ≤ 3) (hd : 1 / 2 ≤ d) :
    Newton.hiddenSlope k ulp d ≤ d ^ k / 100 := by
  have hkq : (k : ℚ) ≤ 3 := by exact_mod_cast hk3
  have hdk : 0 ≤ d ^ k := pow_nonneg (by linarith) k
  have htwo : (2 : ℚ) ^ k ≤ 8 := by
    calc (2 : ℚ) ^ k ≤ 2 ^ 3 := pow_le_pow_right₀ one_le_two hk3
      _ = 8 := by norm_num
  have hmax : max d 1 ^ k ≤ 8 * d ^ k :=
    (max_pow_le hd).trans (mul_le_mul_of_nonneg_right htwo hdk)
  have hmax0 : 0 ≤ max d 1 ^ k := pow_nonneg (zero_le_one.trans (le_max_right _ _)) k
  have hu := ulp_nonneg
  unfold Newton.hiddenSlope
  calc (k + 2) * (k * max d 1 ^ k * ulp) ≤ (3 + 2) * (3 * (8 * d ^ k) * ulp) := by gcongr
    _ = 120 * ulp * d ^ k := by ring
    _ ≤ 120 * (1 / 10 ^ 15) * d ^ k := by
        have := ulp_le
        gcongr
    _ ≤ d ^ k / 100 := by
        norm_num
        linarith

/-- **A long step** leaves the polynomial well above zero. -/
theorem long_step (hk3 : k ≤ 3) (h : Newton.Step k c t ulp d s v g) (hlong : 1 / 2 < s) :
    d ^ k / 5 ≤ Newton.poly k c t (d - s) := by
  have hd : 1 / 2 ≤ d := hlong.le.trans h.step_le
  have hdk : 0 ≤ d ^ k := pow_nonneg (by linarith) k
  have hhidden := mul_le_mul_of_nonneg_left (hiddenSlope_le hk3 hd) h.step_nonneg
  have hleft := h.le_poly_next
  have hsq : d ^ k * (1 / 5) ≤ d ^ k * (s ^ 2 - s / 100) := by
    refine mul_le_mul_of_nonneg_left ?_ hdk
    nlinarith
  linarith

/-- Half a token below the first guess, the linear coefficient is not large
against the leading term. -/
theorem linear_le (hc : 0 ≤ c) (hct : c * x ≤ t) (hx : d + 1 / 2 ≤ x)
    (hpoly : 0 ≤ Newton.poly k c t d) : c ≤ 2 * d ^ (k + 2) := by
  have hdist := mul_le_mul_of_nonneg_left hx hc
  unfold Newton.poly at hpoly
  linarith

theorem hiddenValue_le {d' : ℚ} (hk3 : k ≤ 3) (hd : 1 / 2 ≤ d) (hd1000 : d ≤ 1000) (hle : d' ≤ d) :
    Newton.hiddenValue k ulp d' ≤ d ^ k / 20 := by
  have hkq : (k : ℚ) ≤ 3 := by exact_mod_cast hk3
  have hdk : 0 ≤ d ^ k := pow_nonneg (by linarith) k
  have htwo : (2 : ℚ) ^ (k + 1) ≤ 16 := by
    calc (2 : ℚ) ^ (k + 1) ≤ 2 ^ 4 := pow_le_pow_right₀ one_le_two (by omega)
      _ = 16 := by norm_num
  have hmax : max d' 1 ^ (k + 1) ≤ 16000 * d ^ k := by
    calc max d' 1 ^ (k + 1) ≤ max d 1 ^ (k + 1) :=
          pow_le_pow_left₀ (zero_le_one.trans (le_max_right _ _)) (max_le_max_right _ hle) _
      _ ≤ 2 ^ (k + 1) * d ^ (k + 1) := max_pow_le hd
      _ ≤ 16 * (1000 * d ^ k) := by
          rw [pow_succ' d]
          gcongr
      _ = 16000 * d ^ k := by ring
  have hone : 1 ≤ 8 * d ^ k := by
    calc (1 : ℚ) ≤ 8 * (1 / 2) ^ 3 := by norm_num
      _ ≤ 8 * (1 / 2) ^ k := by
          refine mul_le_mul_of_nonneg_left ?_ (by norm_num)
          exact pow_le_pow_of_le_one (by norm_num) (by norm_num) hk3
      _ ≤ 8 * d ^ k := by gcongr
  have hu := ulp_nonneg
  have hmax0 : 0 ≤ max d' 1 ^ (k + 1) := pow_nonneg (zero_le_one.trans (le_max_right _ _)) _
  unfold Newton.hiddenValue
  calc ((k + 1) * max d' 1 ^ (k + 1) + 1) * ulp
      ≤ ((3 + 1) * (16000 * d ^ k) + 8 * d ^ k) * ulp := by gcongr
    _ = 64008 * ulp * d ^ k := by ring
    _ ≤ 64008 * (1 / 10 ^ 15) * d ^ k := by
        have := ulp_le
        gcongr
    _ ≤ d ^ k / 20 := by
        norm_num
        linarith

/-- **The next value** is well above what truncation hides. -/
theorem value_after_long_step (hk3 : k ≤ 3) (h : Newton.Step k c t ulp d s v g) (hlong : 1 / 2 < s)
    (hd : d ≤ 1000)
    (hvalue : Newton.poly k c t (d - s) ≤ v₁ + Newton.hiddenValue k ulp (d - s)) :
    d ^ k * (3 / 20) ≤ v₁ := by
  have hpoly := long_step hk3 h hlong
  have hhidden := hiddenValue_le hk3 (hlong.le.trans h.step_le) hd (sub_le_self d h.step_nonneg)
  linarith

/-- **The next iteration** sees a value that is worth a unit step. -/
theorem after_long_step (hk3 : k ≤ 3) (h : Newton.Step k c t ulp d s v g) (hlong : 1 / 2 < s)
    (hd : d ≤ 1000) (hdx : d ≤ x) (hc : 0 ≤ c) (hct : c * x ≤ t)
    (h₁ : Newton.Truncated k c t ulp (d - s) v₁ g₁) : 0 < v₁ ∧ ulp * g₁ ≤ v₁ := by
  have hd0 : 1 / 2 ≤ d := hlong.le.trans h.step_le
  have hdk : 0 < d ^ k := pow_pos (by linarith) k
  have hnext0 : 0 ≤ d - s := sub_nonneg.mpr h.step_le
  have hnext : d - s ≤ d := by linarith
  have hpoly := long_step hk3 h hlong
  have hv₁ := value_after_long_step hk3 h hlong hd h₁.le_value
  -- and the slope is not steep enough to make it less than a unit
  have hlinear : c ≤ 2 * (d - s) ^ (k + 2) :=
    linear_le hc hct (by linarith) (le_trans (by positivity) hpoly)
  have hkq : (k : ℚ) ≤ 3 := by exact_mod_cast hk3
  have hpow1 : (d - s) ^ (k + 1) ≤ 1000 * d ^ k := by
    calc (d - s) ^ (k + 1) ≤ d ^ (k + 1) := pow_le_pow_left₀ hnext0 hnext _
      _ = d * d ^ k := pow_succ' d k
      _ ≤ 1000 * d ^ k := mul_le_mul_of_nonneg_right hd hdk.le
  have hpow2 : (d - s) ^ (k + 2) ≤ 1000000 * d ^ k := by
    calc (d - s) ^ (k + 2) = (d - s) ^ (k + 1) * (d - s) := pow_succ _ _
      _ ≤ 1000 * d ^ k * 1000 := by
          refine mul_le_mul hpow1 (by linarith) hnext0 (by positivity)
      _ = 1000000 * d ^ k := by ring
  have hslope : g₁ ≤ 2005000 * d ^ k := by
    have hle := h₁.slope_le
    have hpow0 : 0 ≤ (d - s) ^ (k + 1) := pow_nonneg hnext0 _
    have hfirst : (k + 2) * (d - s) ^ (k + 1) ≤ 5 * (1000 * d ^ k) :=
      mul_le_mul (by linarith) hpow1 hpow0 (by norm_num)
    unfold Newton.slope at hle
    linarith
  refine ⟨lt_of_lt_of_le (by positivity) hv₁, ?_⟩
  calc ulp * g₁ ≤ ulp * (2005000 * d ^ k) := mul_le_mul_of_nonneg_left hslope ulp_nonneg
    _ ≤ 1 / 10 ^ 15 * (2005000 * d ^ k) := mul_le_mul_of_nonneg_right ulp_le (by positivity)
    _ ≤ d ^ k * (3 / 20) := by
        norm_num
        linarith
    _ ≤ v₁ := hv₁

end LongStep

/-! ## Nothing overflows -/

section Iterations

variable {m : PowSqrt} {s : StableCurveInvariant} {k n fuel : ℕ}
  {val val' z poly deriv admissible : Decimal}

theorem pow_moderate (ht : m.Total) (hval : val.raw ≤ 1000 * wad) (hn : n ≤ 6) :
    ∃ z, m.tryPow val n = some z := by
  refine ht.pow_total ?_
  rcases Nat.eq_zero_or_pos n with rfl | hpos
  · norm_num
  have hmax : max val.raw wad ≤ 1000 * wad := Nat.max_le.mpr ⟨hval, by norm_num⟩
  calc max val.raw wad ^ (2 * n) ≤ (1000 * wad) ^ (2 * n) := Nat.pow_le_pow_left hmax _
    _ = 1000 ^ (2 * n) * wad * wad ^ (2 * n - 1) := by
        rw [Nat.mul_pow, Nat.mul_assoc, ← Nat.pow_succ', Nat.succ_eq_add_one,
          Nat.sub_add_cancel (by omega)]
    _ ≤ 1000 ^ 12 * wad * wad ^ (2 * n - 1) := by
        refine Nat.mul_le_mul_right _ (Nat.mul_le_mul_right _ ?_)
        exact Nat.pow_le_pow_right (by norm_num) (by omega)
    _ < 2 ^ 192 * wad ^ (2 * n - 1) := by
        refine Nat.mul_lt_mul_of_pos_right (by norm_num) (Nat.pow_pos wad_pos)

theorem pow_moderate_le (hm : m.Lawful) (hval : val.raw ≤ 1000 * wad)
    (h : m.tryPow val (n + 1) = some z) : z.raw ≤ 1000 ^ (n + 1) * wad := by
  have hle := (hm.pow_chain (Nat.succ_pos n) h).le_pow
  rw [Nat.succ_eq_add_one, Nat.add_sub_cancel] at hle
  refine Nat.le_of_mul_le_mul_right ?_ (Nat.pow_pos wad_pos (n := n))
  calc z.raw * wad ^ n ≤ val.raw ^ (n + 1) := hle
    _ ≤ (1000 * wad) ^ (n + 1) := Nat.pow_le_pow_left hval _
    _ = 1000 ^ (n + 1) * wad * wad ^ n := by rw [Nat.mul_pow, Nat.mul_assoc, ← Nat.pow_succ']

/-- What the coefficients of a pool of up to four reserves satisfy. -/
structure Workable (s : StableCurveInvariant) (k : ℕ) : Prop where
  exponent : s.exponent.val = k + 1
  degree_le : k ≤ 3
  linear_pos : 0 < s.firstOrderCoeff.raw
  linear_le : s.firstOrderCoeff.raw ≤ 10 ^ 20 * wad
  constant_ge : 10 ^ 6 ≤ s.polynomialThirdTerm.raw
  linear_mul_le : s.firstOrderCoeff.raw * s.initialGuess.raw ≤ s.polynomialThirdTerm.raw * wad
  guess_le : s.initialGuess.raw ≤ 1000 * wad
  rescales : s.initialGuess.raw * s.sclDownCoef.raw / wad < 2 ^ 192

/-- The terms of the polynomial and of its derivative fit. -/
theorem Workable.terms (hs : Workable s k) (hm : m.Lawful) (ht : m.Total)
    (hval : val.raw ≤ 1000 * wad) :
    ∃ pn1 pn second : Decimal, m.tryPow val (k + 2) = some pn1 ∧ m.tryPow val (k + 1) = some pn
      ∧ tryMul (ε := AmmError) val s.firstOrderCoeff = .ok second
      ∧ pn1.raw + second.raw < 2 ^ 192
      ∧ (k + 2) * pn.raw + s.firstOrderCoeff.raw < 2 ^ 192 := by
  have hk3 := hs.degree_le
  obtain ⟨pn1, hpn1⟩ := pow_moderate ht hval (by omega : k + 2 ≤ 6)
  obtain ⟨pn, hpn⟩ := pow_moderate ht hval (by omega : k + 1 ≤ 6)
  have hpn1_le : pn1.raw ≤ 1000 ^ 5 * wad :=
    (pow_moderate_le hm hval hpn1).trans
      (Nat.mul_le_mul_right _ (Nat.pow_le_pow_right (by norm_num) (by omega)))
  have hpn_le : pn.raw ≤ 1000 ^ 5 * wad :=
    (pow_moderate_le hm hval hpn).trans
      (Nat.mul_le_mul_right _ (Nat.pow_le_pow_right (by norm_num) (by omega)))
  have hlin := hs.linear_le
  have hsecond_le : val.raw * s.firstOrderCoeff.raw / wad ≤ 1000 * (10 ^ 20 * wad) := by
    refine Nat.div_le_of_le_mul ?_
    calc val.raw * s.firstOrderCoeff.raw ≤ 1000 * wad * (10 ^ 20 * wad) := Nat.mul_le_mul hval hlin
      _ = wad * (1000 * (10 ^ 20 * wad)) := by ring
  obtain ⟨second, hsecond⟩ := exists_tryMul (ε := AmmError) (x := val) (y := s.firstOrderCoeff)
    (hsecond_le.trans_lt (by norm_num))
  have hraw := hsecond
  rw [tryMul_eq_ok] at hraw
  refine ⟨pn1, pn, second, hpn1, hpn, hsecond, ?_, ?_⟩
  · rw [hraw]
    exact (Nat.add_le_add hpn1_le hsecond_le).trans_lt (by norm_num)
  · exact (Nat.add_le_add (Nat.mul_le_mul (by omega : k + 2 ≤ 5) hpn_le) hlin).trans_lt
      (by norm_num)

/-- The derivative is evaluated. -/
theorem Workable.derivative_ok (hs : Workable s k) {pn : Decimal}
    (hpn : m.tryPow val (k + 1) = some pn)
    (hfit : (k + 2) * pn.raw + s.firstOrderCoeff.raw < 2 ^ 192) :
    ∃ deriv, s.getDerivateStableSwapPolynomial m val = .ok deriv
      ∧ deriv.raw = (k + 2) * pn.raw + s.firstOrderCoeff.raw := by
  have hk3 := hs.degree_le
  obtain ⟨n1, hn1⟩ := exists_tryAdd (ε := AmmError) (x := ofU64 s.exponent) (y := Decimal.one) (by
    rw [ofU64_raw, hs.exponent, one_raw]
    have : (k + 1) * wad + wad ≤ 5 * wad := by
      rw [← Nat.succ_mul]
      exact Nat.mul_le_mul_right _ (by omega)
    exact this.trans_lt (by norm_num))
  have hn1' : n1.raw = (k + 2) * wad := by
    rw [tryAdd_eq_ok] at hn1
    rw [hn1, ofU64_raw, hs.exponent, one_raw, ← Nat.succ_mul]
  obtain ⟨first, hfirst⟩ := exists_tryMul (ε := AmmError) (x := n1) (y := pn) (by
    rw [Fixed.mul_whole_raw wad_pos hn1']
    omega)
  have hfirst' := hfirst
  rw [tryMul_eq_ok, Fixed.mul_whole_raw wad_pos hn1'] at hfirst'
  obtain ⟨deriv, hderiv⟩ := exists_tryAdd (ε := AmmError) (x := first) (y := s.firstOrderCoeff) (by
    rwa [hfirst'])
  refine ⟨deriv, ?_, ?_⟩
  · simp only [getDerivateStableSwapPolynomial, bind_eq_ok, PowSqrt.pow_eq_ok, hs.exponent]
    exact ⟨n1, hn1, pn, hpn, first, hfirst, hderiv⟩
  · rw [tryAdd_eq_ok] at hderiv
    rw [hderiv, hfirst']

/-- The polynomial is evaluated unless the last subtraction fails. -/
theorem Workable.polynomial_ok_iff (hs : Workable s k) {pn1 second : Decimal}
    (hpn1 : m.tryPow val (k + 2) = some pn1)
    (hsecond : tryMul (ε := AmmError) val s.firstOrderCoeff = .ok second)
    (hfit : pn1.raw + second.raw < 2 ^ 192) :
    s.getStableSwapPolynomial m val = .ok poly ↔
      s.polynomialThirdTerm.raw ≤ pn1.raw + second.raw
        ∧ poly.raw = pn1.raw + second.raw - s.polynomialThirdTerm.raw := by
  obtain ⟨sum, hsum⟩ := exists_tryAdd (ε := AmmError) hfit
  have hraw := hsum
  rw [tryAdd_eq_ok] at hraw
  rw [← hraw, ← trySub_eq_ok (ε := AmmError)]
  simp only [getStableSwapPolynomial, bind_eq_ok, PowSqrt.pow_eq_ok, hs.exponent]
  constructor
  · rintro ⟨pn1', hpn1', second', hsecond', sum', hsum', hpoly⟩
    obtain rfl : pn1 = pn1' := Option.some.inj (hpn1.symm.trans hpn1')
    obtain rfl : second = second' := Except.ok.inj (hsecond.symm.trans hsecond')
    obtain rfl : sum = sum' := Except.ok.inj (hsum.symm.trans hsum')
    exact hpoly
  · exact fun hpoly => ⟨pn1, hpn1, second, hsecond, sum, hsum, hpoly⟩

/-- What the code evaluates at an iterate: only the last subtraction can
fail. -/
theorem Workable.evaluates (hs : Workable s k) (hm : m.Lawful) (ht : m.Total)
    (hval : val.raw ≤ 1000 * wad) :
    ∃ v deriv, s.getDerivateStableSwapPolynomial m val = .ok deriv ∧ deriv.raw ≠ 0
      ∧ (0 ≤ v → ∃ poly, s.getStableSwapPolynomial m val = .ok poly ∧ poly.value = v)
      ∧ Newton.Truncated k s.firstOrderCoeff.value s.polynomialThirdTerm.value ulp val.value
        v deriv.value := by
  obtain ⟨pn1, pn, second, hpn1, hpn, hsecond, hfit, hfit'⟩ := hs.terms hm ht hval
  obtain ⟨deriv, hd, hderiv⟩ := hs.derivative_ok hpn hfit'
  have hvalue : deriv.value = (k + 2) * pn.value + s.firstOrderCoeff.value := by
    rw [Fixed.value, hderiv, Fixed.value, Fixed.value]
    push_cast
    ring
  refine ⟨pn1.value + second.value - s.polynomialThirdTerm.value, deriv, hd, ?_, ?_, ?_⟩
  · have := hs.linear_pos
    omega
  · intro hv
    obtain ⟨sum, hsum⟩ := exists_tryAdd (ε := AmmError) hfit
    rw [tryAdd_eq_ok] at hsum
    rw [← Fixed.value_add hsum, sub_nonneg, Fixed.value_le_value wad_pos] at hv
    obtain ⟨poly, hpoly⟩ := exists_trySub (ε := AmmError) hv
    rw [trySub_eq_ok] at hpoly
    refine ⟨poly, (hs.polynomial_ok_iff hpn1 hsecond hfit).mpr (hsum ▸ hpoly), ?_⟩
    rw [Fixed.value_sub hpoly.1 hpoly.2, Fixed.value_add hsum]
  · rw [hvalue]
    rw [tryMul_eq_ok] at hsecond
    exact truncated hm hpn1 hsecond hpn

/-! ## The loop goes through -/

/-- The polynomial at an iterate does not underflow, and is zero or worth at
least a unit step. -/
def Counts (m : PowSqrt) (s : StableCurveInvariant) (val : Decimal) : Prop :=
  ∃ poly deriv, s.getStableSwapPolynomial m val = .ok poly
    ∧ s.getDerivateStableSwapPolynomial m val = .ok deriv
    ∧ (poly = Decimal.zero ∨ deriv.raw ≤ poly.raw * wad)

/-- An iterate counts in arithmetic of the coefficients. -/
theorem Workable.counts_iff (hs : Workable s k) (hm : m.Lawful) (ht : m.Total)
    (hval : val.raw ≤ 1000 * wad) :
    Counts m s val ↔
      s.polynomialThirdTerm.raw
          ≤ m.powRaw val.raw (k + 2) + val.raw * s.firstOrderCoeff.raw / wad
        ∧ (m.powRaw val.raw (k + 2) + val.raw * s.firstOrderCoeff.raw / wad
            = s.polynomialThirdTerm.raw
          ∨ (k + 2) * m.powRaw val.raw (k + 1) + s.firstOrderCoeff.raw
            ≤ (m.powRaw val.raw (k + 2) + val.raw * s.firstOrderCoeff.raw / wad
              - s.polynomialThirdTerm.raw) * wad) := by
  obtain ⟨pn1, pn, second, hpn1, hpn, hsecond, hfit, hfit'⟩ := hs.terms hm ht hval
  obtain ⟨deriv, hd, hderiv⟩ := hs.derivative_ok hpn hfit'
  have hpoly : ∀ poly, s.getStableSwapPolynomial m val = .ok poly ↔
      s.polynomialThirdTerm.raw ≤ pn1.raw + second.raw
        ∧ poly.raw = pn1.raw + second.raw - s.polynomialThirdTerm.raw :=
    fun _ => hs.polynomial_ok_iff hpn1 hsecond hfit
  rw [tryMul_eq_ok] at hsecond
  rw [PowSqrt.powRaw_eq hpn1, PowSqrt.powRaw_eq hpn, ← hsecond, ← hderiv]
  constructor
  · rintro ⟨poly, deriv', hpoly', hderiv', hcounts⟩
    obtain rfl : deriv = deriv' := Except.ok.inj (hd.symm.trans hderiv')
    obtain ⟨hle, hraw⟩ := (hpoly poly).mp hpoly'
    refine ⟨hle, hcounts.imp ?_ (fun hunit => hraw ▸ hunit)⟩
    rintro rfl
    rw [zero_raw] at hraw
    omega
  · rintro ⟨hle, hcounts⟩
    obtain ⟨poly, hraw⟩ : ∃ poly : Decimal,
        poly.raw = pn1.raw + second.raw - s.polynomialThirdTerm.raw :=
      ⟨⟨_, (Nat.sub_le _ _).trans_lt hfit⟩, rfl⟩
    refine ⟨poly, deriv, (hpoly poly).mpr ⟨hle, hraw⟩, hd, hcounts.imp (fun hroot => ?_)
      (fun hunit => hraw ▸ hunit)⟩
    exact Fixed.ext (by rw [hraw, zero_raw, hroot, Nat.sub_self])

theorem Workable.iteration (hs : Workable s k) (hm : m.Lawful) (hpos : 0 < val.raw)
    (hpoly : s.getStableSwapPolynomial m val = .ok poly)
    (hderiv : s.getDerivateStableSwapPolynomial m val = .ok deriv) (hne : deriv.raw ≠ 0) :
    ∃ val', s.newtonMethodSingleIteration m val = .ok val'
      ∧ val'.raw = val.raw - poly.raw * wad / deriv.raw ∧ 0 < val'.raw := by
  have hk3 := hs.degree_le
  have hlt := poly_mul_lt hm hs.exponent (Nat.succ_pos k)
    ((Nat.mul_le_mul_left 2 (by omega : k + 1 ≤ 4)).trans (by norm_num))
    ((by omega : k + 1 ≤ 10 ^ 6).trans hs.constant_ge) hpos hpoly hderiv hne
  have hstep_lt : poly.raw * wad / deriv.raw < val.raw :=
    Nat.div_lt_of_lt_mul (by rwa [Nat.mul_comm deriv.raw])
  obtain ⟨step, hstep⟩ := exists_tryDiv (ε := AmmError) hne (hstep_lt.trans val.raw_lt)
  have hstep' := hstep
  rw [tryDiv_eq_ok] at hstep'
  obtain ⟨val', hval'⟩ := exists_trySub (ε := AmmError) (x := val) (y := step)
    (by rw [hstep'.2]; exact hstep_lt.le)
  have hval'' := hval'
  rw [trySub_eq_ok, hstep'.2] at hval''
  refine ⟨val', ?_, hval''.2, ?_⟩
  · simp only [newtonMethodSingleIteration, bind_eq_ok]
    exact ⟨poly, hpoly, deriv, hderiv, step, hstep, hval'⟩
  · rw [hval''.2]
    omega

/-- After a long step, the next iteration counts. -/
theorem Workable.counts_next (hs : Workable s k) (hm : m.Lawful) (ht : m.Total)
    (hval : val.raw ≤ s.initialGuess.raw) (hstep : s.newtonMethodSingleIteration m val = .ok val')
    (hlong : wad < 2 * (val.raw - val'.raw)) : Counts m s val' := by
  obtain ⟨_, _, -, -, hle, h⟩ := iteration_step hm hs.exponent hstep
  have hval' : val'.raw ≤ 1000 * wad := hle.trans (hval.trans hs.guess_le)
  obtain ⟨v, deriv, hderiv, -, hpoly, htrunc⟩ := hs.evaluates hm ht hval'
  -- the same in rationals
  have hw : (0 : ℚ) < wad := by norm_num
  have hlongq : 1 / 2 < val.value - val'.value := by
    have hcast : (wad : ℚ) < 2 * ((val.raw : ℚ) - val'.raw) := by
      rw [← Nat.cast_sub hle]
      exact_mod_cast hlong
    unfold Fixed.value
    rw [← sub_div, lt_div_iff₀ hw]
    calc 1 / 2 * (wad : ℚ) < 1 / 2 * (2 * ((val.raw : ℚ) - val'.raw)) :=
          mul_lt_mul_of_pos_left hcast (by norm_num)
      _ = (val.raw : ℚ) - val'.raw := by ring
  have hthousand : val.value ≤ 1000 := by
    unfold Fixed.value
    rw [div_le_iff₀ hw]
    exact_mod_cast hval.trans hs.guess_le
  have hbound : s.firstOrderCoeff.value * s.initialGuess.value ≤ s.polynomialThirdTerm.value := by
    unfold Fixed.value
    rw [div_mul_div_comm, div_le_div_iff₀ (by positivity) hw]
    have hcast : (s.firstOrderCoeff.raw : ℚ) * s.initialGuess.raw
        ≤ s.polynomialThirdTerm.raw * wad := by exact_mod_cast hs.linear_mul_le
    nlinarith
  have hback : val.value - (val.value - val'.value) = val'.value := sub_sub_cancel _ _
  obtain ⟨hv, hunit⟩ := after_long_step hs.degree_le h hlongq hthousand
    ((Fixed.value_le_value wad_pos).mpr hval) s.firstOrderCoeff.value_nonneg hbound
    (by rw [hback]; exact htrunc)
  obtain ⟨poly, hok, rfl⟩ := hpoly hv.le
  refine ⟨poly, deriv, hok, hderiv, .inr ?_⟩
  unfold ulp Fixed.unit Fixed.value at hunit
  rw [div_mul_div_comm, one_mul, div_le_div_iff₀ (by positivity) hw] at hunit
  have hcast : (deriv.raw : ℚ) ≤ poly.raw * wad := by
    refine le_of_mul_le_mul_right ?_ hw
    linarith
  exact_mod_cast hcast

theorem Workable.rescale (hs : Workable s k) (hval : val.raw ≤ s.initialGuess.raw) :
    ∃ d, tryMul (ε := AmmError) val s.sclDownCoef = .ok d :=
  exists_tryMul ((Nat.div_le_div_right (Nat.mul_le_mul_right _ hval)).trans_lt hs.rescales)

/-- **The loop** succeeds from every iterate that counts. -/
theorem Workable.computeLoop_ok (hs : Workable s k) (hm : m.Lawful) (ht : m.Total)
    (hadm : wad ≤ 2 * admissible.raw) (hpos : 0 < val.raw) (hval : val.raw ≤ s.initialGuess.raw)
    (hc : Counts m s val) : ∃ d, s.computeLoop m admissible fuel val = .ok d := by
  induction fuel generalizing val with
  | zero => exact hs.rescale hval
  | succ fuel ih =>
      obtain ⟨poly, deriv, hpoly, hderiv, hcounts⟩ := hc
      obtain ⟨_, deriv', hderiv', hne, -, -⟩ := hs.evaluates hm ht (hval.trans hs.guess_le)
      rw [hderiv] at hderiv'
      cases hderiv'
      obtain ⟨val', hstep, hraw, hpos'⟩ := hs.iteration hm hpos hpoly hderiv hne
      rw [computeLoop, hstep, ok_bind]
      rcases hcounts with rfl | hunit
      · have hsame : val ≤ val' := by
          rw [Fixed.le_def, hraw, zero_raw, Nat.zero_mul, Nat.zero_div, Nat.sub_zero]
        rw [if_pos hsame, hpoly, ok_bind, if_pos rfl]
        exact hs.rescale hval
      · have hone : 1 ≤ poly.raw * wad / deriv.raw :=
          (Nat.one_le_div_iff (Nat.pos_of_ne_zero hne)).mpr hunit
        have hlt : val'.raw < val.raw := by omega
        obtain ⟨diff, hdiff⟩ := exists_trySub (ε := AmmError) (x := val) (y := val') hlt.le
        have hdiff' := hdiff
        rw [trySub_eq_ok] at hdiff'
        rw [if_neg (not_le.mpr (Fixed.lt_def.mpr hlt)), hdiff, ok_bind]
        by_cases hshort : diff ≤ admissible
        · rw [if_pos hshort]
          exact hs.rescale (hlt.le.trans hval)
        · rw [if_neg hshort]
          have hlong : admissible.raw < val.raw - val'.raw := by
            rw [← hdiff'.2]
            exact not_le.mp hshort
          exact ih hpos' (hlt.le.trans hval) (hs.counts_next hm ht hval hstep (by omega))

/-- The first iteration of a loop that succeeds counts. -/
theorem counts_of_computeLoop {d : Decimal}
    (h : s.computeLoop m admissible (fuel + 1) val = .ok d) : Counts m s val := by
  simp only [computeLoop, bind_eq_ok] at h
  obtain ⟨val', hstep, h⟩ := h
  simp only [newtonMethodSingleIteration, bind_eq_ok, trySub_eq_ok, tryDiv_eq_ok] at hstep
  obtain ⟨poly, hpoly, deriv, hderiv, step, ⟨hne, hstep⟩, hle, hval'⟩ := hstep
  refine ⟨poly, deriv, hpoly, hderiv, ?_⟩
  split at h
  · simp only [bind_eq_ok] at h
    obtain ⟨poly', hpoly', h⟩ := h
    split at h
    · rename_i hzero
      rw [hpoly] at hpoly'
      cases hpoly'
      exact .inl hzero
    · cases h
  · rename_i hlt
    have hpos : 0 < step.raw := by
      have : val'.raw < val.raw := Fixed.lt_def.mp (not_le.mp hlt)
      omega
    rw [hstep] at hpos
    exact .inr ((Nat.one_le_div_iff (Nat.pos_of_ne_zero hne)).mp hpos)

end Iterations

/-! ## The coefficients of a healthy pool -/

/-- The product that `new` compares with `minProduct`. -/
def scaledDownProduct (m : PowSqrt) (reserves : List TokenAmount) : Except AmmError Decimal := do
  let sum ← reserves.foldlM (fun acc el => tryAdd acc (ofU64 el)) Decimal.zero
  let sclDownSum ← scaleDownValue sum
  let sclDownCoef ← m.pow thousand sclDownSum.exponent
  scaledProduct sclDownCoef reserves

section Healthy

variable {m : PowSqrt} {s : StableCurveInvariant} {amp : U64} {reserves : List TokenAmount}

/-- Every scaled reserve is at most a thousand. -/
theorem scaledProduct_le {coef acc z : Decimal} {l : List TokenAmount} {e a : ℕ}
    (hcoef : coef.raw = e * wad) (hl : ∀ x ∈ l, x.val * wad / e ≤ 1000 * wad)
    (hacc : acc.raw ≤ a * wad)
    (h : l.foldlM (fun acc el => do
        let scaled ← tryDiv (ε := AmmError) (ofU64 el) coef
        tryMul acc scaled) acc = .ok z) :
    z.raw ≤ a * 1000 ^ l.length * wad := by
  induction l generalizing acc a with
  | nil =>
      simp only [List.foldlM_nil, pure_eq_ok] at h
      rw [← h, List.length_nil, Nat.pow_zero, Nat.mul_one]
      exact hacc
  | cons x l ih =>
      simp only [List.foldlM_cons, bind_eq_ok, tryDiv_eq_ok, tryMul_eq_ok] at h
      obtain ⟨acc', ⟨scaled, ⟨-, hscaled⟩, hacc'⟩, h⟩ := h
      rw [hcoef, ofU64_raw, Nat.mul_div_mul_right _ _ wad_pos] at hscaled
      have hx := hl x List.mem_cons_self
      rw [← hscaled] at hx
      have hle : acc'.raw ≤ a * 1000 * wad := by
        rw [hacc']
        refine Nat.div_le_of_le_mul ?_
        calc acc.raw * scaled.raw ≤ a * wad * (1000 * wad) := Nat.mul_le_mul hacc hx
          _ = wad * (a * 1000 * wad) := by ring
      have hrest := ih (fun y hy => hl y (List.mem_cons_of_mem _ hy)) hle h
      rw [List.length_cons, Nat.pow_succ']
      calc z.raw ≤ a * 1000 * 1000 ^ l.length * wad := hrest
        _ = a * (1000 * 1000 ^ l.length) * wad := by ring

theorem four_le_self_pow {n : ℕ} (hn : 2 ≤ n) (hn' : n ≤ 4) : 4 ≤ n ^ n := by
  interval_cases n <;> norm_num

theorem self_pow_le {n : ℕ} (hn' : n ≤ 4) : n ^ n ≤ 256 := by
  interval_cases n <;> norm_num

/-- A product of up to four numbers of at most a thousand. -/
theorem scaled_le {n p : ℕ} (hn : n ≤ 4) (hp : p ≤ 1000 ^ n * wad) : p ≤ 10 ^ 12 * wad := by
  refine hp.trans (Nat.mul_le_mul_right _ ?_)
  calc 1000 ^ n ≤ 1000 ^ 4 := Nat.pow_le_pow_right (by norm_num) hn
    _ = 10 ^ 12 := by norm_num

theorem Constructed.workable {x n e p : ℕ} (hc : Constructed amp.val x n s e p)
    (hamp : 1 ≤ amp.val) (hamp' : amp.val ≤ 200) (hn : 2 ≤ n) (hn' : n ≤ 4)
    (hx : x ≤ 4 * 10 ^ 16) (hp : p ≤ 1000 ^ n * wad) (hguess : s.initialGuess.raw ≤ 1000 * wad) :
    Workable s (n - 1) := by
  have hnn4 := four_le_self_pow hn hn'
  have hnn256 := self_pow_le hn'
  have hp12 := scaled_le hn' hp
  have hb : 4 ≤ amp.val * n ^ n := by
    calc 4 = 1 * 4 := rfl
      _ ≤ amp.val * n ^ n := Nat.mul_le_mul hamp hnn4
  have hb' : amp.val * n ^ n ≤ 51200 := Nat.mul_le_mul hamp' hnn256
  have hnp : 10 ^ 6 ≤ n ^ n * p :=
    hc.product_ge.trans (Nat.le_mul_of_pos_left _ (by omega))
  have hnp' : n ^ n * p ≤ 256 * (10 ^ 12 * wad) := Nat.mul_le_mul hnn256 hp12
  have he : 0 < 1000 ^ e := Nat.pow_pos (by norm_num)
  have hguess_mul : s.initialGuess.raw * 1000 ^ e ≤ x * wad := by
    rw [hc.guess]
    exact Nat.div_mul_le_self _ _
  refine
    { exponent := by rw [hc.exponent]; omega
      degree_le := by omega
      linear_pos := ?_
      linear_le := ?_
      constant_ge := hc.constant_ge hamp (by omega)
      linear_mul_le := ?_
      guess_le := hguess
      rescales := ?_ }
  · rw [hc.linear]
    exact Nat.mul_pos (by omega) (by omega)
  · rw [hc.linear]
    calc (amp.val * n ^ n - 1) * (n ^ n * p) ≤ 51200 * (256 * (10 ^ 12 * wad)) :=
          Nat.mul_le_mul (by omega) hnp'
      _ ≤ 10 ^ 20 * wad := by norm_num
  · -- the constant term is above the linear term at the sum by more than a truncation
    rw [hc.linear, hc.constant]
    have hlt := Nat.lt_mul_div_succ (amp.val * n ^ n * x * (n ^ n * p)) he
    generalize amp.val * n ^ n * x * (n ^ n * p) / 1000 ^ e = t at hlt ⊢
    have hroom : 1000 ^ e ≤ n ^ n * p * x :=
      hc.scale_le.trans (Nat.le_mul_of_pos_left _ (by omega))
    obtain ⟨b, hbval⟩ : ∃ b, amp.val * n ^ n = b + 1 := ⟨amp.val * n ^ n - 1, by omega⟩
    rw [hbval] at hlt ⊢
    rw [Nat.add_sub_cancel]
    generalize n ^ n * p = np at hlt hroom ⊢
    generalize 1000 ^ e = w at *
    refine Nat.le_of_mul_le_mul_right ?_ he
    calc b * np * s.initialGuess.raw * w = b * np * (s.initialGuess.raw * w) := by ring
      _ ≤ b * np * (x * wad) := Nat.mul_le_mul_left _ hguess_mul
      _ = b * np * x * wad := by ring
      _ ≤ w * t * wad := by
          refine Nat.mul_le_mul_right _ ?_
          have hexpand : (b + 1) * x * np = b * np * x + np * x := by ring
          rw [hexpand, Nat.mul_succ] at hlt
          omega
      _ = t * wad * w := by ring
  · rw [hc.coef, ← Nat.mul_assoc, Nat.mul_div_cancel _ wad_pos]
    exact (hguess_mul.trans (Nat.mul_le_mul_right _ hx)).trans_lt (by norm_num)

/-- Every product that the coefficients are made of fits. -/
theorem exists_coefficients {n p sum coef : Decimal} {N x e : ℕ} (hn : n.raw = N * wad)
    (hx : sum.raw = x * wad) (hcoef : coef.raw = e * wad) (hamp : 1 ≤ amp.val)
    (hamp' : amp.val ≤ 200) (hN : 4 ≤ N) (hN' : N ≤ 256) (hp : p.raw ≤ 10 ^ 12 * wad)
    (hx' : x ≤ 4 * 10 ^ 16) (he : 0 < e) :
    ∃ nnp an an1 c ans ansp t : Decimal,
      tryMul (ε := AmmError) n p = .ok nnp ∧ tryMul (ε := AmmError) (ofU64 amp) n = .ok an
      ∧ trySub (ε := AmmError) an Decimal.one = .ok an1 ∧ tryMul (ε := AmmError) an1 nnp = .ok c
      ∧ tryMul (ε := AmmError) an sum = .ok ans ∧ tryMul (ε := AmmError) ans nnp = .ok ansp
      ∧ tryDiv (ε := AmmError) ansp coef = .ok t := by
  obtain ⟨nnp, hnnp⟩ := exists_tryMul (ε := AmmError) (x := n) (y := p) (by
    rw [Fixed.mul_whole_raw wad_pos hn]
    exact (Nat.mul_le_mul hN' hp).trans_lt (by norm_num))
  obtain ⟨an, han⟩ := exists_tryMul (ε := AmmError) (x := ofU64 amp) (y := n) (by
    rw [Fixed.mul_whole_raw wad_pos (ofU64_raw amp), hn]
    exact (Nat.mul_le_mul hamp' (Nat.mul_le_mul_right _ hN')).trans_lt (by norm_num))
  have hnnp' := hnnp
  rw [tryMul_eq_ok, Fixed.mul_whole_raw wad_pos hn] at hnnp'
  have han' := han
  rw [tryMul_eq_ok, Fixed.mul_whole_raw wad_pos (ofU64_raw amp), hn, ← Nat.mul_assoc] at han'
  have hb : 4 ≤ amp.val * N := by
    calc 4 = 1 * 4 := rfl
      _ ≤ amp.val * N := Nat.mul_le_mul hamp hN
  have hb' : amp.val * N ≤ 51200 := Nat.mul_le_mul hamp' hN'
  have hnnp_le : nnp.raw ≤ 256 * (10 ^ 12 * wad) := hnnp'.trans_le (Nat.mul_le_mul hN' hp)
  obtain ⟨an1, han1⟩ := exists_trySub (ε := AmmError) (x := an) (y := Decimal.one) (by
    rw [one_raw, han']
    exact Nat.le_mul_of_pos_left _ (by omega))
  have han1' := han1
  rw [trySub_eq_ok, han', one_raw] at han1'
  have han1'' : an1.raw = (amp.val * N - 1) * wad := by
    rw [han1'.2, Nat.sub_mul, Nat.one_mul]
  obtain ⟨c, hc⟩ := exists_tryMul (ε := AmmError) (x := an1) (y := nnp) (by
    rw [Fixed.mul_whole_raw wad_pos han1'']
    exact (Nat.mul_le_mul ((Nat.sub_le _ _).trans hb') hnnp_le).trans_lt (by norm_num))
  obtain ⟨ans, hans⟩ := exists_tryMul (ε := AmmError) (x := an) (y := sum) (by
    rw [Fixed.mul_whole_raw wad_pos han', hx]
    exact (Nat.mul_le_mul hb' (Nat.mul_le_mul_right _ hx')).trans_lt (by norm_num))
  have hans' := hans
  rw [tryMul_eq_ok, Fixed.mul_whole_raw wad_pos han', hx, ← Nat.mul_assoc] at hans'
  have hansp_le : ans.raw * nnp.raw / wad ≤ 51200 * (4 * 10 ^ 16) * (256 * (10 ^ 12 * wad)) := by
    rw [Fixed.mul_whole_raw wad_pos hans']
    exact Nat.mul_le_mul (Nat.mul_le_mul hb' hx') hnnp_le
  obtain ⟨ansp, hansp⟩ := exists_tryMul (ε := AmmError) (x := ans) (y := nnp)
    (hansp_le.trans_lt (by norm_num))
  have hcoef_pos : coef.raw ≠ 0 := by
    rw [hcoef]
    exact (Nat.mul_pos he wad_pos).ne'
  obtain ⟨t, ht⟩ := exists_tryDiv (ε := AmmError) (x := ansp) hcoef_pos (by
    rw [hcoef, Nat.mul_div_mul_right _ _ wad_pos]
    exact (Nat.div_le_self _ _).trans_lt ansp.raw_lt)
  exact ⟨nnp, an, an1, c, ans, ansp, t, hnnp, han, han1, hc, hans, hansp, ht⟩

/-- **The coefficients** of a healthy pool are computed, and can be worked
with. -/
theorem new_workable (hm : m.Lawful) (ht : m.Total) (hamp : 1 ≤ amp.val) (hamp' : amp.val ≤ 200)
    (hlen : 2 ≤ reserves.length) (hlen' : reserves.length ≤ 4)
    (hres : ∀ x ∈ reserves, 1 ≤ x.val ∧ x.val ≤ 10 ^ 16)
    (hproduct : ∃ p, scaledDownProduct m reserves = .ok p ∧ minProduct ≤ p) :
    ∃ s, new m amp reserves = .ok s ∧ Workable s (reserves.length - 1)
      ∧ 0 < s.initialGuess.raw := by
  obtain ⟨p, hp, hmin⟩ := hproduct
  simp only [scaledDownProduct, bind_eq_ok, PowSqrt.pow_eq_ok] at hp
  obtain ⟨sum, hsum, out, hout, coef, hcoef, hp⟩ := hp
  have hx := sum_whole (n := 0) (by rw [zero_raw, Nat.zero_mul]) hsum
  rw [Nat.zero_add] at hx
  have hx_le : (reserves.map (·.val)).sum ≤ 4 * 10 ^ 16 := by
    have hle : (reserves.map (·.val)).sum ≤ (reserves.map (·.val)).length • 10 ^ 16 :=
      List.sum_le_card_nsmul _ _ (fun y hy => by
        obtain ⟨x, hx, rfl⟩ := List.mem_map.mp hy
        exact (hres x hx).2)
    rw [List.length_map, nsmul_eq_mul, Nat.cast_id] at hle
    exact hle.trans (Nat.mul_le_mul_right _ hlen')
  have hx_pos := one_le_sum_reserves (List.length_pos_iff.mp (by omega)) (fun x hx => (hres x hx).1)
  obtain ⟨e, he, hscaled, -⟩ := scaleDownLoop_spec hout
  have hguess : out.scaleDown.raw ≤ 1000 * wad := scaleDownLoop_le hout
  have hcoef' := pow_whole hm (k := 1000) rfl hcoef
  rw [he, Nat.zero_add] at hcoef'
  have hparts : ∀ x ∈ reserves, x.val * wad / 1000 ^ e ≤ 1000 * wad := by
    intro x hxmem
    refine (Nat.div_le_div_right ?_).trans (hscaled.symm.trans_le hguess)
    rw [hx]
    exact Nat.mul_le_mul_right _ (List.le_sum_of_mem (List.mem_map.mpr ⟨x, hxmem, rfl⟩))
  have hp_le : p.raw ≤ 1 * 1000 ^ reserves.length * wad :=
    scaledProduct_le hcoef' hparts (by rw [one_raw, Nat.one_mul]) hp
  rw [Nat.one_mul] at hp_le
  have hexp : (Word.wrap reserves.length : U64).val = reserves.length :=
    Word.wrap_val (by omega)
  have hbase : (ofU64 (Word.wrap reserves.length)).raw = reserves.length * wad := by
    rw [ofU64_raw, hexp]
  obtain ⟨n, hn⟩ := pow_moderate ht (n := reserves.length)
    (hbase.trans_le (Nat.mul_le_mul_right _ (by omega))) (by omega)
  have hn' := pow_whole hm hbase hn
  obtain ⟨nnp, an, an1, c, ans, ansp, t, hnnp, han, han1, hc, hans, hansp, ht'⟩ :=
    exists_coefficients hn' hx hcoef' hamp hamp' (four_le_self_pow hlen hlen')
      (self_pow_le hlen') (scaled_le hlen' hp_le) hx_le (Nat.pow_pos (by norm_num))
  have hnew : new m amp reserves = .ok
      { exponent := Word.wrap reserves.length
        initialGuess := out.scaleDown
        sclDownCoef := coef
        firstOrderCoeff := c
        polynomialThirdTerm := t } := by
    simp only [new, bind_eq_ok, ensure_eq_ok, pure_eq_ok, PowSqrt.pow_eq_ok]
    exact ⟨sum, hsum, out, hout, coef, hcoef, p, hp, (), hmin, n, by rw [hexp]; exact hn, nnp, hnnp,
      an, han, an1, han1, c, hc, ans, hans, ansp, hansp, t, ht', rfl⟩
  refine ⟨_, hnew, ?_⟩
  obtain ⟨sum', out', coef', p', hsum', hout', hcoef'', hp', hconstructed⟩ :=
    constructed_from hm (by omega) hx_pos hnew
  obtain rfl : sum' = sum := Fixed.ext (hsum'.trans hx.symm)
  obtain rfl : out' = out := Except.ok.inj (hout'.symm.trans hout)
  obtain rfl : coef' = coef := Option.some.inj (hcoef''.symm.trans hcoef)
  obtain rfl : p' = p := Except.ok.inj (hp'.symm.trans hp)
  exact ⟨hconstructed.workable hamp hamp' hlen hlen' hx_le hp_le hguess,
    wad_pos.trans_le hconstructed.guess_ge⟩

end Healthy

/-- **The condition**, in arithmetic of the amplifier and the reserves: at
their scaled sum the terms of the polynomial do not fall below its constant
one, and are equal to it or exceed it by what a unit step is worth. -/
def FirstStepCounts (m : PowSqrt) (amp : ℕ) (reserves : List ℕ) : Prop :=
  constantTerm amp reserves ≤ leadingTerms m amp reserves
    ∧ (leadingTerms m amp reserves = constantTerm amp reserves
      ∨ (reserves.length + 1) * m.powRaw (scaledSum reserves) reserves.length
          + linearCoeff amp reserves
        ≤ (leadingTerms m amp reserves - constantTerm amp reserves) * wad)

instance (m : PowSqrt) (amp : ℕ) (reserves : List ℕ) : Decidable (FirstStepCounts m amp reserves) :=
  inferInstanceAs (Decidable (_ ∧ (_ ∨ _)))

/-- The first guess counts in the same arithmetic. -/
theorem counts_initialGuess_iff {m : PowSqrt} (hm : m.Lawful) (ht : m.Total) {amp : U64}
    {reserves : List TokenAmount} {s : StableCurveInvariant} (hlen : 2 ≤ reserves.length)
    (hlen' : reserves.length ≤ 4) (hsum : 1 ≤ (reserves.map (·.val)).sum)
    (hs : new m amp reserves = .ok s) (hw : Workable s (reserves.length - 1)) :
    Counts m s s.initialGuess ↔ FirstStepCounts m amp.val (reserves.map (·.val)) := by
  have hlin := coefficients_eq hm (by omega) hsum hs
  have hguess : s.initialGuess.raw = scaledSum (reserves.map (·.val)) :=
    (constructed hm (by omega) hsum hs).guess
  rw [hw.counts_iff hm ht hw.guess_le, hlin.1, hlin.2, hguess, FirstStepCounts, leadingTerms,
    List.length_map]
  obtain ⟨k, hk⟩ := Nat.exists_eq_add_of_le' (by omega : 1 ≤ reserves.length)
  rw [hk, Nat.add_sub_cancel]

end StableCurveInvariant

/-- **Progress.** For an amplifier of at most 200 and two to four reserves
of at most `10 ^ 16` tokens whose scaled product passes the check, the
coefficients are computed, and so is the invariant if and only if the first
step from the scaled sum of the reserves counts: no later one fails. -/
theorem invariant_computed_iff {m : PowSqrt} (hm : m.Lawful) (ht : m.Total) {amp : U64}
    {reserves : List TokenAmount} (hamp : 1 ≤ amp.val ∧ amp.val ≤ 200)
    (hlen : 2 ≤ reserves.length ∧ reserves.length ≤ 4)
    (hres : ∀ x ∈ reserves, 1 ≤ x.val ∧ x.val ≤ 10 ^ 16)
    (hproduct : ∃ p, StableCurveInvariant.scaledDownProduct m reserves = .ok p ∧ minProduct ≤ p) :
    (∃ s, StableCurveInvariant.new m amp reserves = .ok s)
      ∧ ((∃ d, computeInvariant m amp reserves = .ok d)
        ↔ StableCurveInvariant.FirstStepCounts m amp.val (reserves.map (·.val))) := by
  obtain ⟨s, hs, hw, hpos⟩ := StableCurveInvariant.new_workable hm ht hamp.1 hamp.2 hlen.1 hlen.2
    hres hproduct
  refine ⟨⟨s, hs⟩, ?_⟩
  have hne : amp ≠ 0 := fun h0 => by
    have := Word.val_eq_zero.mpr h0
    omega
  have hcompute : computeInvariant m amp reserves
      = s.computeLoop m ⟨wad / 2, by norm_num⟩ MAX_ITERATIONS s.initialGuess := by
    have hensure : ensure (amp ≠ 0) (.invalidArg
        "Input value of amplifier is zero, reduces to constant product curve case")
        = (.ok () : Except AmmError Unit) := ensure_eq_ok.mpr hne
    rw [computeInvariant, hensure, ok_bind, hs, ok_bind]
    rfl
  have hsum := one_le_sum_reserves (List.length_pos_iff.mp (by omega)) (fun x hx => (hres x hx).1)
  rw [hcompute, ← StableCurveInvariant.counts_initialGuess_iff hm ht hlen.1 hlen.2 hsum hs hw]
  constructor
  · rintro ⟨d, hd⟩
    exact StableCurveInvariant.counts_of_computeLoop hd
  · intro hcounts
    exact hw.computeLoop_ok hm ht (by norm_num) hpos le_rfl hcounts

/-- A pool of one and three million tokens is far from balance. -/
theorem invariant_computed_uneven :
    ∃ d, computeInvariant PowSqrt.digitwise 10 [1000000, 3000000] = .ok d := by
  have hproduct : ((StableCurveInvariant.scaledDownProduct PowSqrt.digitwise
      [1000000, 3000000]).toOption.any (fun p => minProduct ≤ p)) = true := by decide +kernel
  have hpassed : ∃ p, StableCurveInvariant.scaledDownProduct PowSqrt.digitwise
      [1000000, 3000000] = .ok p ∧ minProduct ≤ p := by
    cases h : StableCurveInvariant.scaledDownProduct PowSqrt.digitwise [1000000, 3000000] with
    | error e => rw [h] at hproduct; cases hproduct
    | ok p =>
        rw [h] at hproduct
        exact ⟨p, rfl, of_decide_eq_true hproduct⟩
  have hamp : 1 ≤ (10 : U64).val ∧ (10 : U64).val ≤ 200 := by decide
  have hlen : 2 ≤ ([1000000, 3000000] : List TokenAmount).length
      ∧ ([1000000, 3000000] : List TokenAmount).length ≤ 4 := by decide
  have hres : ∀ x ∈ ([1000000, 3000000] : List TokenAmount), 1 ≤ x.val ∧ x.val ≤ 10 ^ 16 := by
    decide
  exact (invariant_computed_iff PowSqrt.digitwise_lawful PowSqrt.digitwise_total hamp hlen hres
    hpassed).2.mpr (by decide +kernel)

/-- **One token off balance.** For a thousand million tokens and one more the
polynomial at the sum is positive, but its step is truncated to zero. -/
theorem invariant_not_computed :
    (StableCurveInvariant.scaledDownProduct PowSqrt.digitwise
        [1000000000, 1000000001]).toOption.any (fun p => minProduct ≤ p) = true
      ∧ computeInvariant PowSqrt.digitwise 10 [1000000000, 1000000001]
        = .error (.invariantViolation
          "Invalid mathematical assumption: previous value cannot be less or equal to new value") := by
  decide +kernel

end SolanaAmm.Amm
