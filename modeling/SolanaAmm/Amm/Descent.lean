import SolanaAmm.Amm.Newton
import SolanaAmm.Lib.Newton
import SolanaAmm.Lib.Value

/-!
# Amm — Descent

The iterations of `StableCurveInvariant::compute` as truncated Newton
steps over the rationals: what the code evaluates at an iterate, the step
that it takes from there.
-/

namespace SolanaAmm.Amm

open Result Decimal

namespace StableCurveInvariant

variable {m : PowSqrt} {s : StableCurveInvariant} {k fuel : ℕ}
  {val val' out poly deriv admissible d : Decimal}

/-- A unit in the last place of a decimal. -/
abbrev ulp : ℚ := Fixed.unit wad

theorem ulp_nonneg : 0 ≤ ulp := (Fixed.unit_pos wad_pos).le

theorem ulp_eq : ulp = 1 / 10 ^ 18 := by norm_num [ulp, Fixed.unit]

theorem zero_value : Fixed.value Decimal.zero = 0 := by
  rw [Fixed.value, zero_raw, Nat.cast_zero, zero_div]

/-! ## One iteration -/

/-- The value that the code evaluates at an iterate. -/
theorem truncated_value (hm : m.Lawful) {pn1 second : Decimal}
    (hpn1 : m.tryPow val (k + 2) = some pn1)
    (hsecond : second.raw = val.raw * s.firstOrderCoeff.raw / wad) :
    pn1.value + second.value - s.polynomialThirdTerm.value
        ≤ Newton.poly k s.firstOrderCoeff.value s.polynomialThirdTerm.value val.value
      ∧ Newton.poly k s.firstOrderCoeff.value s.polynomialThirdTerm.value val.value
        ≤ pn1.value + second.value - s.polynomialThirdTerm.value
          + Newton.hiddenValue k ulp val.value := by
  have hchain1 : Fixed.PowChain val (k + 2) pn1 := hm.pow_chain (Nat.succ_pos _) hpn1
  constructor
  · have hpow := hchain1.value_le wad_pos
    have hmul := Fixed.value_mul_le wad_pos hsecond
    unfold Newton.poly
    linarith
  · have hpow := hchain1.le_value wad_pos
    have hmul := Fixed.lt_value_mul wad_pos hsecond
    push_cast at hpow
    unfold Newton.poly Newton.hiddenValue
    linarith

/-- What the code evaluates at an iterate. -/
theorem truncated (hm : m.Lawful) {pn1 second pn : Decimal}
    (hpn1 : m.tryPow val (k + 2) = some pn1)
    (hsecond : second.raw = val.raw * s.firstOrderCoeff.raw / wad)
    (hpn : m.tryPow val (k + 1) = some pn) :
    Newton.Truncated k s.firstOrderCoeff.value s.polynomialThirdTerm.value ulp val.value
      (pn1.value + second.value - s.polynomialThirdTerm.value)
      ((k + 2) * pn.value + s.firstOrderCoeff.value) := by
  have hchain : Fixed.PowChain val (k + 1) pn := hm.pow_chain (Nat.succ_pos _) hpn
  have hk : (0 : ℚ) ≤ k + 2 := by positivity
  obtain ⟨hle, hge⟩ := truncated_value hm hpn1 hsecond
  refine ⟨hle, hge, ?_, ?_⟩
  · have hpow := mul_le_mul_of_nonneg_left (hchain.value_le wad_pos) hk
    unfold Newton.slope
    linarith
  · have hpow := mul_le_mul_of_nonneg_left (hchain.le_value wad_pos) hk
    unfold Newton.slope Newton.hiddenSlope
    linarith

/-- The value and the slope that the code computes at an iterate. -/
theorem evaluated (hm : m.Lawful) (hexp : s.exponent.val = k + 1)
    (hpoly : s.getStableSwapPolynomial m val = .ok poly)
    (hderiv : s.getDerivateStableSwapPolynomial m val = .ok deriv) :
    Newton.Truncated k s.firstOrderCoeff.value s.polynomialThirdTerm.value ulp val.value
      poly.value deriv.value := by
  simp only [getStableSwapPolynomial, getDerivateStableSwapPolynomial, bind_eq_ok,
    PowSqrt.pow_eq_ok, tryMul_eq_ok, tryAdd_eq_ok, trySub_eq_ok, hexp] at hpoly hderiv
  obtain ⟨pn1, hpn1, second, hsecond, sum, hsum, hle, hpoly⟩ := hpoly
  obtain ⟨n1, hn1, pn, hpn, first, hfirst, hderiv⟩ := hderiv
  have hn1' : n1.raw = (k + 2) * wad := by
    rw [hn1, ofU64_raw, hexp, one_raw, ← Nat.succ_mul]
  have hfirst' : first.value = (k + 2) * pn.value := by
    rw [Fixed.mul_whole_raw wad_pos hn1'] at hfirst
    rw [Fixed.value, hfirst, Fixed.value]
    push_cast
    exact mul_div_assoc _ _ _
  have htrunc := truncated hm hpn1 hsecond hpn
  rw [Fixed.value_sub hle hpoly, Fixed.value_add hsum, Fixed.value_add hderiv, hfirst']
  exact htrunc

/-- **One iteration** is a truncated Newton step. -/
theorem iteration_step (hm : m.Lawful) (hexp : s.exponent.val = k + 1)
    (h : s.newtonMethodSingleIteration m val = .ok val') :
    ∃ poly deriv, s.getStableSwapPolynomial m val = .ok poly
      ∧ s.getDerivateStableSwapPolynomial m val = .ok deriv
      ∧ val'.raw ≤ val.raw
      ∧ Newton.Step k s.firstOrderCoeff.value s.polynomialThirdTerm.value ulp val.value
        (val.value - val'.value) poly.value deriv.value := by
  simp only [newtonMethodSingleIteration, bind_eq_ok, trySub_eq_ok, tryDiv_eq_ok] at h
  obtain ⟨poly, hpoly, deriv, hderiv, step, ⟨hne, hstep⟩, hle, hval'⟩ := h
  have hback : val.value - val'.value = step.value := by
    rw [Fixed.value_sub hle hval']
    ring
  refine ⟨poly, deriv, hpoly, hderiv, hval' ▸ Nat.sub_le _ _, ?_⟩
  rw [hback]
  exact
    { toTruncated := evaluated hm hexp hpoly hderiv
      step_nonneg := step.value_nonneg
      step_le := (Fixed.value_le_value wad_pos).mpr hle
      slope_pos := by
        have hpos : (0 : ℚ) < deriv.raw := by exact_mod_cast Nat.pos_of_ne_zero hne
        unfold Fixed.value
        positivity
      mul_le := Fixed.value_div_le wad_pos hstep
      lt_mul := Fixed.lt_value_div wad_pos hne hstep }

/-- A value that the code computes is that of the polynomial, but for what
truncation hides. -/
theorem value_truncated (hm : m.Lawful) (hexp : s.exponent.val = k + 1)
    (hpoly : s.getStableSwapPolynomial m val = .ok poly) :
    poly.value ≤ Newton.poly k s.firstOrderCoeff.value s.polynomialThirdTerm.value val.value
      ∧ Newton.poly k s.firstOrderCoeff.value s.polynomialThirdTerm.value val.value
        ≤ poly.value + Newton.hiddenValue k ulp val.value := by
  simp only [getStableSwapPolynomial, bind_eq_ok, PowSqrt.pow_eq_ok, tryMul_eq_ok, tryAdd_eq_ok,
    trySub_eq_ok, hexp] at hpoly
  obtain ⟨pn1, hpn1, second, hsecond, sum, hsum, hle, hpoly⟩ := hpoly
  rw [Fixed.value_sub hle hpoly, Fixed.value_add hsum]
  exact truncated_value hm hpn1 hsecond

end StableCurveInvariant

end SolanaAmm.Amm
