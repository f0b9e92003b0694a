import SolanaAmm.Amm.Convergence
import SolanaAmm.Amm.Progress
import Mathlib.Tactic.IntervalCases
import Mathlib.Tactic.NormNum

/-!
# Amm — Accuracy of the invariant

How far the computed invariant is from the zero of the exact polynomial.
The loop is left after a step of at most one half in scaled units, which
ends within a token of the zero where the slope outweighs, over a token,
the curvature over the step: always as long as nothing is scaled down, and
with larger reserves while the linear coefficient is large enough. The only
other way out is at the first guess, when the sum itself is a root.
-/

namespace SolanaAmm.Amm

open Result Decimal

/-- The stable swap polynomial of the reserves, exactly. -/
def stableSwapPolynomial (amp : ℕ) (reserves : List ℕ) (d : ℚ) : ℚ :=
  d ^ (reserves.length + 1)
    + (amp * reserves.length ^ reserves.length - 1) * reserves.length ^ reserves.length
      * reserves.prod * d
    - amp * reserves.length ^ reserves.length * reserves.length ^ reserves.length
      * reserves.prod * reserves.sum

/-- The zero of the polynomial is within a token of `d`. -/
def WithinToken (amp : ℕ) (reserves : List ℕ) (d : ℚ) : Prop :=
  stableSwapPolynomial amp reserves (max (d - 1) 0) ≤ 0
    ∧ 0 ≤ stableSwapPolynomial amp reserves (d + 1)

namespace StableCurveInvariant

variable {m : PowSqrt} {s : StableCurveInvariant} {k fuel : ℕ} {c t : ℚ}
  {val val' out admissible d poly : Decimal} {exit : Exit} {iterates : List Decimal}

/-! ## The last step -/

section LastStep

variable {δ : ℚ} (hm : m.Lawful) (hexp : s.exponent.val = k + 1) (hk3 : k ≤ 3)
  (hc : 1 ≤ s.firstOrderCoeff.value) (hδ : 60 * ulp ≤ δ)

include hc hδ

omit hδ in
/-- Up from a point where it is not negative the polynomial grows. -/
theorem rise {y e : ℚ} (hy : 0 ≤ y) (he : 0 ≤ e)
    (h : 0 ≤ Newton.poly k s.firstOrderCoeff.value s.polynomialThirdTerm.value y) :
    e ≤ Newton.poly k s.firstOrderCoeff.value s.polynomialThirdTerm.value (y + e) := by
  have htan : Newton.poly k s.firstOrderCoeff.value s.polynomialThirdTerm.value y
      + Newton.slope k s.firstOrderCoeff.value y * (y + e - y) ≤ _ :=
    Newton.poly_tangent_le hy (add_nonneg hy he)
  have hslope : 1 ≤ Newton.slope k s.firstOrderCoeff.value y := by
    have hpow : 0 ≤ (k + 2) * y ^ (k + 1) := by positivity
    unfold Newton.slope
    linarith
  have hrise := le_mul_of_one_le_left he hslope
  linarith

include hm hexp

theorem root_above (hroot : s.getStableSwapPolynomial m val = .ok Decimal.zero) :
    ulp ≤ Newton.poly k s.firstOrderCoeff.value s.polynomialThirdTerm.value (val.value + δ) := by
  have hu0 := ulp_nonneg
  obtain ⟨hvalue, -⟩ := value_truncated hm hexp hroot
  rw [zero_value] at hvalue
  have hrise := rise hc val.value_nonneg (by linarith : 0 ≤ δ) hvalue
  linarith

include hk3

theorem short_above (hstep : s.newtonMethodSingleIteration m val = .ok val') :
    ulp ≤ Newton.poly k s.firstOrderCoeff.value s.polynomialThirdTerm.value (val'.value + δ) := by
  have hkq : (k : ℚ) ≤ 3 := by exact_mod_cast hk3
  have hu0 := ulp_nonneg
  have hku : (k : ℚ) * ulp ≤ 3 * ulp := mul_le_mul_of_nonneg_right hkq hu0
  obtain ⟨_, _, -, -, -, h⟩ := iteration_step hm hexp hstep
  have hcu : (k + 2) * (k * ulp) ≤ δ / 2 * s.firstOrderCoeff.value := by
    calc (k + 2) * (k * ulp) ≤ 5 * (3 * ulp) := by
          refine mul_le_mul (by linarith) hku (by positivity) (by norm_num)
      _ ≤ δ / 2 * 1 := by linarith
      _ ≤ δ / 2 * s.firstOrderCoeff.value := mul_le_mul_of_nonneg_left hc (by linarith)
  have habove := h.poly_add_nonneg (by linarith : k * ulp ≤ δ / 2) hcu (by linarith) hu0
  rw [sub_sub_cancel] at habove
  have hrise := rise hc (add_nonneg val'.value_nonneg (by linarith)) (by linarith : 0 ≤ δ / 2)
    habove
  rw [add_assoc, add_halves] at hrise
  linarith

theorem root_below (hroot : s.getStableSwapPolynomial m val = .ok Decimal.zero)
    (hle : δ ≤ val.value) :
    Newton.poly k s.firstOrderCoeff.value s.polynomialThirdTerm.value (val.value - δ) ≤ 0 := by
  have hkq : (k : ℚ) ≤ 3 := by exact_mod_cast hk3
  have hu0 := ulp_nonneg
  obtain ⟨-, hvalue⟩ := value_truncated hm hexp hroot
  rw [zero_value, zero_add] at hvalue
  have hhidden := Newton.hiddenValue_le_mul (k := k) hu0 hc val.value_nonneg
  have hsec := Newton.secant_le (n := k + 1) (sub_nonneg.mpr hle)
    (sub_le_self val.value (by linarith : 0 ≤ δ))
  have hpow : 0 ≤ val.value ^ (k + 1) := pow_nonneg val.value_nonneg _
  -- what truncation hides is less than the secant takes away over a token
  have hslope : Newton.slope k s.firstOrderCoeff.value val.value
      ≤ 5 * (val.value ^ (k + 1) + s.firstOrderCoeff.value) := by
    have hterm := mul_le_mul_of_nonneg_right (by linarith : (k + 2 : ℚ) ≤ 5) hpow
    unfold Newton.slope
    linarith
  have hbound : (k + 2) * (Newton.slope k s.firstOrderCoeff.value val.value * ulp)
      ≤ δ * (val.value ^ (k + 1) + s.firstOrderCoeff.value) := by
    calc (k + 2) * (Newton.slope k s.firstOrderCoeff.value val.value * ulp)
        ≤ 5 * (5 * (val.value ^ (k + 1) + s.firstOrderCoeff.value) * ulp) := by
          refine mul_le_mul (by linarith) (mul_le_mul_of_nonneg_right hslope hu0) ?_ (by norm_num)
          exact mul_nonneg (Newton.slope_pos (by linarith) val.value_nonneg).le hu0
      _ = 25 * ulp * (val.value ^ (k + 1) + s.firstOrderCoeff.value) := by ring
      _ ≤ δ * (val.value ^ (k + 1) + s.firstOrderCoeff.value) :=
          mul_le_mul_of_nonneg_right (by linarith) (by linarith)
  unfold Newton.poly at *
  linarith

theorem short_below (hstep : s.newtonMethodSingleIteration m val = .ok val')
    (hshort : 2 * (val.raw - val'.raw) ≤ wad) (hle : δ ≤ val'.value)
    (hcurve : (k + 2) * (k + 1) / 2 * val.value ^ k * (1 / 2 + δ) ^ 2
      ≤ 9 / 10 * (δ * Newton.slope k s.firstOrderCoeff.value val.value)) :
    Newton.poly k s.firstOrderCoeff.value s.polynomialThirdTerm.value (val'.value - δ) ≤ 0 := by
  have hkq : (k : ℚ) ≤ 3 := by exact_mod_cast hk3
  have hu0 := ulp_nonneg
  obtain ⟨_, _, -, -, hraw, h⟩ := iteration_step hm hexp hstep
  have hstop : val.value - val'.value ≤ 1 / 2 := by
    have hcast : 2 * ((val.raw : ℚ) - val'.raw) ≤ wad := by
      rw [← Nat.cast_sub hraw]
      exact_mod_cast hshort
    unfold Fixed.value
    rw [← sub_div, div_le_div_iff₀ (by norm_num) (by norm_num), one_mul, mul_comm]
    exact hcast
  have hbelow := h.poly_sub_le hu0 (by linarith : 0 ≤ δ) (by linarith)
  rw [sub_sub_cancel] at hbelow
  have hhidden := Newton.hiddenValue_le_mul (k := k) hu0 hc val.value_nonneg
  have hslope : 0 < Newton.slope k s.firstOrderCoeff.value val.value :=
    Newton.slope_pos (by linarith) val.value_nonneg
  have hsq : (val.value - val'.value + δ) ^ 2 ≤ (1 / 2 + δ) ^ 2 :=
    pow_le_pow_left₀ (add_nonneg h.step_nonneg (by linarith)) (by linarith) 2
  have hterm : (k + 2) * (k + 1) / 2 * val.value ^ k * (val.value - val'.value + δ) ^ 2
      ≤ (k + 2) * (k + 1) / 2 * val.value ^ k * (1 / 2 + δ) ^ 2 := by
    refine mul_le_mul_of_nonneg_left hsq ?_
    have := pow_nonneg val.value_nonneg k
    positivity
  -- the curvature and what truncation hides are within the slope over a token
  have hunits : (k + 2) * (Newton.slope k s.firstOrderCoeff.value val.value * ulp)
      ≤ 5 * (Newton.slope k s.firstOrderCoeff.value val.value * ulp) :=
    mul_le_mul_of_nonneg_right (by linarith) (by positivity)
  have hrest := mul_le_mul_of_nonneg_right hδ hslope.le
  linarith

/-- **Within a token**: what the loop returns, by either way out, where the
slope outweighs the curvature. -/
theorem LeftBy.accurate (h : LeftBy m s d exit iterates) (hexit : exit ≠ .exhausted)
    (hhead : iterates.head? = some s.initialGuess) (hchain : iterates.IsChain (· > ·))
    (hsteps : iterates.IsChain (fun val val' => s.newtonMethodSingleIteration m val = .ok val'))
    (hcurve : ∀ y, 0 ≤ y → y ≤ s.initialGuess.value →
      (k + 2) * (k + 1) / 2 * y ^ k * (1 / 2 + δ) ^ 2
        ≤ 9 / 10 * (δ * Newton.slope k s.firstOrderCoeff.value y)) :
    ∃ out, tryMul (ε := AmmError) out s.sclDownCoef = .ok d
      ∧ (δ ≤ out.value →
        Newton.poly k s.firstOrderCoeff.value s.polynomialThirdTerm.value (out.value - δ) ≤ 0)
      ∧ ulp
        ≤ Newton.poly k s.firstOrderCoeff.value s.polynomialThirdTerm.value (out.value + δ) := by
  cases h with
  | root before hroot hd =>
      exact ⟨_, hd, root_below hm hexp hk3 hc hδ hroot, root_above hm hexp hc hδ hroot⟩
  | @short before prev last hshort hd =>
      have hstep : s.newtonMethodSingleIteration m prev = .ok last :=
        (List.isChain_cons_cons.mp (List.isChain_append.mp hsteps).2.1).1
      have hprev : prev ≤ s.initialGuess := iterate_le hhead hchain (by simp)
      have hprev' := hcurve prev.value prev.value_nonneg ((Fixed.value_le_value wad_pos).mpr hprev)
      exact ⟨_, hd, fun hle => short_below hm hexp hk3 hc hδ hstep hshort hle hprev',
        short_above hm hexp hk3 hc hδ hstep⟩
  | spent => exact absurd rfl hexit

end LastStep

/-! ## The exact polynomial in scaled units -/

section Scaled

variable {amp e p : ℕ} {xs : List ℕ}

/-- The linear coefficient where the scaled product is exact. -/
theorem Constructed.linear_value (hamp : 0 < amp) (hlen : xs.length = k + 1)
    (hc : Constructed amp xs.sum xs.length s e p)
    (hp : p * 1000 ^ (e * xs.length) = xs.prod * wad) :
    s.firstOrderCoeff.value * (1000 ^ e) ^ (k + 1)
      = (amp * xs.length ^ xs.length - 1) * xs.length ^ xs.length * xs.prod := by
  have hnn : 1 ≤ amp * xs.length ^ xs.length := by
    rw [hlen]
    exact Nat.mul_pos hamp (Nat.pow_pos (Nat.succ_pos k))
  have hraw : s.firstOrderCoeff.raw * (1000 ^ e) ^ (k + 1)
      = (amp * xs.length ^ xs.length - 1) * xs.length ^ xs.length * xs.prod * wad := by
    rw [hc.linear, ← hlen, ← Nat.pow_mul]
    calc (amp * xs.length ^ xs.length - 1) * (xs.length ^ xs.length * p) * 1000 ^ (e * xs.length)
        = (amp * xs.length ^ xs.length - 1) * xs.length ^ xs.length
          * (p * 1000 ^ (e * xs.length)) := by ring
      _ = _ := by rw [hp, Nat.mul_assoc _ xs.prod]
  have hcast : (s.firstOrderCoeff.raw : ℚ) * (1000 ^ e) ^ (k + 1)
      = (amp * xs.length ^ xs.length - 1) * xs.length ^ xs.length * xs.prod * wad := by
    have := congrArg (Nat.cast (R := ℚ)) hraw
    rw [Nat.cast_mul, Nat.cast_mul, Nat.cast_mul, Nat.cast_mul, Nat.cast_sub hnn] at this
    exact_mod_cast this
  rw [Fixed.value, div_mul_eq_mul_div, hcast, mul_div_cancel_right₀ _ (by norm_num)]

/-- The constant term there, but for its own truncation. -/
theorem Constructed.constant_value (hlen : xs.length = k + 1)
    (hc : Constructed amp xs.sum xs.length s e p)
    (hp : p * 1000 ^ (e * xs.length) = xs.prod * wad) :
    s.polynomialThirdTerm.value * (1000 ^ e) ^ (k + 2)
        ≤ amp * xs.length ^ xs.length * xs.length ^ xs.length * xs.prod * xs.sum
      ∧ (amp * xs.length ^ xs.length * xs.length ^ xs.length * xs.prod * xs.sum : ℚ)
        ≤ (s.polynomialThirdTerm.value + ulp) * (1000 ^ e) ^ (k + 2) := by
  have hw : (0 : ℚ) < wad := by norm_num
  have hσ : 0 < 1000 ^ e := Nat.pow_pos (by norm_num)
  have hfull : amp * xs.length ^ xs.length * xs.sum * (xs.length ^ xs.length * p)
        * (1000 ^ e) ^ (k + 1)
      = amp * xs.length ^ xs.length * xs.length ^ xs.length * xs.prod * xs.sum * wad := by
    rw [← hlen, ← Nat.pow_mul]
    calc amp * xs.length ^ xs.length * xs.sum * (xs.length ^ xs.length * p) * 1000 ^ (e * xs.length)
        = amp * xs.length ^ xs.length * xs.length ^ xs.length * xs.sum
          * (p * 1000 ^ (e * xs.length)) := by ring
      _ = _ := by rw [hp]; ring
  have hle : s.polynomialThirdTerm.raw * (1000 ^ e) ^ (k + 2)
      ≤ amp * xs.length ^ xs.length * xs.length ^ xs.length * xs.prod * xs.sum * wad := by
    rw [← hfull, hc.constant, Nat.pow_succ' (n := k + 1), ← Nat.mul_assoc]
    exact Nat.mul_le_mul_right _ (Nat.div_mul_le_self _ _)
  have hge : amp * xs.length ^ xs.length * xs.length ^ xs.length * xs.prod * xs.sum * wad
      ≤ (s.polynomialThirdTerm.raw + 1) * (1000 ^ e) ^ (k + 2) := by
    rw [← hfull, hc.constant, Nat.pow_succ' (n := k + 1), ← Nat.mul_assoc (_ + 1)]
    refine Nat.mul_le_mul_right _ ?_
    rw [Nat.mul_comm (_ + 1)]
    exact (Nat.lt_mul_div_succ _ hσ).le
  constructor
  · rw [Fixed.value, div_mul_eq_mul_div, div_le_iff₀ hw]
    exact_mod_cast hle
  · rw [Fixed.value, ulp, Fixed.unit, ← add_div, div_mul_eq_mul_div, le_div_iff₀ hw]
    exact_mod_cast hge

/-- **The exact polynomial** lies at most a unit below the code's, in scaled
units. -/
theorem Constructed.polynomial_bounds (hamp : 0 < amp) (hlen : xs.length = k + 1)
    (hc : Constructed amp xs.sum xs.length s e p)
    (hp : p * 1000 ^ (e * xs.length) = xs.prod * wad) (y : ℚ) :
    stableSwapPolynomial amp xs (1000 ^ e * y) ≤ (1000 ^ e) ^ (k + 2)
        * Newton.poly k s.firstOrderCoeff.value s.polynomialThirdTerm.value y
      ∧ (1000 ^ e) ^ (k + 2)
          * (Newton.poly k s.firstOrderCoeff.value s.polynomialThirdTerm.value y - ulp)
        ≤ stableSwapPolynomial amp xs (1000 ^ e * y) := by
  obtain ⟨hle, hge⟩ := hc.constant_value hlen hp
  have hlinear := hc.linear_value hamp hlen hp
  have hsplit : stableSwapPolynomial amp xs (1000 ^ e * y) = (1000 ^ e) ^ (k + 2)
        * Newton.poly k s.firstOrderCoeff.value s.polynomialThirdTerm.value y
      + (s.polynomialThirdTerm.value * (1000 ^ e) ^ (k + 2)
        - amp * xs.length ^ xs.length * xs.length ^ xs.length * xs.prod * xs.sum) := by
    unfold stableSwapPolynomial Newton.poly
    rw [← hlinear, hlen]
    ring
  rw [hsplit]
  constructor <;> linarith

end Scaled

/-! ## The slope against the curvature -/

/-- The linear coefficient of up to four reserves is large against the
curvature. -/
def leastLinear : ℕ → ℚ
  | 1 => 12
  | 2 => 702
  | _ => 65280

theorem Constructed.unscaled {amp : ℕ} {xs : List ℕ} (hlen : 2 ≤ xs.length)
    (hc : Constructed amp xs.sum xs.length s (sumExponent xs)
      (truncatedProduct (sumExponent xs) xs)) (he : sumExponent xs = 0) :
    Constructed amp xs.sum xs.length s 0 (xs.prod * wad) := by
  have hprod := truncatedProduct_whole (e := 0) hlen (by omega)
  rw [Nat.zero_mul, Nat.pow_zero, Nat.mul_one] at hprod
  rw [he, hprod] at hc
  exact hc

theorem Constructed.leastLinear_le {amp : ℕ} {xs : List ℕ} (hamp : 0 < amp)
    (hlen : xs.length = k + 1) (hk : 1 ≤ k) (hk3 : k ≤ 3) (hprod : 1 ≤ xs.prod)
    (hc : Constructed amp xs.sum xs.length s 0 (xs.prod * wad)) :
    leastLinear k ≤ s.firstOrderCoeff.value := by
  have hlinear : s.firstOrderCoeff.value
      = ((amp * (k + 1) ^ (k + 1) - 1) * ((k + 1) ^ (k + 1) * xs.prod) : ℕ) := by
    refine Fixed.value_whole wad_pos ?_
    rw [hc.linear, hlen]
    ring
  have hle : ((k + 1) ^ (k + 1) - 1) * (k + 1) ^ (k + 1)
      ≤ (amp * (k + 1) ^ (k + 1) - 1) * ((k + 1) ^ (k + 1) * xs.prod) :=
    Nat.mul_le_mul (Nat.sub_le_sub_right (Nat.le_mul_of_pos_left _ hamp) 1)
      (Nat.le_mul_of_pos_right _ hprod)
  rw [hlinear]
  refine le_trans ?_ (Nat.cast_le.mpr hle)
  interval_cases k <;> norm_num [leastLinear]

/-- **Curvature.** What the curvature adds over one and a half tokens is
less than nine tenths of what the slope takes away over one. -/
theorem curvature_le {y : ℚ} (hk : 1 ≤ k) (hk3 : k ≤ 3) (hy : 0 ≤ y) (hc : leastLinear k ≤ c) :
    (k + 2) * (k + 1) / 2 * y ^ k * (9 / 4) ≤ 9 / 10 * Newton.slope k c y := by
  unfold Newton.slope
  interval_cases k
  · have hc' : 12 ≤ c := hc
    norm_num
    nlinarith [sq_nonneg (y - 5 / 4)]
  · have hc' : 702 ≤ c := hc
    norm_num
    rcases le_total y 4 with h | h
    · nlinarith [mul_nonneg hy (sub_nonneg.mpr h), pow_nonneg hy 3]
    · nlinarith [mul_nonneg (pow_nonneg hy 2) (sub_nonneg.mpr h)]
  · have hc' : 65280 ≤ c := hc
    norm_num
    rcases le_total y 5 with h | h
    · have hcube : y ^ 3 ≤ 125 := by
        calc y ^ 3 ≤ 5 ^ 3 := pow_le_pow_left₀ hy h 3
          _ = 125 := by norm_num
      nlinarith [pow_nonneg hy 4]
    · nlinarith [mul_nonneg (pow_nonneg hy 3) (sub_nonneg.mpr h)]

theorem leastLinear_pos (hk : 1 ≤ k) (hk3 : k ≤ 3) : 12 ≤ leastLinear k := by
  interval_cases k <;> norm_num [leastLinear]

/-- The linear coefficient of reserves that are scaled down outweighs the
curvature over a step of the tolerance. -/
def SlopeOutweighs (amp : ℕ) (reserves : List ℕ) : Prop :=
  reserves.length * (reserves.length + 1) * scaledSum reserves ^ (reserves.length - 1)
      * 1000 ^ sumExponent reserves
    ≤ 7 * linearCoeff amp reserves * wad ^ (reserves.length - 2)

instance (amp : ℕ) (reserves : List ℕ) : Decidable (SlopeOutweighs amp reserves) :=
  inferInstanceAs (Decidable (_ ≤ _))

/-- The same over the rationals. -/
theorem SlopeOutweighs.value_le {amp : ℕ} {xs : List ℕ} (h : SlopeOutweighs amp xs)
    (hlen : xs.length = k + 1) (hk : 1 ≤ k) (hguess : s.initialGuess.raw = scaledSum xs)
    (hlinear : s.firstOrderCoeff.raw = linearCoeff amp xs) :
    ((k + 1) * (k + 2) : ℚ) * s.initialGuess.value ^ k * 1000 ^ sumExponent xs
      ≤ 7 * s.firstOrderCoeff.value := by
  have hw : (0 : ℚ) < wad := by norm_num
  obtain ⟨j, rfl⟩ := Nat.exists_eq_add_of_le' hk
  unfold SlopeOutweighs at h
  rw [hlen, ← hguess, ← hlinear, Nat.add_sub_cancel, show j + 1 + 1 - 2 = j by omega] at h
  have hcast : ((j + 1 + 1) * (j + 1 + 2) : ℚ) * s.initialGuess.raw ^ (j + 1)
      * 1000 ^ sumExponent xs ≤ 7 * s.firstOrderCoeff.raw * wad ^ j := by exact_mod_cast h
  unfold Fixed.value
  rw [div_pow, ← mul_div_assoc, ← mul_div_assoc, div_mul_eq_mul_div,
    div_le_div_iff₀ (pow_pos hw _) hw, pow_succ (wad : ℚ)]
  have hscaled := mul_le_mul_of_nonneg_right hcast hw.le
  push_cast at hscaled ⊢
  linarith

/-- The linear coefficient is then not below one. -/
theorem one_le_of_curvature {e : ℕ} (he : 1 ≤ e) (hguess : wad ≤ s.initialGuess.raw)
    (h : ((k + 1) * (k + 2) : ℚ) * s.initialGuess.value ^ k * 1000 ^ e ≤ 7 * c) : 1 ≤ c := by
  have hd : 1 ≤ s.initialGuess.value := by
    unfold Fixed.value
    rw [le_div_iff₀ (by norm_num), one_mul]
    exact_mod_cast hguess
  have hpow : (1 : ℚ) ≤ s.initialGuess.value ^ k := one_le_pow₀ hd
  have hσ : (1000 : ℚ) ≤ 1000 ^ e := le_self_pow₀ (by norm_num) (by omega)
  have hk : (2 : ℚ) ≤ (k + 1) * (k + 2) := by
    have hk0 : (0 : ℚ) ≤ k := Nat.cast_nonneg k
    nlinarith
  have hprod : (2 : ℚ) * 1 * 1000 ≤ (k + 1) * (k + 2) * s.initialGuess.value ^ k * 1000 ^ e := by
    gcongr
  linarith

/-- **The curvature** over the tolerance and a token, for reserves that are
scaled down. -/
theorem curvature_scaled_le {e : ℕ} {y d₀ : ℚ} (he : 1 ≤ e) (hy : 0 ≤ y) (hyd : y ≤ d₀)
    (h : ((k + 1) * (k + 2) : ℚ) * d₀ ^ k * 1000 ^ e ≤ 7 * c) :
    (k + 2) * (k + 1) / 2 * y ^ k * (1 / 2 + 1 / 1000 ^ e) ^ 2
      ≤ 9 / 10 * (1 / 1000 ^ e * Newton.slope k c y) := by
  have hσ : (1000 : ℚ) ≤ 1000 ^ e := le_self_pow₀ (by norm_num) (by omega)
  have hδ : (1 : ℚ) / 1000 ^ e ≤ 1 / 1000 := one_div_le_one_div_of_le (by norm_num) hσ
  have hδ0 : (0 : ℚ) ≤ 1 / 1000 ^ e := by positivity
  have hsq : (1 / 2 + 1 / 1000 ^ e : ℚ) ^ 2 ≤ 9 / 35 := by
    calc (1 / 2 + 1 / 1000 ^ e : ℚ) ^ 2 ≤ (1 / 2 + 1 / 1000) ^ 2 :=
          pow_le_pow_left₀ (by positivity) (by linarith) 2
      _ ≤ 9 / 35 := by norm_num
  have hpow : y ^ k ≤ d₀ ^ k := pow_le_pow_left₀ hy hyd k
  have hpow0 : 0 ≤ y ^ k := pow_nonneg hy k
  have hslope : c ≤ Newton.slope k c y := by
    have hterm : 0 ≤ (k + 2) * y ^ (k + 1) := by positivity
    unfold Newton.slope
    linarith
  have hc : (k + 1) * (k + 2) * d₀ ^ k ≤ 7 * (1 / 1000 ^ e * c) := by
    rw [one_div_mul_eq_div, ← mul_div_assoc, le_div_iff₀ (by positivity)]
    exact h
  have hd₀ : 0 ≤ d₀ ^ k := hpow0.trans hpow
  calc (k + 2) * (k + 1) / 2 * y ^ k * (1 / 2 + 1 / 1000 ^ e) ^ 2
      ≤ (k + 2) * (k + 1) / 2 * d₀ ^ k * (9 / 35) := by gcongr
    _ = 9 / 70 * ((k + 1) * (k + 2) * d₀ ^ k) := by ring
    _ ≤ 9 / 70 * (7 * (1 / 1000 ^ e * c)) := mul_le_mul_of_nonneg_left hc (by norm_num)
    _ = 9 / 10 * (1 / 1000 ^ e * c) := by ring
    _ ≤ 9 / 10 * (1 / 1000 ^ e * Newton.slope k c y) := by gcongr

/-! ## The ways out -/

/-- The value that the code computes at an iterate, in whole numbers. -/
theorem polynomial_raw (h : s.getStableSwapPolynomial m val = .ok poly) :
    s.polynomialThirdTerm.raw
        ≤ m.powRaw val.raw (s.exponent.val + 1) + val.raw * s.firstOrderCoeff.raw / wad
      ∧ poly.raw = m.powRaw val.raw (s.exponent.val + 1) + val.raw * s.firstOrderCoeff.raw / wad
        - s.polynomialThirdTerm.raw := by
  simp only [getStableSwapPolynomial, bind_eq_ok, PowSqrt.pow_eq_ok, tryMul_eq_ok, tryAdd_eq_ok,
    trySub_eq_ok] at h
  obtain ⟨pn1, hpn1, second, hsecond, sum, hsum, hle, hpoly⟩ := h
  rw [PowSqrt.powRaw_eq hpn1, ← hsecond, ← hsum]
  exact ⟨hle, hpoly⟩

/-- After a long step the polynomial is not zero. -/
theorem not_root_after_long (hm : m.Lawful) (hexp : s.exponent.val = k + 1) (hk3 : k ≤ 3)
    (hval : val ≤ thousand) (hstep : s.newtonMethodSingleIteration m val = .ok val')
    (hlong : wad < 2 * (val.raw - val'.raw)) :
    s.getStableSwapPolynomial m val' ≠ .ok Decimal.zero := by
  intro hroot
  obtain ⟨_, _, -, -, hle, h⟩ := iteration_step hm hexp hstep
  obtain ⟨-, hvalue⟩ := value_truncated hm hexp hroot
  have hlongq : 1 / 2 < val.value - val'.value := by
    have hcast : (wad : ℚ) < 2 * ((val.raw : ℚ) - val'.raw) := by
      rw [← Nat.cast_sub hle]
      exact_mod_cast hlong
    unfold Fixed.value
    rw [← sub_div, div_lt_div_iff₀ (by norm_num) (by norm_num), one_mul, mul_comm _ (2 : ℚ)]
    exact hcast
  have hthousand : val.value ≤ 1000 := by
    have hvalue : thousand.value = (1000 : ℕ) := Fixed.value_whole wad_pos rfl
    have hle := (Fixed.value_le_value wad_pos).mpr (Fixed.le_def.mp hval)
    rw [hvalue] at hle
    exact_mod_cast hle
  rw [zero_value, ← sub_sub_cancel val.value val'.value] at hvalue
  have hpos := value_after_long_step hk3 h hlongq hthousand hvalue
  have hval0 : 0 < val.value := (by norm_num : (0 : ℚ) < 1 / 2).trans (hlongq.trans_le h.step_le)
  have := pow_pos hval0 k
  linarith

/-- So a loop that goes on is not left at a root. -/
theorem not_exactRoot_after_long (hm : m.Lawful) (hexp : s.exponent.val = k + 1) (hk3 : k ≤ 3)
    (hadm : wad ≤ 2 * admissible.raw) (hval : val ≤ thousand)
    (hstep : s.newtonMethodSingleIteration m val = .ok val')
    (hlong : admissible.raw < val.raw - val'.raw)
    (h : s.computeLoopTraced m admissible fuel val' = .ok (d, exit, iterates)) :
    exit ≠ .exactRoot := by
  induction fuel generalizing val val' iterates with
  | zero =>
      simp only [computeLoopTraced, bind_eq_ok, pure_eq_ok, Prod.mk.injEq] at h
      obtain ⟨_, -, -, rfl, -⟩ := h
      exact Exit.noConfusion
  | succ fuel ih =>
      rcases computeLoopTraced_cases h with ⟨-, -, hroot, -⟩ | ⟨next, hnext, hdown, hend | hrest⟩
      · exact absurd hroot (not_root_after_long hm hexp hk3 hval hstep (by omega))
      · obtain ⟨rfl, -⟩ := hend
        exact Exit.noConfusion
      · obtain ⟨hfar, rest, -, hloop⟩ := hrest
        have hval' : val' ≤ thousand := by
          refine le_trans (Fixed.le_def.mpr ?_) hval
          omega
        exact ih hval' hnext hfar hloop

/-- **The loop is left at a root** only at the first guess, and there if it
is one. -/
theorem computeTraced_exactRoot_iff (hm : m.Lawful) (hexp : s.exponent.val = k + 1) (hk3 : k ≤ 3)
    (hguess : s.initialGuess ≤ thousand) (h : s.computeTraced m = .ok (d, exit, iterates)) :
    (exit = .exactRoot ↔ m.powRaw s.initialGuess.raw (s.exponent.val + 1)
        + s.initialGuess.raw * s.firstOrderCoeff.raw / wad = s.polynomialThirdTerm.raw)
      ∧ (exit = .exactRoot → tryMul (ε := AmmError) s.initialGuess s.sclDownCoef = .ok d) := by
  simp only [computeTraced, bind_eq_ok, okOr_eq_ok, Fixed.tryDiv_eq_some] at h
  obtain ⟨admissible, ⟨-, hadm⟩, h⟩ := h
  have hhalf : wad ≤ 2 * admissible.raw := by
    rw [show admissible.raw = wad / 2 from hadm]
    norm_num
  rcases computeLoopTraced_cases h with ⟨rfl, -, hroot, hd⟩ | ⟨val', hstep, hdown, hrest⟩
  · obtain ⟨hle, hzero⟩ := polynomial_raw hroot
    rw [zero_raw] at hzero
    exact ⟨iff_of_true rfl (by omega), fun _ => hd⟩
  · have hexit : exit ≠ .exactRoot := by
      rcases hrest with ⟨rfl, -⟩ | ⟨hlong, rest, -, hloop⟩
      · exact Exit.noConfusion
      · exact not_exactRoot_after_long hm hexp hk3 hhalf hguess hstep hlong hloop
    refine ⟨iff_of_false hexit (fun hzero => ?_), fun h => absurd h hexit⟩
    -- a root would have been left with no step
    simp only [newtonMethodSingleIteration, bind_eq_ok, trySub_eq_ok, tryDiv_eq_ok] at hstep
    obtain ⟨poly, hpoly, deriv, -, step, ⟨-, hquot⟩, -, hval'⟩ := hstep
    obtain ⟨-, hraw⟩ := polynomial_raw hpoly
    rw [hzero, Nat.sub_self] at hraw
    rw [hraw, Nat.zero_mul, Nat.zero_div] at hquot
    rw [Fixed.lt_def, hval', hquot, Nat.sub_zero] at hdown
    exact absurd hdown (lt_irrefl _)

/-! ## Within a token -/

section Token

variable {amp e p : ℕ} {xs : List ℕ}

theorem stableSwapPolynomial_zero_le : stableSwapPolynomial amp xs 0 ≤ 0 := by
  unfold stableSwapPolynomial
  rw [zero_pow (Nat.succ_ne_zero _), mul_zero, zero_add, zero_sub, neg_nonpos]
  positivity

/-- A last iterate within a token of the code's polynomial. -/
theorem Constructed.withinToken (hamp : 0 < amp) (hlen : xs.length = k + 1)
    (hc : Constructed amp xs.sum xs.length s e p)
    (hp : p * 1000 ^ (e * xs.length) = xs.prod * wad)
    (hd : tryMul (ε := AmmError) out s.sclDownCoef = .ok d)
    (hbelow : 1 / 1000 ^ e ≤ out.value → Newton.poly k s.firstOrderCoeff.value
      s.polynomialThirdTerm.value (out.value - 1 / 1000 ^ e) ≤ 0)
    (habove : ulp ≤ Newton.poly k s.firstOrderCoeff.value s.polynomialThirdTerm.value
      (out.value + 1 / 1000 ^ e)) : WithinToken amp xs d.value := by
  have hσ : (0 : ℚ) < 1000 ^ e := by positivity
  have hvalue : d.value = 1000 ^ e * out.value := by
    rw [tryMul_eq_ok, Nat.mul_comm, Fixed.mul_whole_raw wad_pos hc.coef] at hd
    rw [Fixed.value, hd, Fixed.value]
    push_cast
    exact mul_div_assoc _ _ _
  have hpow : (0 : ℚ) ≤ (1000 ^ e) ^ (k + 2) := by positivity
  constructor
  · rcases le_total d.value 1 with hsmall | hlarge
    · rw [max_eq_right (by linarith)]
      exact stableSwapPolynomial_zero_le
    · rw [max_eq_left (by linarith), hvalue,
        show 1000 ^ e * out.value - 1 = 1000 ^ e * (out.value - 1 / 1000 ^ e) by
          rw [mul_sub, mul_one_div_cancel hσ.ne']]
      refine (hc.polynomial_bounds hamp hlen hp _).1.trans ?_
      refine mul_nonpos_of_nonneg_of_nonpos hpow (hbelow ?_)
      rw [div_le_iff₀ hσ, mul_comm, ← hvalue]
      exact hlarge
  · rw [hvalue, show 1000 ^ e * out.value + 1 = 1000 ^ e * (out.value + 1 / 1000 ^ e) by
      rw [mul_add, mul_one_div_cancel hσ.ne']]
    exact (mul_nonneg hpow (sub_nonneg.mpr habove)).trans (hc.polynomial_bounds hamp hlen hp _).2

end Token

/-! ## The sum as a root -/

/-- The arithmetic mean of two to four numbers is not below the geometric
one. -/
theorem length_pow_mul_prod_le {xs : List ℕ} (hlen : 2 ≤ xs.length) (hlen4 : xs.length ≤ 4) :
    xs.length ^ xs.length * xs.prod ≤ xs.sum ^ xs.length := by
  have htwo : ∀ a b : ℕ, 4 * (a * b) ≤ (a + b) ^ 2 := by
    intro a b
    zify
    nlinarith [sq_nonneg ((a : ℤ) - b)]
  match xs, hlen, hlen4 with
  | [a, b], _, _ => simpa using htwo a b
  | [a, b, c], _, _ =>
      have hthree : 27 * (a * (b * c)) ≤ (a + (b + c)) ^ 3 := by
        zify
        have ha : (0 : ℤ) ≤ a := Int.natCast_nonneg a
        have hb : (0 : ℤ) ≤ b := Int.natCast_nonneg b
        have hc : (0 : ℤ) ≤ c := Int.natCast_nonneg c
        nlinarith [mul_nonneg ha (sq_nonneg ((b : ℤ) - c)), mul_nonneg hb (sq_nonneg ((a : ℤ) - c)),
          mul_nonneg hc (sq_nonneg ((a : ℤ) - b)), mul_nonneg ha (sq_nonneg ((a : ℤ) - b)),
          mul_nonneg ha (sq_nonneg ((a : ℤ) - c)), mul_nonneg hb (sq_nonneg ((a : ℤ) - b)),
          mul_nonneg hb (sq_nonneg ((b : ℤ) - c)), mul_nonneg hc (sq_nonneg ((a : ℤ) - c)),
          mul_nonneg hc (sq_nonneg ((b : ℤ) - c))]
      simpa using hthree
  | [a, b, c, e], _, _ =>
      have hfour : 256 * (a * (b * (c * e))) ≤ (a + (b + (c + e))) ^ 4 := by
        calc 256 * (a * (b * (c * e))) = 16 * (4 * (a * b) * (4 * (c * e))) := by ring
          _ ≤ 16 * ((a + b) ^ 2 * (c + e) ^ 2) :=
              Nat.mul_le_mul_left _ (Nat.mul_le_mul (htwo a b) (htwo c e))
          _ = (4 * ((a + b) * (c + e))) ^ 2 := by ring
          _ ≤ ((a + b + (c + e)) ^ 2) ^ 2 := Nat.pow_le_pow_left (htwo _ _) 2
          _ = (a + (b + (c + e))) ^ 4 := by ring
      simpa using hfour

/-- Above the sum of the reserves the polynomial is not negative. -/
theorem stableSwapPolynomial_sum_nonneg {amp : ℕ} {xs : List ℕ} (hamp : 1 ≤ amp)
    (hlen : 2 ≤ xs.length) (hlen4 : xs.length ≤ 4) :
    0 ≤ stableSwapPolynomial amp xs (xs.sum + 1) := by
  have hmean : (xs.length ^ xs.length * xs.prod : ℚ) ≤ xs.sum ^ xs.length := by
    exact_mod_cast length_pow_mul_prod_le hlen hlen4
  have hself : (1 : ℚ) ≤ amp * xs.length ^ xs.length := by
    exact_mod_cast Nat.mul_pos hamp (Nat.pow_pos (by omega))
  have hsum : (0 : ℚ) ≤ xs.sum := Nat.cast_nonneg _
  have hprod : (0 : ℚ) ≤ xs.length ^ xs.length * xs.prod := by positivity
  have hpow : (xs.sum : ℚ) ^ xs.length ≤ (xs.sum + 1) ^ xs.length :=
    pow_le_pow_left₀ hsum (by linarith) _
  have hlead : xs.sum * (xs.length ^ xs.length * xs.prod : ℚ) ≤ (xs.sum + 1) ^ (xs.length + 1) := by
    rw [pow_succ']
    exact mul_le_mul (by linarith) (hmean.trans hpow) hprod (by linarith)
  have hlinear : 0 ≤ (amp * xs.length ^ xs.length - 1) * (xs.length ^ xs.length * xs.prod : ℚ) :=
    mul_nonneg (by linarith) hprod
  unfold stableSwapPolynomial
  linarith

/-- The first guess scaled up is the sum. -/
theorem Constructed.sum_of_guess {amp p : ℕ} {reserves : List TokenAmount}
    (hc : Constructed amp (reserves.map (·.val)).sum reserves.length s
      (sumExponent (reserves.map (·.val))) p) (hlen4 : reserves.length ≤ 4)
    (hd : tryMul (ε := AmmError) s.initialGuess s.sclDownCoef = .ok d) :
    d.value = (reserves.map (·.val)).sum := by
  have hexp := sumExponent_le hlen4
  refine Fixed.value_whole wad_pos ?_
  rw [tryMul_eq_ok, Nat.mul_comm, Fixed.mul_whole_raw wad_pos hc.coef, hc.guess,
    div_thousands (by omega), Nat.mul_left_comm, show (1000 : ℕ) = 10 ^ 3 by norm_num,
    ← Nat.pow_mul, ← Nat.pow_add, Nat.add_sub_of_le (by omega)] at hd
  exact hd

section Run

variable {amp : U64} {reserves : List TokenAmount}

/-- A loop whose slope outweighs its curvature ends within a token. -/
theorem withinToken_of_curvature (hm : m.Lawful) (hamp : 0 < amp.val) (hlen : 2 ≤ reserves.length)
    (hlen4 : reserves.length ≤ 4) (hpos : ∀ x ∈ reserves, 1 ≤ x.val)
    (hs : new m amp reserves = .ok s) (hleft : LeftBy m s d exit iterates)
    (hexit : exit ≠ .exhausted) (hhead : iterates.head? = some s.initialGuess)
    (hchain : iterates.IsChain (· > ·))
    (hsteps : iterates.IsChain (fun val val' => s.newtonMethodSingleIteration m val = .ok val'))
    (hexact : 3 * (sumExponent (reserves.map (·.val)) * reserves.length) ≤ 18)
    (hlinear : 1 ≤ s.firstOrderCoeff.value) (hk : reserves.length = k + 1)
    (hcurve : ∀ y, 0 ≤ y → y ≤ s.initialGuess.value →
      (k + 2) * (k + 1) / 2 * y ^ k * (1 / 2 + 1 / 1000 ^ sumExponent (reserves.map (·.val))) ^ 2
        ≤ 9 / 10 * (1 / 1000 ^ sumExponent (reserves.map (·.val))
          * Newton.slope k s.firstOrderCoeff.value y)) :
    WithinToken amp.val (reserves.map (·.val)) d.value := by
  have hsum := one_le_sum_reserves (List.length_pos_iff.mp (by omega)) hpos
  have hc := constructed hm (by omega) hsum hs
  rw [← List.length_map (f := (·.val))] at hc hlen hlen4 hk hexact
  generalize reserves.map (·.val) = xs at *
  have hexp : sumExponent xs ≤ 3 := by
    have := Nat.mul_le_mul_left (sumExponent xs) hlen
    omega
  have hδ : 60 * ulp ≤ 1 / 1000 ^ sumExponent xs := by
    have hpow : (1000 : ℚ) ^ sumExponent xs ≤ 1000 ^ 3 := pow_le_pow_right₀ (by norm_num) hexp
    calc 60 * ulp ≤ 1 / 1000 ^ 3 := by norm_num [ulp_eq]
      _ ≤ 1 / 1000 ^ sumExponent xs := one_div_le_one_div_of_le (by positivity) hpow
  obtain ⟨out, hd, hbelow, habove⟩ := hleft.accurate hm (hc.exponent.trans hk) (by omega)
    hlinear hδ hexit hhead hchain hsteps hcurve
  exact hc.withinToken hamp hk (truncatedProduct_whole hlen hexact) hd hbelow habove

end Run

end StableCurveInvariant

open StableCurveInvariant

/-- **The condition**, in arithmetic of the amplifier and the reserves:
nothing is scaled down; or the scaled product is exact and the slope
outweighs the curvature; or at the scaled sum the terms of the polynomial
cancel exactly, and the sum is within a token of its zero. -/
def NearRoot (m : PowSqrt) (amp : ℕ) (reserves : List ℕ) : Prop :=
  reserves.sum ≤ 1000
    ∨ (3 * (sumExponent reserves * reserves.length) ≤ 18 ∧ SlopeOutweighs amp reserves)
    ∨ (leadingTerms m amp reserves = constantTerm amp reserves
      ∧ stableSwapPolynomial amp reserves (reserves.sum - 1) ≤ 0)

/-- **Accuracy.** A computed invariant that meets the condition is within one
token of the zero of the exact polynomial. Where the condition is not met, it
is not, or the loop was left by the tolerance while the reserves were scaled
down, so that its one half is five hundred tokens at least. -/
theorem invariant_near_root {m : PowSqrt} (hm : m.Lawful) {amp : U64}
    {reserves : List TokenAmount} {d : Decimal} (hlen : 2 ≤ reserves.length)
    (hlen4 : reserves.length ≤ 4) (hpos : ∀ x ∈ reserves, 1 ≤ x.val)
    (h : computeInvariant m amp reserves = .ok d) :
    (NearRoot m amp.val (reserves.map (·.val)) →
      WithinToken amp.val (reserves.map (·.val)) d.value)
    ∧ (¬ NearRoot m amp.val (reserves.map (·.val)) →
      ¬ WithinToken amp.val (reserves.map (·.val)) d.value
      ∨ ∃ s iterates, StableCurveInvariant.new m amp reserves = .ok s
        ∧ s.computeTraced m = .ok (d, .tolerance, iterates)
        ∧ (1000 : ℚ) ≤ s.sclDownCoef.value) := by
  have hamp : 0 < amp.val := by
    have hrun := h
    simp only [computeInvariant, bind_eq_ok, ensure_eq_ok] at hrun
    obtain ⟨-, hne, -⟩ := hrun
    exact Nat.pos_of_ne_zero (mt Word.val_eq_zero.mp hne)
  obtain ⟨s, exit, iterates, hs, -, htraced, hexit, hleft, hhead, hchain, hsteps, -, -⟩ :=
    invariant_converges hm hlen hlen4 hpos h
  have hsum := one_le_sum_reserves (List.length_pos_iff.mp (by omega)) hpos
  have hc := constructed hm (by omega) hsum hs
  have hcoeffs := coefficients_eq hm (by omega) hsum hs
  obtain ⟨k, hk⟩ : ∃ k, reserves.length = k + 1 := ⟨reserves.length - 1, by omega⟩
  have hexp : s.exponent.val = k + 1 := hc.exponent.trans hk
  have hguess : s.initialGuess.raw = scaledSum (reserves.map (·.val)) := hc.guess
  obtain ⟨hexact, hout⟩ :=
    computeTraced_exactRoot_iff hm hexp (by omega) (initialGuess_le hs) htraced
  rw [hguess, hcoeffs.1, hcoeffs.2, hexp, ← hk, ← List.length_map (f := (·.val))] at hexact
  have hcurvature := fun hexact hlinear hcurve => withinToken_of_curvature hm hamp hlen hlen4 hpos
    hs hleft hexit hhead hchain hsteps hexact hlinear hk hcurve
  have hsmall : (reserves.map (·.val)).sum ≤ 1000 →
      WithinToken amp.val (reserves.map (·.val)) d.value := by
    intro hsmall
    have he : sumExponent (reserves.map (·.val)) = 0 :=
      Nat.le_zero.mp (scaleExponent_le (by norm_num) (Nat.mul_le_mul_right wad hsmall))
    have hprod : 1 ≤ (reserves.map (·.val)).prod := List.one_le_prod_of_one_le (fun x hx => by
      obtain ⟨r, hr, rfl⟩ := List.mem_map.mp hx
      exact hpos r hr)
    have hleast : leastLinear k ≤ s.firstOrderCoeff.value := by
      rw [← List.length_map (f := (·.val))] at hc hk hlen hlen4
      exact (hc.unscaled hlen he).leastLinear_le hamp hk (by omega) (by omega) hprod
    have htwelve := (leastLinear_pos (k := k) (by omega) (by omega)).trans hleast
    refine hcurvature (by rw [he]; omega) (by linarith) (fun y hy _ => ?_)
    have hcurve := curvature_le (k := k) (by omega) (by omega) hy hleast
    rw [he, pow_zero, div_one, one_mul]
    norm_num at hcurve ⊢
    linarith
  have hlarge : ¬ (reserves.map (·.val)).sum ≤ 1000 → 1 ≤ sumExponent (reserves.map (·.val)) := by
    rw [Nat.one_le_iff_ne_zero]
    refine fun hlarge he => hlarge ?_
    have hle := Fixed.le_def.mp (initialGuess_le hs)
    rw [hc.guess, he, Nat.pow_zero, Nat.div_one] at hle
    exact Nat.le_of_mul_le_mul_right hle wad_pos
  have hroot : leadingTerms m amp.val (reserves.map (·.val))
      = constantTerm amp.val (reserves.map (·.val)) → d.value = (reserves.map (·.val)).sum :=
    fun hzero => hc.sum_of_guess hlen4 (hout (hexact.mpr hzero))
  have hdiff : (1 : ℚ) ≤ (reserves.map (·.val)).sum := by exact_mod_cast hsum
  refine ⟨?_, fun hnear => ?_⟩
  · rintro (hsum | ⟨hfits, hslope⟩ | ⟨hzero, hbelow⟩)
    · exact hsmall hsum
    · have hvalue := hslope.value_le (by rw [List.length_map, hk]) (by omega) hguess hcoeffs.1
      rw [List.length_map] at hfits
      by_cases hsum : (reserves.map (·.val)).sum ≤ 1000
      · exact hsmall hsum
      · refine hcurvature hfits (one_le_of_curvature (hlarge hsum) hc.guess_ge hvalue)
          (fun y hy hyd => curvature_scaled_le (hlarge hsum) hy hyd hvalue)
    · rw [hroot hzero]
      refine ⟨?_, ?_⟩
      · rw [max_eq_left (sub_nonneg.mpr hdiff)]
        exact hbelow
      · exact stableSwapPolynomial_sum_nonneg hamp (by rwa [List.length_map])
          (by rwa [List.length_map])
  · by_cases hzero : leadingTerms m amp.val (reserves.map (·.val))
        = constantTerm amp.val (reserves.map (·.val))
    · refine .inl (fun hwithin => hnear (.inr (.inr ⟨hzero, ?_⟩)))
      have hbelow := hwithin.1
      rwa [hroot hzero, max_eq_left (sub_nonneg.mpr hdiff)] at hbelow
    · right
      have htolerance : exit = .tolerance := by
        cases exit with
        | exactRoot => exact absurd (hexact.mp rfl) hzero
        | tolerance => rfl
        | exhausted => exact absurd rfl hexit
      subst htolerance
      refine ⟨s, iterates, hs, htraced, ?_⟩
      rw [Fixed.value_whole wad_pos hc.coef]
      have hscale : 1000 ≤ 1000 ^ sumExponent (reserves.map (·.val)) :=
        Nat.le_self_pow (Nat.one_le_iff_ne_zero.mp (hlarge (fun h => hnear (.inl h)))) _
      exact_mod_cast hscale

/-- A balanced pool of two times `10 ^ 9` tokens is scaled down, but the sum
is a root. -/
theorem invariant_near_root_balanced :
    ∃ d, computeInvariant PowSqrt.digitwise 10 [1000000000, 1000000000] = .ok d
      ∧ WithinToken 10 [1000000000, 1000000000] d.value := by
  have hok : (computeInvariant PowSqrt.digitwise 10 [1000000000, 1000000000]).isOk = true := by
    decide +kernel
  have hnear : NearRoot PowSqrt.digitwise 10 [1000000000, 1000000000] :=
    .inr (.inr ⟨by decide +kernel, by norm_num [stableSwapPolynomial]⟩)
  cases h : computeInvariant PowSqrt.digitwise 10 [1000000000, 1000000000] with
  | error e => rw [h] at hok; cases hok
  | ok d =>
      exact ⟨d, rfl, (invariant_near_root PowSqrt.digitwise_lawful (by decide) (by decide)
        (by decide) h).1 hnear⟩

/-- **A pool of 1 and 1000 tokens** is scaled down once, and the invariant
is computed as 669.98 tokens: far above the zero of the polynomial. -/
theorem invariant_far_from_root :
    ∃ d, computeInvariant PowSqrt.digitwise 1 [1, 1000] = .ok d
      ∧ 0 < stableSwapPolynomial 1 [1, 1000] (max (d.value - 1) 0) := by
  refine ⟨⟨669986743551944780000, by decide⟩, by decide +kernel, ?_⟩
  norm_num [stableSwapPolynomial, Fixed.value]

end SolanaAmm.Amm
