import Mathlib.Algebra.Order.Field.Basic
import Mathlib.Tactic.GCongr
import Mathlib.Tactic.Linarith
import Mathlib.Tactic.Positivity
import Mathlib.Tactic.Ring

/-!
# Newton — truncated Newton steps

Newton's iteration for the positive zero of `y ^ (k + 2) + c * y - t`,
where the values of the polynomial and of its slope are truncated and the
step is truncated to units `u`. One step goes hardly below the zero, a
long step leaves the polynomial well above it, and every step makes the
distance to what is below the zero shorter by a fixed part.
-/

namespace SolanaAmm.Newton

variable {K : Type*} [Field K] [LinearOrder K] [IsStrictOrderedRing K]
  {x y d r s : K} {n : ℕ}

/-! ## Powers -/

/-- A power is above its tangents. -/
theorem pow_tangent_le (hx : 0 ≤ x) (hy : 0 ≤ y) :
    x ^ (n + 1) + (n + 1) * x ^ n * (y - x) ≤ y ^ (n + 1) := by
  induction n with
  | zero => simp
  | succ n ih =>
      have hsq : 0 ≤ (n + 1) * x ^ n * (y - x) ^ 2 := by positivity
      push_cast
      calc x ^ (n + 1 + 1) + (n + 1 + 1) * x ^ (n + 1) * (y - x)
          ≤ x ^ (n + 1 + 1) + (n + 1 + 1) * x ^ (n + 1) * (y - x)
            + (n + 1) * x ^ n * (y - x) ^ 2 := le_add_of_nonneg_right hsq
        _ = (x ^ (n + 1) + (n + 1) * x ^ n * (y - x)) * y := by ring
        _ ≤ y ^ (n + 1) * y := mul_le_mul_of_nonneg_right ih hy
        _ = y ^ (n + 1 + 1) := (pow_succ y (n + 1)).symm

/-- A power is above the first two terms of its expansion by a square. -/
theorem le_pow_sub (hs : 0 ≤ s) (hsd : s ≤ d) :
    d ^ (n + 2) - (n + 2) * d ^ (n + 1) * s + d ^ n * s ^ 2 ≤ (d - s) ^ (n + 2) := by
  have hd : 0 ≤ d := hs.trans hsd
  induction n with
  | zero => exact le_of_eq (by push_cast; ring)
  | succ n ih =>
      have hcube : 0 ≤ d ^ n * s ^ 2 * ((n + 1) * d + (d - s)) :=
        mul_nonneg (by positivity) (add_nonneg (by positivity) (sub_nonneg.mpr hsd))
      push_cast
      calc d ^ (n + 1 + 2) - (n + 1 + 2) * d ^ (n + 1 + 1) * s + d ^ (n + 1) * s ^ 2
          ≤ d ^ (n + 1 + 2) - (n + 1 + 2) * d ^ (n + 1 + 1) * s + d ^ (n + 1) * s ^ 2
            + d ^ n * s ^ 2 * ((n + 1) * d + (d - s)) := le_add_of_nonneg_right hcube
        _ = (d ^ (n + 2) - (n + 2) * d ^ (n + 1) * s + d ^ n * s ^ 2) * (d - s) := by ring
        _ ≤ (d - s) ^ (n + 2) * (d - s) := mul_le_mul_of_nonneg_right ih (sub_nonneg.mpr hsd)
        _ = (d - s) ^ (n + 1 + 2) := (pow_succ _ _).symm

/-- A power is below the first three terms of its expansion. -/
theorem pow_sub_le (hs : 0 ≤ s) (hsd : s ≤ d) :
    (d - s) ^ (n + 2) ≤ d ^ (n + 2) - (n + 2) * d ^ (n + 1) * s
      + (n + 2) * (n + 1) / 2 * d ^ n * s ^ 2 := by
  have hd : 0 ≤ d := hs.trans hsd
  induction n with
  | zero => exact le_of_eq (by push_cast; ring)
  | succ n ih =>
      have hcube : 0 ≤ (n + 2) * (n + 1) / 2 * d ^ n * s ^ 3 := by positivity
      push_cast
      calc (d - s) ^ (n + 1 + 2) = (d - s) ^ (n + 2) * (d - s) := pow_succ _ _
        _ ≤ (d ^ (n + 2) - (n + 2) * d ^ (n + 1) * s
              + (n + 2) * (n + 1) / 2 * d ^ n * s ^ 2) * (d - s) :=
            mul_le_mul_of_nonneg_right ih (sub_nonneg.mpr hsd)
        _ ≤ (d ^ (n + 2) - (n + 2) * d ^ (n + 1) * s
              + (n + 2) * (n + 1) / 2 * d ^ n * s ^ 2) * (d - s)
            + (n + 2) * (n + 1) / 2 * d ^ n * s ^ 3 := le_add_of_nonneg_right hcube
        _ = d ^ (n + 1 + 2) - (n + 1 + 2) * d ^ (n + 1 + 1) * s
            + (n + 1 + 2) * (n + 1 + 1) / 2 * d ^ (n + 1) * s ^ 2 := by ring

/-- The secant through zero is below the other secants. -/
theorem secant_le (hr : 0 ≤ r) (hrd : r ≤ d) :
    (d - r) * d ^ n ≤ d ^ (n + 1) - r ^ (n + 1) := by
  have hpow : r * r ^ n ≤ r * d ^ n :=
    mul_le_mul_of_nonneg_left (pow_le_pow_left₀ hr hrd n) hr
  calc (d - r) * d ^ n = d ^ (n + 1) - r * d ^ n := by ring
    _ ≤ d ^ (n + 1) - r * r ^ n := sub_le_sub_left hpow _
    _ = d ^ (n + 1) - r ^ (n + 1) := by ring

/-! ## Values with truncation -/

variable {k : ℕ} {c t u v g e : K}

def poly (k : ℕ) (c t y : K) : K := y ^ (k + 2) + c * y - t

def slope (k : ℕ) (c y : K) : K := (k + 2) * y ^ (k + 1) + c

theorem slope_pos (hc : 0 < c) (hd : 0 ≤ d) : 0 < slope k c d := by
  unfold slope
  positivity

theorem poly_tangent_le (hd : 0 ≤ d) (hy : 0 ≤ y) :
    poly k c t d + slope k c d * (y - d) ≤ poly k c t y := by
  have h := pow_tangent_le (n := k + 1) hd hy
  push_cast at h
  unfold poly slope
  linarith

/-- What truncation hides of the value of the polynomial. -/
def hiddenValue (k : ℕ) (u d : K) : K := ((k + 1) * max d 1 ^ (k + 1) + 1) * u

/-- What truncation hides of the slope. -/
def hiddenSlope (k : ℕ) (u d : K) : K := (k + 2) * (k * max d 1 ^ k * u)

/-- The value `v` and the slope `g` at `d`, both truncated. -/
structure Truncated (k : ℕ) (c t u d v g : K) : Prop where
  value_le : v ≤ poly k c t d
  le_value : poly k c t d ≤ v + hiddenValue k u d
  slope_le : g ≤ slope k c d
  le_slope : slope k c d ≤ g + hiddenSlope k u d

/-- A step `s` down from `d`: the quotient of value and slope, truncated. -/
structure Step (k : ℕ) (c t u d s v g : K) : Prop extends Truncated k c t u d v g where
  step_nonneg : 0 ≤ s
  step_le : s ≤ d
  slope_pos : 0 < g
  mul_le : s * g ≤ v
  lt_mul : v < (s + u) * g

/-- From one on, what truncation hides of the value is at most a unit's
worth of the slope. -/
theorem hiddenValue_le (hu0 : 0 ≤ u) (hc : 0 ≤ c) (h1 : 1 ≤ d) :
    hiddenValue k u d ≤ slope k c d * u := by
  have hone : 1 ≤ d ^ (k + 1) := one_le_pow₀ h1
  unfold hiddenValue slope
  rw [max_eq_left h1]
  refine mul_le_mul_of_nonneg_right ?_ hu0
  linarith

/-- Anywhere it is a few units' worth of it, if the linear coefficient is not
below one. -/
theorem hiddenValue_le_mul (hu0 : 0 ≤ u) (hc : 1 ≤ c) (hd : 0 ≤ d) :
    hiddenValue k u d ≤ (k + 2) * (slope k c d * u) := by
  have hc0 : 0 ≤ c := zero_le_one.trans hc
  have hk : (1 : K) ≤ k + 2 := by linarith [Nat.cast_nonneg (α := K) k]
  have hslope : 1 ≤ slope k c d := by
    have hpow : 0 ≤ (k + 2) * d ^ (k + 1) := by positivity
    unfold slope
    linarith
  have hslope_u : u ≤ slope k c d * u := le_mul_of_one_le_left hu0 hslope
  rcases le_total d 1 with h1 | h1
  · unfold hiddenValue
    rw [max_eq_right h1, one_pow]
    calc ((k + 1) * 1 + 1) * u = (k + 2) * u := by ring
      _ ≤ (k + 2) * (slope k c d * u) := mul_le_mul_of_nonneg_left hslope_u (by linarith)
  · exact (hiddenValue_le hu0 hc0 h1).trans
      (le_mul_of_one_le_left (hu0.trans hslope_u) hk)

/-! ## A step goes hardly below the zero -/

/-- Truncation hides less of the slope than a part `e` of it. -/
theorem mul_hiddenSlope_le (hu : k * u ≤ e) (hc : (k + 2) * (k * u) ≤ e * c) (hc0 : 0 ≤ c)
    (hu0 : 0 ≤ u) (hs : 0 ≤ s) (hsd : s ≤ d) : s * hiddenSlope k u d ≤ e * slope k c d := by
  have hd : 0 ≤ d := hs.trans hsd
  have he : 0 ≤ e := le_trans (by positivity) hu
  unfold hiddenSlope slope
  rcases le_total d 1 with h1 | h1
  · rw [max_eq_right h1, one_pow, mul_one]
    have hle : s * ((k + 2) * (k * u)) ≤ (k + 2) * (k * u) :=
      mul_le_of_le_one_left (by positivity) (hsd.trans h1)
    have hpow : 0 ≤ e * ((k + 2) * d ^ (k + 1)) := by positivity
    linarith
  · rw [max_eq_left h1]
    calc s * ((k + 2) * (k * d ^ k * u)) ≤ d * ((k + 2) * (k * d ^ k * u)) :=
          mul_le_mul_of_nonneg_right hsd (by positivity)
      _ = (k + 2) * d ^ (k + 1) * (k * u) := by ring
      _ ≤ (k + 2) * d ^ (k + 1) * e := mul_le_mul_of_nonneg_left hu (by positivity)
      _ ≤ (k + 2) * d ^ (k + 1) * e + e * c := le_add_of_nonneg_right (mul_nonneg he hc0)
      _ = e * ((k + 2) * d ^ (k + 1) + c) := by ring

/-- **Above the zero**: a little more than where a step leads, the
polynomial is not negative. -/
theorem Step.poly_add_nonneg (h : Step k c t u d s v g) (hu : k * u ≤ e)
    (hc : (k + 2) * (k * u) ≤ e * c) (hc0 : 0 ≤ c) (hu0 : 0 ≤ u) :
    0 ≤ poly k c t (d - s + e) := by
  have hd := h.step_nonneg.trans h.step_le
  have he : 0 ≤ e := le_trans (by positivity) hu
  have hy : 0 ≤ d - s + e := add_nonneg (sub_nonneg.mpr h.step_le) he
  have htan : poly k c t d + slope k c d * (d - s + e - d) ≤ poly k c t (d - s + e) :=
    poly_tangent_le hd hy
  have hhidden := mul_hiddenSlope_le hu hc hc0 hu0 h.step_nonneg h.step_le
  have hslope : s * slope k c d ≤ s * (g + hiddenSlope k u d) :=
    mul_le_mul_of_nonneg_left h.le_slope h.step_nonneg
  have hvalue := h.value_le
  have hmul := h.mul_le
  nlinarith

/-! ## A long step leaves the polynomial well above zero -/

/-- What a step leaves of the polynomial. -/
theorem Step.le_poly_next (h : Step k c t u d s v g) :
    d ^ k * s ^ 2 - s * hiddenSlope k u d ≤ poly k c t (d - s) := by
  have hpow := le_pow_sub (n := k) h.step_nonneg h.step_le
  have hslope : s * slope k c d ≤ s * (g + hiddenSlope k u d) :=
    mul_le_mul_of_nonneg_left h.le_slope h.step_nonneg
  have hvalue := h.value_le
  have hmul := h.mul_le
  unfold poly slope at *
  linarith

/-! ## A short step ends near the zero -/

/-- What is left a part `e` below where a step leads. -/
theorem Step.poly_sub_le (h : Step k c t u d s v g) (hu0 : 0 ≤ u) (he : 0 ≤ e) (hle : s + e ≤ d) :
    poly k c t (d - s - e) ≤ hiddenValue k u d - (e - u) * slope k c d
      + (k + 2) * (k + 1) / 2 * d ^ k * (s + e) ^ 2 := by
  have hpow : (d - (s + e)) ^ (k + 2) ≤ _ := pow_sub_le (add_nonneg h.step_nonneg he) hle
  have hvalue := h.le_value
  have hlt := h.lt_mul
  have hslope : (s + u) * g ≤ (s + u) * slope k c d :=
    mul_le_mul_of_nonneg_left h.slope_le (add_nonneg h.step_nonneg hu0)
  rw [sub_sub]
  unfold poly slope at *
  linarith

/-! ## Every step comes closer -/

/-- **One step closer**: to what is below the zero, by a `k + 2`-nd part of
the distance. -/
theorem Step.closer (h : Step k c t u d s v g) (hu0 : 0 ≤ u) (hc : 0 ≤ c) (hr : 0 ≤ r)
    (hrd : r + 1 ≤ d) (hpoly : 0 ≤ poly k c t r) :
    d - s - r ≤ (k + 1) / (k + 2) * (d - r) + 2 * u := by
  have h1 : 1 ≤ d := (le_add_of_nonneg_left hr).trans hrd
  have hle : r ≤ d := (le_add_of_nonneg_right zero_le_one).trans hrd
  have hsec := secant_le (n := k + 1) hr hle
  have hpos : 0 < slope k c d := h.slope_pos.trans_le h.slope_le
  -- the value is at least a `k + 2`-nd of the distance times the slope
  have hvalue : (d - r) * slope k c d ≤ (k + 2) * poly k c t d := by
    have hk : (0 : K) ≤ k := Nat.cast_nonneg k
    have hcd : 0 ≤ (k + 1) * (c * (d - r)) := by
      have := mul_nonneg hc (sub_nonneg.mpr hle)
      positivity
    unfold poly slope at *
    nlinarith
  have hhidden : hiddenValue k u d ≤ slope k c d * u := hiddenValue_le hu0 hc h1
  have hslope : (s + u) * g ≤ (s + u) * slope k c d :=
    mul_le_mul_of_nonneg_left h.slope_le (add_nonneg h.step_nonneg hu0)
  have hlt := h.lt_mul
  have hle' := h.le_value
  have hk2 : (0 : K) < k + 2 := by positivity
  have hstep : poly k c t d ≤ (s + 2 * u) * slope k c d := by linarith
  have hmul : (d - r) * slope k c d ≤ (k + 2) * (s + 2 * u) * slope k c d := by
    calc (d - r) * slope k c d ≤ (k + 2) * poly k c t d := hvalue
      _ ≤ (k + 2) * ((s + 2 * u) * slope k c d) := mul_le_mul_of_nonneg_left hstep hk2.le
      _ = (k + 2) * (s + 2 * u) * slope k c d := by ring
  have hfinal := le_of_mul_le_mul_right hmul hpos
  have hpart : (k + 2) * ((k + 1) / (k + 2) * (d - r)) = (k + 1) * (d - r) := by
    rw [← mul_assoc, mul_div_cancel₀ _ hk2.ne']
  refine le_of_mul_le_mul_left ?_ hk2
  rw [mul_add, hpart]
  linarith

end SolanaAmm.Newton
