import SolanaAmm.Lib.Newton
import Mathlib.Algebra.Order.Archimedean.Basic

/-!
# Zeros — comparing two zeros

Two polynomials `y ^ (k + 2) + c * y - t` of one degree differ by a line, so
whose positive zero is the lower one is told by the sign of the first
polynomial where the line is zero. The zeros need not be in the field: it
is enough that it has elements close to them.
-/

namespace SolanaAmm.Newton

variable {K : Type*} [Field K] [LinearOrder K] [IsStrictOrderedRing K]
  {k : ℕ} {c c' t t' x y e m n : K}

/-! ## Around the zero -/

theorem poly_strictMono (hc : 0 ≤ c) (hx : 0 ≤ x) (hxy : x < y) :
    poly k c t x < poly k c t y := by
  have hpow : x ^ (k + 2) < y ^ (k + 2) := pow_lt_pow_left₀ hxy hx (Nat.succ_ne_zero _)
  have hlin : c * x ≤ c * y := mul_le_mul_of_nonneg_left hxy.le hc
  unfold poly
  linarith

theorem lt_of_poly_lt (hc : 0 ≤ c) (hy : 0 ≤ y) (h : poly k c t x < poly k c t y) : x < y := by
  by_contra hyx
  rcases (not_lt.mp hyx).eq_or_lt with heq | hlt
  · rw [heq] at h
    exact lt_irrefl _ h
  · exact lt_asymm h (poly_strictMono hc hy hlt)

omit [LinearOrder K] [IsStrictOrderedRing K] in
theorem poly_zero : poly k c t 0 = -t := by
  unfold poly
  rw [zero_pow (Nat.succ_ne_zero _), mul_zero, zero_add, zero_sub]

theorem poly_pos (hc : 0 ≤ c) (ht : 0 ≤ t) (hy : t + 1 ≤ y) : 0 < poly k c t y := by
  have hy1 : 1 ≤ y := (le_add_of_nonneg_left ht).trans hy
  have hpow : y ≤ y ^ (k + 2) := le_self_pow₀ hy1 (Nat.succ_ne_zero _)
  have hlin : 0 ≤ c * y := mul_nonneg hc (zero_le_one.trans hy1)
  unfold poly
  linarith

/-- The slope bounds how far the values of two close elements are apart. -/
theorem poly_sub_le_slope {b : K} (hx : 0 ≤ x) (hxy : x ≤ y) (hyb : y ≤ b) :
    poly k c t y ≤ poly k c t x + slope k c b * (y - x) := by
  have hy := hx.trans hxy
  have htan := poly_tangent_le (k := k) (c := c) (t := t) hy hx
  have hslope : slope k c y ≤ slope k c b := by
    unfold slope
    gcongr
  have hmul := mul_le_mul_of_nonneg_right hslope (sub_nonneg.mpr hxy)
  linarith

/-- **Close to the zero** there are elements on either side of it, with
values that differ by as little as asked for. -/
theorem exists_near_zero [Archimedean K] (hc : 0 ≤ c) (ht : 0 ≤ t) (he : 0 < e) :
    ∃ x y, 0 ≤ x ∧ poly k c t x ≤ 0 ∧ 0 < poly k c t y ∧ 0 ≤ y
      ∧ poly k c t y ≤ poly k c t x + e := by
  have hb : 0 < slope k c (t + 2) := by
    unfold slope
    positivity
  obtain ⟨δ, hδ, hδ1, hδe⟩ : ∃ δ : K, 0 < δ ∧ δ ≤ 1 ∧ slope k c (t + 2) * δ ≤ e := by
    refine ⟨min 1 (e / slope k c (t + 2)), lt_min one_pos (div_pos he hb), min_le_left _ _, ?_⟩
    rw [mul_comm, ← le_div_iff₀ hb]
    exact min_le_right _ _
  -- the first multiple of a small enough step that is above the zero
  have hex : ∃ i : ℕ, 0 < poly k c t (i * δ) := by
    obtain ⟨i, hi⟩ := Archimedean.arch (t + 1) hδ
    rw [nsmul_eq_mul] at hi
    exact ⟨i, poly_pos hc ht hi⟩
  classical
  obtain ⟨i, hi, hmin⟩ : ∃ i : ℕ, 0 < poly k c t (i * δ)
      ∧ ∀ j < i, ¬ 0 < poly k c t (j * δ) := ⟨_, Nat.find_spec hex, fun _ => Nat.find_min hex⟩
  cases i with
  | zero =>
      rw [Nat.cast_zero, zero_mul, poly_zero] at hi
      exact absurd ht (not_le.mpr (neg_pos.mp hi))
  | succ i =>
      have hle : poly k c t (i * δ) ≤ 0 := not_lt.mp (hmin i (Nat.lt_succ_self i))
      have hx : 0 ≤ i * δ := mul_nonneg (Nat.cast_nonneg _) hδ.le
      have hstep : ((i + 1 : ℕ) : K) * δ = i * δ + δ := by push_cast; ring
      have hbound : i * δ ≤ t + 1 := by
        by_contra hlt
        exact absurd hle (not_le.mpr (poly_pos hc ht (not_le.mp hlt).le))
      have hsub := poly_sub_le_slope (k := k) (c := c) (t := t) hx (le_add_of_nonneg_right hδ.le)
        (show i * δ + δ ≤ t + 2 by linarith)
      rw [hstep] at hi
      rw [add_sub_cancel_left] at hsub
      exact ⟨_, _, hx, hle, hi, by linarith, by linarith⟩

/-! ## Two zeros -/

/-- Adding the line `m * y - n` to an increasing `f` lowers its zero. -/
def ZeroFalls (f : K → K) (m n : K) : Prop :=
  if m = 0 then n < 0
  else if 0 < m then n < 0 ∨ f (n / m) < 0
  else n < 0 ∧ 0 < f (n / m)

instance (f : K → K) (m n : K) : Decidable (ZeroFalls f m n) :=
  inferInstanceAs (Decidable (ite _ _ (ite _ _ _)))

omit [LinearOrder K] [IsStrictOrderedRing K] in
theorem poly_add_line : poly k c' t' y = poly k c t y + ((c' - c) * y - (t' - t)) := by
  unfold poly
  ring

/-- If the line stays away from zero up to the zero of the polynomial, some
element between the two zeros shows that the second is lower. -/
theorem exists_of_line [Archimedean K] (hc : 0 ≤ c) (ht : 0 ≤ t) {y₀ δ : K} (hδ : 0 < δ)
    (hy₀ : 0 ≤ y₀) (hle : poly k c t y₀ ≤ 0)
    (h : ∀ y, y₀ ≤ y → poly k c t y ≤ 0 → δ ≤ m * y - n) :
    ∃ y, 0 ≤ y ∧ poly k c t y ≤ 0 ∧ 0 < poly k c t y + (m * y - n) := by
  obtain ⟨x, y, hx, hxle, hpos, -, hnear⟩ := exists_near_zero (k := k) hc ht hδ
  rcases le_total x y₀ with hxy | hxy
  · have hmono : poly k c t x ≤ poly k c t y₀ := by
      rcases hxy.eq_or_lt with rfl | hlt
      · exact le_rfl
      · exact (poly_strictMono hc hx hlt).le
    have := h y₀ le_rfl hle
    exact ⟨y₀, hy₀, hle, by linarith⟩
  · have := h x hxy hxle
    exact ⟨x, hx, hxle, by linarith⟩

theorem exists_of_zeroFalls [Archimedean K] (hc : 0 ≤ c) (ht : 0 ≤ t)
    (h : ZeroFalls (poly k c t) m n) :
    ∃ y, 0 ≤ y ∧ poly k c t y ≤ 0 ∧ 0 < poly k c t y + (m * y - n) := by
  have hzero : poly k c t 0 ≤ 0 := by
    rw [poly_zero]
    exact neg_nonpos.mpr ht
  -- from zero on
  have hneg : 0 ≤ m → n < 0 →
      ∃ y, 0 ≤ y ∧ poly k c t y ≤ 0 ∧ 0 < poly k c t y + (m * y - n) := by
    intro hm hn
    refine exists_of_line hc ht (neg_pos.mpr hn) le_rfl hzero (fun y hy _ => ?_)
    have := mul_nonneg hm hy
    linarith
  unfold ZeroFalls at h
  split at h
  · rename_i hm
    exact hneg hm.ge h
  · split at h
    · rename_i hm
      rcases lt_or_ge n 0 with hn | hn
      · exact hneg hm.le hn
      · -- from above the zero of the line on
        have hlt := h.resolve_left (not_lt.mpr hn)
        obtain ⟨x, y, hx, hxle, hpos, -, hnear⟩ := exists_near_zero (k := k) hc ht (neg_pos.mpr hlt)
        have hnm : n / m < x := lt_of_poly_lt hc hx
          (sub_pos.mp (by rw [sub_eq_add_neg]; exact hpos.trans_le hnear))
        rw [div_lt_iff₀ hm, mul_comm] at hnm
        refine exists_of_line hc ht (sub_pos.mpr hnm) hx hxle (fun z hz _ => ?_)
        have := mul_le_mul_of_nonneg_left hz hm.le
        linarith
    · -- below the zero of the line
      rename_i hne hm
      obtain ⟨hn, hgt⟩ := h
      have hm : m < 0 := lt_of_le_of_ne (not_lt.mp hm) hne
      obtain ⟨x, y, hx, hxle, hpos, hy, hnear⟩ := exists_near_zero (k := k) hc ht (half_pos hgt)
      have hnm : y < n / m := lt_of_poly_lt hc (div_nonneg_of_nonpos hn.le hm.le)
        ((hnear.trans (add_le_of_nonpos_left hxle)).trans_lt (half_lt_self hgt))
      rw [lt_div_iff_of_neg hm, mul_comm] at hnm
      refine exists_of_line hc ht (sub_pos.mpr hnm) le_rfl hzero (fun z hz hzle => ?_)
      have hzy : z < y := lt_of_poly_lt hc hy (hzle.trans_lt hpos)
      have := mul_le_mul_of_nonpos_left hzy.le hm.le
      linarith

/-- **Two zeros.** Wherever the first polynomial is not positive, neither is
the second, if and only if the line between them does not lower the zero. -/
theorem forall_poly_nonpos_iff [Archimedean K] (hc : 0 ≤ c) (hc' : 0 ≤ c') (ht : 0 ≤ t) :
    (∀ y, 0 ≤ y → poly k c t y ≤ 0 → poly k c' t' y ≤ 0)
      ↔ ¬ ZeroFalls (poly k c t) (c' - c) (t' - t) := by
  constructor
  · intro h hfalls
    obtain ⟨y, hy, hle, hpos⟩ := exists_of_zeroFalls hc ht hfalls
    rw [← poly_add_line] at hpos
    exact absurd (h y hy hle) (not_le.mpr hpos)
  · intro hfalls y hy hle
    -- the line is not positive, or it is negative beyond `y`
    unfold ZeroFalls at hfalls
    split at hfalls
    · rename_i hm
      rw [poly_add_line (c := c) (t := t), hm, zero_mul]
      linarith
    · split at hfalls
      · rename_i hm
        obtain ⟨hn, hpos⟩ := not_or.mp hfalls
        have hyn : y ≤ (t' - t) / (c' - c) := by
          by_contra hlt
          have hmono := poly_strictMono (k := k) (t := t) hc
            (div_nonneg (not_lt.mp hn) hm.le) (not_le.mp hlt)
          exact hpos (hmono.trans_le hle)
        rw [le_div_iff₀ hm, mul_comm] at hyn
        rw [poly_add_line (c := c) (t := t)]
        linarith
      · rename_i hne hm
        have hm : c' - c < 0 := lt_of_le_of_ne (not_lt.mp hm) hne
        rcases lt_or_ge (t' - t) 0 with hn | hn
        · have hgt : poly k c t ((t' - t) / (c' - c)) ≤ 0 :=
            not_lt.mp (fun hgt => hfalls ⟨hn, hgt⟩)
          rcases lt_or_ge y ((t' - t) / (c' - c)) with hlt | hge
          · have hmono := poly_strictMono (k := k) (t := t') hc' hy hlt
            rw [poly_add_line (c := c) (t := t) (y := (t' - t) / (c' - c)),
              mul_div_cancel₀ _ hm.ne, sub_self, add_zero] at hmono
            exact (hmono.trans_le hgt).le
          · rw [div_le_iff_of_neg hm, mul_comm] at hge
            rw [poly_add_line (c := c) (t := t)]
            linarith
        · have := mul_nonpos_of_nonpos_of_nonneg hm.le hy
          rw [poly_add_line (c := c) (t := t)]
          linarith

end SolanaAmm.Newton
