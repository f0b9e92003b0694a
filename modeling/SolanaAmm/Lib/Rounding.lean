import Mathlib.Algebra.Order.Floor.Div
import Mathlib.Algebra.Order.Archimedean.Basic
import Mathlib.Data.Rat.Floor
import Mathlib.Tactic.FieldSimp
import Mathlib.Tactic.Linarith
import Mathlib.Data.Nat.Sqrt
import Mathlib.Tactic.Ring

/-!
# Rounding — shares taken through a truncated ratio

A share `x * n / d` of a balance `x` can be computed exactly, or through a
ratio that is first truncated to `w` units: `n / d` and multiplied by, or
`d / n` and divided by. How far the rounded results are apart depends on
what the truncation dropped and on what the last rounding adds.
-/

namespace SolanaAmm.Rounding

variable {x n d w k : ℕ}

/-! ## Rounding up -/

/-- What rounding `n / d` up adds, in units of one over `d`. -/
def excess (n d : ℕ) : ℕ := d * (n ⌈/⌉ d) - n

theorem mul_ceilDiv (hd : 0 < d) : d * (n ⌈/⌉ d) = n + excess n d := by
  have h : n ≤ d * (n ⌈/⌉ d) := (ceilDiv_le_iff_le_mul hd).mp le_rfl
  unfold excess
  omega

theorem ceilDiv_eq (hd : 0 < d) : n ⌈/⌉ d = (n + (d - 1)) / d := by
  rw [Nat.ceilDiv_eq_add_pred_div, Nat.add_sub_assoc hd]

theorem ceilDiv_pos (hd : 0 < d) : 0 < n ⌈/⌉ d ↔ 0 < n := by
  rw [← not_iff_not, not_lt, not_lt, Nat.le_zero, Nat.le_zero, ← Nat.le_zero,
    ceilDiv_le_iff_le_mul hd, Nat.mul_zero, Nat.le_zero]

/-- Rounding up a rational quotient. -/
theorem ceil_mul_div (hd : 0 < d) : ⌈(x : ℚ) * (n / d)⌉₊ = (x * n) ⌈/⌉ d := by
  have hd' : (0 : ℚ) < d := by exact_mod_cast hd
  refine le_antisymm ?_ ?_
  · rw [Nat.ceil_le, ← mul_div_assoc, div_le_iff₀ hd']
    have h : x * n ≤ d * ((x * n) ⌈/⌉ d) := (ceilDiv_le_iff_le_mul hd).mp le_rfl
    rw [Nat.mul_comm d] at h
    exact_mod_cast h
  · rw [ceilDiv_le_iff_le_mul hd]
    have h := Nat.le_ceil ((x : ℚ) * (n / d))
    rw [← mul_div_assoc, div_le_iff₀ hd', mul_comm _ (d : ℚ)] at h
    rw [← mul_div_assoc]
    exact_mod_cast h

/-! ## Rounding down -/

/-- Dividing passes on no more than the whole difference. -/
theorem add_div_le (hd : 0 < d) : (x + k) / d ≤ x / d + k := calc
  (x + k) / d ≤ (x + k * d) / d :=
      Nat.div_le_div_right (Nat.add_le_add_left (Nat.le_mul_of_pos_right _ hd) _)
  _ = x / d + k := Nat.add_mul_div_right _ _ hd

/-- Taking away `k` units more lowers the quotient by at most `k`. -/
theorem sub_div_le {y y' : ℕ} (hw : 0 < w) (h : y' ≤ y + k * w) :
    (x - y) / w ≤ (x - y') / w + k := calc
  (x - y) / w ≤ (x - y' + k * w) / w := Nat.div_le_div_right (by omega)
  _ = (x - y') / w + k := Nat.add_mul_div_right _ _ hw

/-- The larger quotient has the larger truncated ratio. -/
theorem div_le_div_of_cross {n' d' : ℕ} (hd : 0 < d) (hd' : 0 < d') (h : n * d' ≤ n' * d) :
    n * w / d ≤ n' * w / d' := by
  rw [Nat.le_div_iff_mul_le hd']
  refine Nat.le_of_mul_le_mul_left ?_ hd
  have hratio : d * (n * w / d) ≤ n * w := Nat.mul_div_le _ _
  calc d * (n * w / d * d') = d * (n * w / d) * d' := by ring
    _ ≤ n * w * d' := Nat.mul_le_mul_right _ hratio
    _ = n * d' * w := by ring
    _ ≤ n' * d * w := Nat.mul_le_mul_right _ h
    _ = d * (n' * w) := by ring

/-- The truncated ratio and its truncated inverse are no more than inverse. -/
theorem div_mul_div_le (hd : 0 < d) (hn : 0 < n) : n * w / d * (d * w / n) ≤ w * w := by
  have hdirect : n * w / d * d ≤ n * w := Nat.div_mul_le_self _ _
  have hinverted : d * w / n * n ≤ d * w := Nat.div_mul_le_self _ _
  refine Nat.le_of_mul_le_mul_right ?_ (Nat.mul_pos hd hn)
  calc n * w / d * (d * w / n) * (d * n) = n * w / d * d * (d * w / n * n) := by ring
    _ ≤ n * w * (d * w) := Nat.mul_le_mul hdirect hinverted
    _ = w * w * (d * n) := by ring

/-- **A truncated ratio, rounded down**, gives the exact share rounded down
unless what the truncation dropped is worth more than the remainder. -/
theorem mul_div_div_eq_iff (hd : 0 < d) (hw : 0 < w) :
    x * (n * w / d) / w = x * n / d ↔ x * (n * w % d) ≤ w * (x * n % d) := by
  have hratio : d * (n * w / d) + n * w % d = n * w := Nat.div_add_mod _ _
  have hshare : d * (x * n / d) + x * n % d = x * n := Nat.div_add_mod _ _
  have hrest : x * n % d < d := Nat.mod_lt _ hd
  generalize n * w / d = q at *
  generalize n * w % d = e at *
  generalize x * n / d = f at *
  generalize x * n % d = g at *
  have hsum : d * (f * w) + w * g = d * (x * q) + x * e := by
    calc d * (f * w) + w * g = (d * f + g) * w := by ring
      _ = x * (n * w) := by rw [hshare, Nat.mul_assoc]
      _ = d * (x * q) + x * e := by rw [← hratio]; ring
  have hle : x * q / w ≤ f := by
    refine Nat.le_of_lt_succ ((Nat.div_lt_iff_lt_mul hw).mpr ?_)
    refine Nat.lt_of_mul_lt_mul_left (a := d) ?_
    have hlt : w * g < w * d := Nat.mul_lt_mul_of_pos_left hrest hw
    have hsucc : d * (f.succ * w) = d * (f * w) + w * d := by
      rw [Nat.succ_mul, Nat.mul_add, Nat.mul_comm d w]
    omega
  constructor
  · intro h
    have hmul : d * (f * w) ≤ d * (x * q) :=
      Nat.mul_le_mul_left _ ((Nat.le_div_iff_mul_le hw).mp h.ge)
    omega
  · intro h
    refine le_antisymm hle ((Nat.le_div_iff_mul_le hw).mpr ?_)
    refine Nat.le_of_mul_le_mul_left ?_ hd
    omega

/-! ## A truncated ratio, rounded up

Between the direct ratio `n * w / d` and the inverted one `d * w / n` the
exact share `x * n / d` is rounded up as well. -/

/-- The direct ratio never gives more than the exact share. -/
theorem direct_le (hd : 0 < d) (hw : 0 < w) :
    (x * (n * w / d)) ⌈/⌉ w ≤ (x * n) ⌈/⌉ d := by
  rw [ceilDiv_le_iff_le_mul hw]
  refine Nat.le_of_mul_le_mul_left ?_ hd
  have hratio : d * (n * w / d) ≤ n * w := Nat.mul_div_le _ _
  have hexact : x * n ≤ d * ((x * n) ⌈/⌉ d) := (ceilDiv_le_iff_le_mul hd).mp le_rfl
  calc d * (x * (n * w / d)) = x * (d * (n * w / d)) := by ring
    _ ≤ x * (n * w) := Nat.mul_le_mul_left _ hratio
    _ = w * (x * n) := by ring
    _ ≤ w * (d * ((x * n) ⌈/⌉ d)) := Nat.mul_le_mul_left _ hexact
    _ = d * (w * ((x * n) ⌈/⌉ d)) := by ring

/-- A balance of at most `w` loses at most one to it. -/
theorem le_direct (hd : 0 < d) (hw : 0 < w) (hx : x ≤ w) :
    (x * n) ⌈/⌉ d ≤ (x * (n * w / d)) ⌈/⌉ w + 1 := by
  rw [ceilDiv_le_iff_le_mul hd]
  refine Nat.le_of_mul_le_mul_left ?_ hw
  have hratio : n * w ≤ d * (n * w / d + 1) := (Nat.lt_mul_div_succ _ hd).le
  have hround : x * (n * w / d) ≤ w * ((x * (n * w / d)) ⌈/⌉ w) :=
    (ceilDiv_le_iff_le_mul hw).mp le_rfl
  generalize n * w / d = q at *
  generalize (x * q) ⌈/⌉ w = a at *
  calc w * (x * n) = x * (n * w) := by ring
    _ ≤ x * (d * (q + 1)) := Nat.mul_le_mul_left _ hratio
    _ = d * (x * q + x) := by ring
    _ ≤ d * (w * a + w) := Nat.mul_le_mul_left _ (Nat.add_le_add hround hx)
    _ = w * (d * (a + 1)) := by ring

/-- The share through the inverted ratio, first truncated to `w` units. -/
theorem inverted_le_iff {q : ℕ} (hw : 0 < w) (hq : 0 < q) :
    (x * w * w / q) ⌈/⌉ w ≤ k ↔ x * w * w < (w * k + 1) * q := by
  rw [ceilDiv_le_iff_le_mul hw, ← Nat.lt_succ_iff, Nat.div_lt_iff_lt_mul hq]

/-- The inverted ratio gives no less than the exact share, up to one. -/
theorem le_inverted (hn : 0 < n) (hd : 0 < d) (hw : 0 < w) (hq : 0 < d * w / n) :
    (x * n) ⌈/⌉ d ≤ (x * w * w / (d * w / n)) ⌈/⌉ w + 1 := by
  have hround := (inverted_le_iff (x := x) hw hq).mp le_rfl
  generalize (x * w * w / (d * w / n)) ⌈/⌉ w = b at *
  have hratio : n * (d * w / n) ≤ d * w := Nat.mul_div_le _ _
  rw [ceilDiv_le_iff_le_mul hd]
  refine Nat.le_of_lt (Nat.lt_of_mul_lt_mul_left (a := w * w) ?_)
  calc w * w * (x * n) = x * w * w * n := by ring
    _ < (w * b + 1) * (d * w / n) * n := Nat.mul_lt_mul_of_pos_right hround hn
    _ = (w * b + 1) * (n * (d * w / n)) := by ring
    _ ≤ (w * b + w) * (d * w) := Nat.mul_le_mul (by omega) hratio
    _ = w * w * (d * (b + 1)) := by ring

/-- **The inverted ratio** gives at most one more than the exact share if
and only if what the truncation dropped is worth at most that much. -/
theorem inverted_le_succ_iff (hd : 0 < d) (hw : 0 < w) (hq : 0 < d * w / n) :
    (x * w * w / (d * w / n)) ⌈/⌉ w ≤ (x * n) ⌈/⌉ d + 1 ↔
      w * (x * (d * w % n)) < d * w / n * (d * (w + 1) + w * excess (x * n) d) := by
  rw [inverted_le_iff hw hq, ← Nat.mul_lt_mul_left hd]
  have hratio : n * (d * w / n) + d * w % n = d * w := Nat.div_add_mod _ _
  have hexact := mul_ceilDiv (n := x * n) hd
  generalize d * w / n = q at *
  generalize d * w % n = s at *
  generalize excess (x * n) d = u at *
  generalize (x * n) ⌈/⌉ d = e at *
  have hleft : d * (x * w * w) = x * n * w * q + w * (x * s) := by
    calc d * (x * w * w) = x * w * (d * w) := by ring
      _ = x * n * w * q + w * (x * s) := by rw [← hratio]; ring
  have hright : d * ((w * (e + 1) + 1) * q) = x * n * w * q + q * (d * (w + 1) + w * u) := by
    calc d * ((w * (e + 1) + 1) * q) = q * (w * (d * e) + d * (w + 1)) := by ring
      _ = x * n * w * q + q * (d * (w + 1) + w * u) := by rw [hexact]; ring
  rw [hleft, hright, Nat.add_lt_add_iff_left]

/-- **Both ratios** agree up to one if and only if what truncating them
takes off their product is worth at most that much. -/
theorem inverted_le_direct_succ_iff {p q : ℕ} (hw : 0 < w) (hq : 0 < q) (hpq : p * q ≤ w * w) :
    (x * w * w / q) ⌈/⌉ w ≤ (x * p) ⌈/⌉ w + 1 ↔
      x * (w * w - p * q) < q * (w + 1 + excess (x * p) w) := by
  rw [inverted_le_iff hw hq]
  have hdirect := mul_ceilDiv (n := x * p) hw
  obtain ⟨r, hr⟩ := Nat.exists_eq_add_of_le hpq
  rw [hr, Nat.add_sub_cancel_left]
  generalize excess (x * p) w = u at *
  generalize (x * p) ⌈/⌉ w = a at *
  have hleft : x * w * w = x * p * q + x * r := by
    rw [Nat.mul_assoc, hr]
    ring
  have hright : (w * (a + 1) + 1) * q = x * p * q + q * (w + 1 + u) := by
    calc (w * (a + 1) + 1) * q = q * (w * a + w + 1) := by ring
      _ = x * p * q + q * (w + 1 + u) := by rw [hdirect]; ring
  rw [hleft, hright, Nat.add_lt_add_iff_left]

/-! ## A truncated square root

`√(l² + t)`, where the square of `l` is first truncated to `w` units, less
`l`: truncating takes off almost nothing unless `l` and `t` are both
small. -/

section Sqrt

variable {t t' : ℕ} {l l' : ℤ}

def truncatedSqrt (w : ℕ) (l : ℤ) (t : ℕ) : ℕ :=
  Nat.sqrt ((l.natAbs * l.natAbs / w + t) * w)

theorem cast_natAbs_mul_add (w : ℕ) (l : ℤ) (t : ℕ) :
    ((l.natAbs * l.natAbs + t * w : ℕ) : ℤ) = l ^ 2 + t * w := by
  push_cast
  rw [← pow_two, sq_abs]

theorem truncatedSqrt_sq_le (w : ℕ) (l : ℤ) (t : ℕ) :
    (truncatedSqrt w l t : ℤ) ^ 2 ≤ l ^ 2 + t * w := by
  have hsq : truncatedSqrt w l t ^ 2 ≤ l.natAbs * l.natAbs + t * w := calc
    truncatedSqrt w l t ^ 2 ≤ (l.natAbs * l.natAbs / w + t) * w := Nat.sqrt_le' _
    _ = l.natAbs * l.natAbs / w * w + t * w := Nat.add_mul _ _ _
    _ ≤ l.natAbs * l.natAbs + t * w := Nat.add_le_add_right (Nat.div_mul_le_self _ _) _
  calc (truncatedSqrt w l t : ℤ) ^ 2 ≤ (l.natAbs * l.natAbs + t * w : ℕ) := by exact_mod_cast hsq
    _ = l ^ 2 + t * w := cast_natAbs_mul_add w l t

theorem lt_truncatedSqrt_sq (hw : 0 < w) (l : ℤ) (t : ℕ) :
    l ^ 2 + t * w < (truncatedSqrt w l t + 1 : ℤ) ^ 2 + w := by
  have hsq : l.natAbs * l.natAbs + t * w < (truncatedSqrt w l t + 1) ^ 2 + w := calc
    l.natAbs * l.natAbs + t * w < (l.natAbs * l.natAbs / w + 1) * w + t * w :=
        Nat.add_lt_add_right (Nat.lt_mul_of_div_lt (Nat.lt_succ_self _) hw) _
    _ = (l.natAbs * l.natAbs / w + t) * w + w := by ring
    _ < (truncatedSqrt w l t + 1) ^ 2 + w := Nat.add_lt_add_right (Nat.lt_succ_sqrt' _) _
  calc l ^ 2 + t * w = (l.natAbs * l.natAbs + t * w : ℕ) := (cast_natAbs_mul_add w l t).symm
    _ < (truncatedSqrt w l t + 1 : ℤ) ^ 2 + w := by exact_mod_cast hsq

/-- **Almost antitone**: with a larger `l` and a smaller `t` the difference
grows by no more than `κ`, if the square root and `κ` make up for what the
square can lose. -/
theorem truncatedSqrt_sub_le {κ : ℕ} (hw : 0 < w) (hl : l ≤ l') (ht : t' ≤ t)
    (hgap : l ≤ truncatedSqrt w l t + 1 + κ)
    (hκ : (w : ℤ) ≤ 2 * (truncatedSqrt w l t + 1) * κ + κ ^ 2) :
    (truncatedSqrt w l' t' : ℤ) - l' ≤ truncatedSqrt w l t - l + κ := by
  have hupper := truncatedSqrt_sq_le w l' t'
  have hlower := lt_truncatedSqrt_sq hw l t
  have htw : (t' : ℤ) * w ≤ t * w := by exact_mod_cast Nat.mul_le_mul_right w ht
  have hs : 0 ≤ (truncatedSqrt w l t : ℤ) := Int.natCast_nonneg _
  generalize (truncatedSqrt w l' t' : ℤ) = s' at *
  generalize (truncatedSqrt w l t : ℤ) = s at *
  obtain ⟨δ, rfl⟩ : ∃ δ, l' = l + δ := ⟨l' - l, by ring⟩
  have hδ : 0 ≤ δ := by omega
  by_contra hlt
  have hsq : (s + 1 + δ + κ) ^ 2 ≤ s' ^ 2 :=
    pow_le_pow_left₀ (by omega) (by omega) 2
  -- `l` grows no faster than the square root
  have hslope : l * δ ≤ (s + 1 + κ) * δ := mul_le_mul_of_nonneg_right hgap hδ
  nlinarith

/-- Where `l² + t` is at least one, the difference grows by at most one unit. -/
theorem truncatedSqrt_sub_le_of_large (hw : 4 ≤ w) (hl : l ≤ l') (ht : t' ≤ t)
    (hlarge : (w : ℤ) ^ 2 ≤ l ^ 2 + t * w) :
    (truncatedSqrt w l' t' : ℤ) - l' ≤ truncatedSqrt w l t - l + 1 := by
  have hlower := lt_truncatedSqrt_sq (w := w) (by omega) l t
  have hs : 0 ≤ (truncatedSqrt w l t : ℤ) := Int.natCast_nonneg _
  have hw' : (4 : ℤ) ≤ w := by exact_mod_cast hw
  have hhalf : (w : ℤ) ≤ 2 * (truncatedSqrt w l t + 1) + 1 := by
    by_contra hlt
    nlinarith
  have hgap : l ≤ truncatedSqrt w l t + 1 + 1 := by
    by_contra hlt
    have htw : (0 : ℤ) ≤ t * w := by positivity
    nlinarith
  exact truncatedSqrt_sub_le (κ := 1) (by omega) hl ht (by exact_mod_cast hgap)
    (by push_cast; omega)

/-- In any case it grows by at most the square root of a unit. -/
theorem truncatedSqrt_sub_le_of_sq {κ : ℕ} (hκ : 0 < κ) (hl : l ≤ l') (ht : t' ≤ t) :
    (truncatedSqrt (κ ^ 2) l' t' : ℤ) - l' ≤ truncatedSqrt (κ ^ 2) l t - l + κ := by
  have hw : 0 < κ ^ 2 := Nat.pow_pos hκ
  have hlower := lt_truncatedSqrt_sq hw l t
  have hs : 0 ≤ (truncatedSqrt (κ ^ 2) l t : ℤ) := Int.natCast_nonneg _
  have hκ0 : (0 : ℤ) < κ := by exact_mod_cast hκ
  have htw : (0 : ℤ) ≤ t * (κ ^ 2 : ℕ) := by positivity
  push_cast at hlower htw
  refine truncatedSqrt_sub_le hw hl ht ?_ ?_
  · by_contra hlt
    nlinarith
  · push_cast
    nlinarith

end Sqrt

end SolanaAmm.Rounding
