import SolanaAmm.Lib.Fixed
import Mathlib.Data.Rat.Cast.Order
import Mathlib.Tactic.FieldSimp
import Mathlib.Tactic.Positivity

/-!
# Value — fixed-point numbers as rationals

The rational number that a fixed-point number stands for, and how far a
truncated product, quotient or power can be below the exact one: a unit in
the last place (`unit`) for a product or a quotient, and one unit a
multiplication, carried through the factors that follow, for a power.
-/

namespace SolanaAmm

namespace Fixed

variable {bits scale n : ℕ} {x y z : Fixed bits scale}

def value (x : Fixed bits scale) : ℚ := x.raw / scale

/-- A unit in the last place. -/
def unit (scale : ℕ) : ℚ := 1 / scale

theorem unit_pos (hs : 0 < scale) : 0 < unit scale := by
  unfold unit
  positivity

theorem value_nonneg (x : Fixed bits scale) : 0 ≤ x.value := by
  unfold value
  positivity

theorem value_le_value (hs : 0 < scale) : x.value ≤ y.value ↔ x.raw ≤ y.raw := by
  have hpos : (0 : ℚ) < scale := by exact_mod_cast hs
  unfold value
  rw [div_le_div_iff_of_pos_right hpos]
  exact_mod_cast Iff.rfl

theorem value_whole (hs : 0 < scale) {k : ℕ} (hx : x.raw = k * scale) : x.value = k := by
  have hpos : (0 : ℚ) < scale := by exact_mod_cast hs
  rw [value, hx]
  push_cast
  field_simp

theorem value_add (h : z.raw = x.raw + y.raw) : z.value = x.value + y.value := by
  rw [value, h]
  push_cast
  exact add_div _ _ _

theorem value_sub (hle : y.raw ≤ x.raw) (h : z.raw = x.raw - y.raw) :
    z.value = x.value - y.value := by
  rw [value, h, Nat.cast_sub hle]
  exact sub_div _ _ _

/-! ## Products and quotients -/

theorem value_mul_le (hs : 0 < scale) (h : z.raw = x.raw * y.raw / scale) :
    z.value ≤ x.value * y.value := by
  have hpos : (0 : ℚ) < scale := by exact_mod_cast hs
  have hle : z.raw * scale ≤ x.raw * y.raw := h ▸ Nat.div_mul_le_self _ _
  have hcast : (z.raw : ℚ) * scale ≤ x.raw * y.raw := by exact_mod_cast hle
  unfold value
  rw [div_mul_div_comm, div_le_div_iff₀ hpos (by positivity)]
  nlinarith

theorem lt_value_mul (hs : 0 < scale) (h : z.raw = x.raw * y.raw / scale) :
    x.value * y.value < z.value + unit scale := by
  have hpos : (0 : ℚ) < scale := by exact_mod_cast hs
  have hlt : x.raw * y.raw < scale * (z.raw + 1) := h ▸ Nat.lt_mul_div_succ _ hs
  have hcast : (x.raw : ℚ) * y.raw < scale * (z.raw + 1) := by exact_mod_cast hlt
  unfold value unit
  rw [div_mul_div_comm, ← add_div, div_lt_div_iff₀ (by positivity) hpos]
  nlinarith

/-- A quotient, multiplied back. -/
theorem value_div_le (hs : 0 < scale) (h : z.raw = x.raw * scale / y.raw) :
    z.value * y.value ≤ x.value := by
  have hpos : (0 : ℚ) < scale := by exact_mod_cast hs
  have hle : z.raw * y.raw ≤ x.raw * scale := h ▸ Nat.div_mul_le_self _ _
  have hcast : (z.raw : ℚ) * y.raw ≤ x.raw * scale := by exact_mod_cast hle
  unfold value
  rw [div_mul_div_comm, div_le_div_iff₀ (by positivity) hpos]
  nlinarith

theorem lt_value_div (hs : 0 < scale) (hy : y.raw ≠ 0) (h : z.raw = x.raw * scale / y.raw) :
    x.value < (z.value + unit scale) * y.value := by
  have hpos : (0 : ℚ) < scale := by exact_mod_cast hs
  have hlt : x.raw * scale < y.raw * (z.raw + 1) :=
    h ▸ Nat.lt_mul_div_succ _ (Nat.pos_of_ne_zero hy)
  have hcast : (x.raw : ℚ) * scale < y.raw * (z.raw + 1) := by exact_mod_cast hlt
  unfold value unit
  rw [← add_div, div_mul_div_comm, div_lt_div_iff₀ hpos (by positivity)]
  nlinarith

/-! ## Powers -/

namespace PowChain

theorem value_le (hs : 0 < scale) (h : PowChain x n z) : z.value ≤ x.value ^ n := by
  have hpos : (0 : ℚ) < scale := by exact_mod_cast hs
  obtain ⟨k, rfl⟩ := Nat.exists_eq_add_of_le' h.pos
  have hle : (z.raw : ℚ) * scale ^ k ≤ x.raw ^ (k + 1) := by exact_mod_cast h.le_pow
  unfold value
  rw [div_pow, div_le_div_iff₀ hpos (by positivity), pow_succ, ← mul_assoc]
  exact mul_le_mul_of_nonneg_right hle hpos.le

theorem le_value (hs : 0 < scale) (h : PowChain x (n + 1) z) :
    x.value ^ (n + 1) ≤ z.value + n * max x.value 1 ^ n * unit scale := by
  have hpos : (0 : ℚ) < scale := by exact_mod_cast hs
  have hle : (x.raw : ℚ) ^ (n + 1) ≤ z.raw * scale ^ n + n * max (x.raw : ℚ) scale ^ n := by
    exact_mod_cast h.pow_le hs
  have hmax : max x.value 1 = max (x.raw : ℚ) scale / scale := by
    rw [← max_div_div_right hpos.le, div_self hpos.ne', value]
  have hsplit : z.value + n * max x.value 1 ^ n * unit scale
      = (z.raw * scale ^ n + n * max (x.raw : ℚ) scale ^ n) / scale ^ (n + 1) := by
    rw [hmax, value, unit, div_pow, pow_succ]
    field_simp
  rw [hsplit, value, div_pow]
  exact div_le_div_of_nonneg_right hle (by positivity)

end PowChain

end Fixed

end SolanaAmm
