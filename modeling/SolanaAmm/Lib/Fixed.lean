import SolanaAmm.Lib.Word
import Mathlib.Algebra.Order.Floor.Semiring
import Mathlib.Tactic.Ring
import Mathlib.Tactic.Linarith

/-!
# Fixed — unsigned fixed-point numbers that truncate

`Fixed bits scale` is an unsigned integer of `bits` bits read as a
multiple of `1 / scale`. Multiplication and division return the exact
result truncated to a multiple of `1 / scale`, and fail exactly when that
result does not fit (or the divisor is zero). The facts below speak about
`raw`, the integer behind the number: what each operation computes, and
that whole numbers are exact.
-/

namespace SolanaAmm

/-- An unsigned fixed-point number: `raw / scale`. -/
structure Fixed (bits scale : ℕ) where
  raw : ℕ
  raw_lt : raw < 2 ^ bits

namespace Fixed

variable {bits scale : ℕ}

@[ext] theorem ext {x y : Fixed bits scale} (h : x.raw = y.raw) : x = y := by
  cases x; cases y; cases h; rfl

instance : DecidableEq (Fixed bits scale) := fun x y =>
  decidable_of_iff (x.raw = y.raw) ⟨ext, congrArg raw⟩

theorem raw_injective : Function.Injective (raw : Fixed bits scale → ℕ) :=
  fun _ _ => ext

instance : LinearOrder (Fixed bits scale) := LinearOrder.lift' raw raw_injective

theorem le_def {x y : Fixed bits scale} : x ≤ y ↔ x.raw ≤ y.raw := Iff.rfl

theorem lt_def {x y : Fixed bits scale} : x < y ↔ x.raw < y.raw := Iff.rfl

/-- The number with integer `n` behind it, if `n` fits. -/
def ofRaw? (n : ℕ) : Option (Fixed bits scale) :=
  if h : n < 2 ^ bits then some ⟨n, h⟩ else none

@[simp] theorem ofRaw?_eq_some {n : ℕ} {x : Fixed bits scale} :
    ofRaw? n = some x ↔ x.raw = n := by
  unfold ofRaw?
  split
  · rename_i h
    constructor
    · rintro ⟨⟩; rfl
    · rintro rfl; rfl
  · rename_i h
    constructor
    · intro hn; cases hn
    · rintro rfl; exact absurd x.raw_lt h

def tryAdd (x y : Fixed bits scale) : Option (Fixed bits scale) :=
  ofRaw? (x.raw + y.raw)

def trySub (x y : Fixed bits scale) : Option (Fixed bits scale) :=
  if y.raw ≤ x.raw then ofRaw? (x.raw - y.raw) else none

def tryMul (x y : Fixed bits scale) : Option (Fixed bits scale) :=
  ofRaw? (x.raw * y.raw / scale)

def tryDiv (x y : Fixed bits scale) : Option (Fixed bits scale) :=
  if y.raw = 0 then none else ofRaw? (x.raw * scale / y.raw)

/-- The integer part. -/
def floor (x : Fixed bits scale) : ℕ := x.raw / scale

/-- The least integer not below the number. -/
def ceil (x : Fixed bits scale) : ℕ := (x.raw + (scale - 1)) / scale

/-- The nearest integer, halves away from zero. -/
def round (x : Fixed bits scale) : ℕ := (x.raw + scale / 2) / scale

variable {x y z : Fixed bits scale}

@[simp] theorem tryAdd_eq_some : x.tryAdd y = some z ↔ z.raw = x.raw + y.raw := by
  simp [tryAdd]

@[simp] theorem trySub_eq_some :
    x.trySub y = some z ↔ y.raw ≤ x.raw ∧ z.raw = x.raw - y.raw := by
  unfold trySub
  split <;> simp [*]

@[simp] theorem tryMul_eq_some :
    x.tryMul y = some z ↔ z.raw = x.raw * y.raw / scale := by
  simp [tryMul]

@[simp] theorem tryDiv_eq_some :
    x.tryDiv y = some z ↔ y.raw ≠ 0 ∧ z.raw = x.raw * scale / y.raw := by
  unfold tryDiv
  split <;> simp [*]

/-! ## Whole numbers

A factor that is a whole number makes the product exact. -/

theorem mul_whole_raw (hs : 0 < scale) {n : ℕ} (hx : x.raw = n * scale) :
    x.raw * y.raw / scale = n * y.raw := by
  rw [hx, Nat.mul_right_comm, Nat.mul_div_cancel _ hs]

/-- Dividing two whole numbers keeps `scale` units of precision. -/
theorem div_whole_raw (hs : 0 < scale) {n m : ℕ} (hx : x.raw = n * scale)
    (hy : y.raw = m * scale) : x.raw * scale / y.raw = n * scale / m := by
  rw [hx, hy, Nat.mul_div_mul_right _ _ hs]

/-! ## Rounding to integers -/

/-- Taking a fixed-point balance off a whole one and flooring rounds the
balance up. -/
theorem sub_sub_div (hs : 0 < scale) {n b : ℕ} (h : b ≤ n * scale) :
    n - (n * scale - b) / scale = (b + (scale - 1)) / scale := by
  have hle := Nat.lt_mul_div_succ (b + (scale - 1)) hs
  have hlt := Nat.div_mul_le_self (b + (scale - 1)) scale
  generalize (b + (scale - 1)) / scale = q at hle hlt ⊢
  rw [Nat.mul_add, Nat.mul_comm] at hle
  have hqn : q ≤ n := by
    refine Nat.le_of_lt_succ (Nat.lt_of_mul_lt_mul_right (a := scale) ?_)
    rw [Nat.succ_mul]
    omega
  obtain ⟨d, rfl⟩ := Nat.exists_eq_add_of_le hqn
  have hdiv : ((q + d) * scale - b) / scale = d := by
    rw [Nat.add_mul]
    refine Nat.div_eq_of_lt_le ?_ ?_
    · omega
    · rw [Nat.add_mul]
      omega
  rw [hdiv, Nat.add_sub_cancel]

/-! ## Powers by truncating multiplications

`PowChain x n z`: `z` was computed from `x` by multiplications alone,
`n` factors in all, in some order. The order changes how much is
truncated, but never past the bounds below. -/

inductive PowChain (x : Fixed bits scale) : ℕ → Fixed bits scale → Prop
  | one : PowChain x 1 x
  | mul {a b : ℕ} {y z w : Fixed bits scale} (hy : PowChain x a y) (hz : PowChain x b z)
      (hw : y.tryMul z = some w) : PowChain x (a + b) w

namespace PowChain

variable {n : ℕ}

theorem pos (h : PowChain x n z) : 0 < n := by
  induction h with
  | one => exact Nat.one_pos
  | mul _ _ _ ih _ => omega

theorem eq_of_one (h : PowChain x 1 z) : z = x := by
  generalize hn : 1 = n at h
  cases h with
  | one => rfl
  | mul hy hz _ =>
      have := hy.pos
      have := hz.pos
      omega

/-- There is one way to square. -/
theorem two_raw (h : PowChain x 2 z) : z.raw = x.raw * x.raw / scale := by
  generalize hn : 2 = n at h
  cases h with
  | one => omega
  | @mul a b y w _ hy hz hw =>
      have ha := hy.pos
      have hb := hz.pos
      obtain rfl : a = 1 := by omega
      obtain rfl : b = 1 := by omega
      rw [hy.eq_of_one, hz.eq_of_one, tryMul_eq_some] at hw
      exact hw

/-- A power of a whole number is exact. -/
theorem whole (hs : 0 < scale) {k : ℕ} (hx : x.raw = k * scale) (h : PowChain x n z) :
    z.raw = k ^ n * scale := by
  induction h with
  | one => rw [hx, Nat.pow_one]
  | mul _ _ hw ihy ihz =>
      rw [tryMul_eq_some] at hw
      rw [hw, mul_whole_raw hs ihy, ihz, ← Nat.mul_assoc, Nat.pow_add]

/-- A power is never above the exact one. -/
theorem le_pow (h : PowChain x n z) : z.raw * scale ^ (n - 1) ≤ x.raw ^ n := by
  induction h with
  | one => simp
  | @mul a b y z w hy hz hw ihy ihz =>
      rw [tryMul_eq_some] at hw
      have ha := hy.pos
      have hb := hz.pos
      calc w.raw * scale ^ (a + b - 1)
          = w.raw * scale * (scale ^ (a - 1) * scale ^ (b - 1)) := by
            rw [show a + b - 1 = (a - 1) + (b - 1) + 1 by omega, pow_succ, pow_add]
            ring
        _ ≤ y.raw * z.raw * (scale ^ (a - 1) * scale ^ (b - 1)) :=
            Nat.mul_le_mul_right _ (hw ▸ Nat.div_mul_le_self _ _)
        _ = y.raw * scale ^ (a - 1) * (z.raw * scale ^ (b - 1)) := by ring
        _ ≤ x.raw ^ a * x.raw ^ b := Nat.mul_le_mul ihy ihz
        _ = x.raw ^ (a + b) := (pow_add _ _ _).symm

/-- A power is below the exact one by at most one unit a multiplication,
carried through the factors that follow. -/
theorem pow_le (hs : 0 < scale) (h : PowChain x n z) :
    x.raw ^ n ≤ z.raw * scale ^ (n - 1) + (n - 1) * max x.raw scale ^ (n - 1) := by
  induction h with
  | one => simp
  | @mul a b y z w hy hz hw ihy ihz =>
      rw [tryMul_eq_some] at hw
      obtain ⟨a, rfl⟩ := Nat.exists_eq_add_of_le' hy.pos
      obtain ⟨b, rfl⟩ := Nat.exists_eq_add_of_le' hz.pos
      simp only [Nat.add_sub_cancel] at ihy ihz
      have hzle := hz.le_pow
      rw [Nat.add_sub_cancel] at hzle
      generalize hM : max x.raw scale = M at ihy ihz ⊢
      have hxM : x.raw ≤ M := hM ▸ Nat.le_max_left _ _
      have hsM : scale ≤ M := hM ▸ Nat.le_max_right _ _
      -- one truncation more than in the two factors
      have hyz : y.raw * z.raw ≤ w.raw * scale + scale := by
        have hlt := Nat.lt_mul_div_succ (y.raw * z.raw) hs
        rw [← hw, Nat.mul_add, Nat.mul_one] at hlt
        rw [Nat.mul_comm w.raw]
        exact hlt.le
      have hpow : scale ^ a * scale ^ b * scale ≤ M ^ (a + b + 1) := by
        rw [← pow_add, ← pow_succ]
        exact Nat.pow_le_pow_left hsM _
      have hexp : a + 1 + (b + 1) - 1 = a + b + 1 := by omega
      rw [hexp]
      calc x.raw ^ (a + 1 + (b + 1))
          = x.raw ^ (a + 1) * x.raw ^ (b + 1) := pow_add _ _ _
        _ ≤ (y.raw * scale ^ a + a * M ^ a) * x.raw ^ (b + 1) := Nat.mul_le_mul_right _ ihy
        _ = y.raw * scale ^ a * x.raw ^ (b + 1) + a * M ^ a * x.raw ^ (b + 1) := by ring
        _ ≤ y.raw * scale ^ a * (z.raw * scale ^ b + b * M ^ b)
              + a * M ^ a * M ^ (b + 1) :=
            Nat.add_le_add (Nat.mul_le_mul_left _ ihz)
              (Nat.mul_le_mul_left _ (Nat.pow_le_pow_left hxM _))
        _ = y.raw * z.raw * (scale ^ a * scale ^ b) + b * M ^ b * (y.raw * scale ^ a)
              + a * M ^ (a + b + 1) := by ring
        _ ≤ (w.raw * scale + scale) * (scale ^ a * scale ^ b)
              + b * M ^ b * M ^ (a + 1) + a * M ^ (a + b + 1) := by
            have hyle := hy.le_pow
            rw [Nat.add_sub_cancel] at hyle
            exact Nat.add_le_add (Nat.add_le_add (Nat.mul_le_mul_right _ hyz)
              (Nat.mul_le_mul_left _ (hyle.trans (Nat.pow_le_pow_left hxM _)))) le_rfl
        _ = w.raw * scale ^ (a + b + 1) + scale ^ a * scale ^ b * scale
              + (a + b) * M ^ (a + b + 1) := by ring
        _ ≤ w.raw * scale ^ (a + b + 1) + M ^ (a + b + 1) + (a + b) * M ^ (a + b + 1) := by
            omega
        _ = w.raw * scale ^ (a + b + 1) + (a + b + 1) * M ^ (a + b + 1) := by ring

end PowChain

end Fixed

end SolanaAmm
