import SolanaAmm.Lib.Fixed
import SolanaAmm.Lib.Result

/-!
# Decimal — the number type both programs compute with

The `decimal` crate is not part of the sources. What the programs rely on
is its documented arithmetic: an unsigned 192-bit integer scaled by
`10 ^ 18` whose operations truncate, and fail when a result does not fit,
a difference is negative or a divisor is zero. Its error converts into
the error type of the calling program (`DecimalError`).

Powers and square roots are not pinned down that far, so they are a
parameter (`PowSqrt`), with what is documented of them as laws
(`PowSqrt.Lawful`).
-/

namespace SolanaAmm

open Result

/-- `1.0` as an integer number of `10 ^ -18` units. -/
abbrev wad : ℕ := 10 ^ 18

abbrev Decimal := Fixed 192 wad

/-- An error type that the crate's only error converts into. -/
class DecimalError (ε : Type) where
  mathOverflow : ε

theorem wad_pos : 0 < wad := by decide

namespace Decimal

variable {ε : Type} [DecimalError ε]

/-- `Decimal::from(u64)`, which cannot fail. -/
def ofU64 (n : U64) : Decimal :=
  ⟨n.val * wad, calc
    n.val * wad < 2 ^ 64 * 2 ^ 60 :=
      Nat.mul_lt_mul_of_lt_of_le n.isLt (by decide) (by decide)
    _ < 2 ^ 192 := by decide⟩

def zero : Decimal := ofU64 0

def one : Decimal := ofU64 1

/-- `Decimal::from_scaled_val`: the number of `10 ^ -18` units, a `u128`. -/
def fromScaledVal (n : Word 128) : Decimal :=
  ⟨n.val, n.isLt.trans (by decide)⟩

/-- `Decimal::from_permillion`: a whole number of millionths. -/
def fromPermillion (n : U64) : Decimal :=
  ⟨n.val * 10 ^ 12, calc
    n.val * 10 ^ 12 < 2 ^ 64 * 2 ^ 60 :=
      Nat.mul_lt_mul_of_lt_of_le n.isLt (by decide) (by decide)
    _ < 2 ^ 192 := by decide⟩

def tryAdd (x y : Decimal) : Except ε Decimal :=
  okOr (Fixed.tryAdd x y) DecimalError.mathOverflow

def trySub (x y : Decimal) : Except ε Decimal :=
  okOr (Fixed.trySub x y) DecimalError.mathOverflow

def tryMul (x y : Decimal) : Except ε Decimal :=
  okOr (Fixed.tryMul x y) DecimalError.mathOverflow

def tryDiv (x y : Decimal) : Except ε Decimal :=
  okOr (Fixed.tryDiv x y) DecimalError.mathOverflow

/-- The rounding operations return a `u64`, and fail when it does not
fit. -/
def tryFloor (x : Decimal) : Except ε U64 :=
  okOr (Word.ofNat? (Fixed.floor x)) DecimalError.mathOverflow

def tryCeil (x : Decimal) : Except ε U64 :=
  okOr (Word.ofNat? (Fixed.ceil x)) DecimalError.mathOverflow

def tryRound (x : Decimal) : Except ε U64 :=
  okOr (Word.ofNat? (Fixed.round x)) DecimalError.mathOverflow

variable {x y z : Decimal} {n : U64}

@[simp] theorem ofU64_raw (n : U64) : (ofU64 n).raw = n.val * wad := rfl

@[simp] theorem zero_raw : zero.raw = 0 := rfl

@[simp] theorem one_raw : one.raw = wad := rfl

@[simp] theorem tryAdd_eq_ok :
    tryAdd (ε := ε) x y = .ok z ↔ z.raw = x.raw + y.raw := by
  simp [tryAdd]

@[simp] theorem trySub_eq_ok :
    trySub (ε := ε) x y = .ok z ↔ y.raw ≤ x.raw ∧ z.raw = x.raw - y.raw := by
  simp [trySub]

@[simp] theorem tryMul_eq_ok :
    tryMul (ε := ε) x y = .ok z ↔ z.raw = x.raw * y.raw / wad := by
  simp [tryMul]

@[simp] theorem tryDiv_eq_ok :
    tryDiv (ε := ε) x y = .ok z ↔ y.raw ≠ 0 ∧ z.raw = x.raw * wad / y.raw := by
  simp [tryDiv]

/-! Results that fit are returned. -/

theorem exists_tryAdd (h : x.raw + y.raw < 2 ^ 192) :
    ∃ z, tryAdd (ε := ε) x y = .ok z :=
  ⟨⟨_, h⟩, tryAdd_eq_ok.mpr rfl⟩

theorem exists_trySub (h : y.raw ≤ x.raw) : ∃ z, trySub (ε := ε) x y = .ok z :=
  ⟨⟨_, (Nat.sub_le _ _).trans_lt x.raw_lt⟩, trySub_eq_ok.mpr ⟨h, rfl⟩⟩

theorem exists_tryMul (h : x.raw * y.raw / wad < 2 ^ 192) :
    ∃ z, tryMul (ε := ε) x y = .ok z :=
  ⟨⟨_, h⟩, tryMul_eq_ok.mpr rfl⟩

theorem exists_tryDiv (hy : y.raw ≠ 0) (h : x.raw * wad / y.raw < 2 ^ 192) :
    ∃ z, tryDiv (ε := ε) x y = .ok z :=
  ⟨⟨_, h⟩, tryDiv_eq_ok.mpr ⟨hy, rfl⟩⟩

@[simp] theorem tryFloor_eq_ok :
    tryFloor (ε := ε) x = .ok n ↔ n.val = Fixed.floor x := by
  simp [tryFloor]

@[simp] theorem tryCeil_eq_ok :
    tryCeil (ε := ε) x = .ok n ↔ n.val = Fixed.ceil x := by
  simp [tryCeil]

@[simp] theorem tryRound_eq_ok :
    tryRound (ε := ε) x = .ok n ↔ n.val = Fixed.round x := by
  simp [tryRound]

end Decimal

/-- The crate's power and square root, whose algorithms the sources do
not show. -/
structure PowSqrt where
  tryPow : Decimal → ℕ → Option Decimal
  trySqrt : Decimal → Option Decimal

namespace PowSqrt

variable {ε : Type} [DecimalError ε]

def pow (m : PowSqrt) (x : Decimal) (n : ℕ) : Except ε Decimal :=
  okOr (m.tryPow x n) DecimalError.mathOverflow

def sqrt (m : PowSqrt) (x : Decimal) : Except ε Decimal :=
  okOr (m.trySqrt x) DecimalError.mathOverflow

@[simp] theorem pow_eq_ok {m : PowSqrt} {x z : Decimal} {n : ℕ} :
    m.pow (ε := ε) x n = .ok z ↔ m.tryPow x n = some z := by
  simp [pow]

@[simp] theorem sqrt_eq_ok {m : PowSqrt} {x z : Decimal} :
    m.sqrt (ε := ε) x = .ok z ↔ m.trySqrt x = some z := by
  simp [sqrt]

/-- A power in units of `10 ^ -18`, zero if it does not fit. -/
def powRaw (m : PowSqrt) (raw n : ℕ) : ℕ :=
  (((Fixed.ofRaw? raw).bind (m.tryPow · n)).map (·.raw)).getD 0

theorem powRaw_eq {m : PowSqrt} {x z : Decimal} {n : ℕ} (h : m.tryPow x n = some z) :
    m.powRaw x.raw n = z.raw := by
  rw [powRaw, Fixed.ofRaw?_eq_some.mpr rfl, Option.bind_some, h]
  rfl

/-- A power is computed by multiplying, in an order the documentation does
not fix; a square root is rounded down. -/
structure Lawful (m : PowSqrt) : Prop where
  pow_zero : ∀ {x z}, m.tryPow x 0 = some z → z = Decimal.one
  pow_chain : ∀ {x z n}, 0 < n → m.tryPow x n = some z → Fixed.PowChain x n z
  sqrt_floor : ∀ {x z}, m.trySqrt x = some z → z.raw = Nat.sqrt (x.raw * wad)

/-- A power fails only when a product does not fit: never while twice as
many factors still do, in whichever order and however many squares of the
base it computes. -/
structure Total (m : PowSqrt) : Prop where
  pow_total : ∀ {x : Decimal} {n}, max x.raw wad ^ (2 * n) < 2 ^ 192 * wad ^ (2 * n - 1) →
    ∃ z, m.tryPow x n = some z

/-- Multiply one factor at a time. Up to the third power every order of
multiplying gives this result. -/
def referencePow (x : Decimal) : ℕ → Option Decimal
  | 0 => some Decimal.one
  | 1 => some x
  | n + 2 => do
      let y ← referencePow x (n + 1)
      Fixed.tryMul y x

/-- A lawful power and square root, to evaluate runs with. -/
def reference : PowSqrt where
  tryPow := referencePow
  trySqrt x := Fixed.ofRaw? (Nat.sqrt (x.raw * wad))

theorem referencePow_chain {x z : Decimal} {n : ℕ}
    (h : referencePow x (n + 1) = some z) : Fixed.PowChain x (n + 1) z := by
  induction n generalizing z with
  | zero =>
      cases h
      exact .one
  | succ n ih =>
      obtain ⟨y, hy, hz⟩ := Option.bind_eq_some_iff.mp h
      exact .mul (ih hy) .one hz

/-- Where a power fits, the smaller ones do. -/
theorem pow_fits_of_le {w b i j : ℕ} (hi : 0 < i) (hij : i ≤ j) (hwb : w ≤ b)
    (h : b ^ j < 2 ^ 192 * w ^ (j - 1)) : b ^ i < 2 ^ 192 * w ^ (i - 1) := by
  obtain ⟨d, rfl⟩ := Nat.exists_eq_add_of_le hij
  refine Nat.lt_of_mul_lt_mul_right (a := w ^ d) ?_
  calc b ^ i * w ^ d ≤ b ^ i * b ^ d := Nat.mul_le_mul_left _ (Nat.pow_le_pow_left hwb d)
    _ = b ^ (i + d) := (Nat.pow_add b i d).symm
    _ < 2 ^ 192 * w ^ (i + d - 1) := h
    _ = 2 ^ 192 * w ^ (i - 1) * w ^ d := by
        rw [show i + d - 1 = i - 1 + d by omega, Nat.pow_add, Nat.mul_assoc]

theorem referencePow_fits {x : Decimal} {n : ℕ}
    (h : max x.raw wad ^ (n + 1) < 2 ^ 192 * wad ^ n) : ∃ z, referencePow x (n + 1) = some z := by
  induction n with
  | zero => exact ⟨x, rfl⟩
  | succ n ih =>
      obtain ⟨y, hy⟩ := ih (pow_fits_of_le (Nat.succ_pos n) (Nat.le_succ _)
        (Nat.le_max_right _ _) h)
      have hfit : y.raw * x.raw / wad < 2 ^ 192 := by
        have hle := (referencePow_chain hy).le_pow
        rw [Nat.add_sub_cancel] at hle
        refine Nat.div_lt_of_lt_mul (Nat.lt_of_mul_lt_mul_right (a := wad ^ n) ?_)
        calc y.raw * x.raw * wad ^ n = y.raw * wad ^ n * x.raw := by ring
          _ ≤ x.raw ^ (n + 1) * x.raw := Nat.mul_le_mul_right _ hle
          _ = x.raw ^ (n + 1 + 1) := (pow_succ x.raw (n + 1)).symm
          _ ≤ max x.raw wad ^ (n + 1 + 1) := Nat.pow_le_pow_left (Nat.le_max_left _ _) _
          _ < 2 ^ 192 * wad ^ (n + 1) := h
          _ = wad * 2 ^ 192 * wad ^ n := by ring
      refine ⟨⟨_, hfit⟩, ?_⟩
      show (do let y ← referencePow x (n + 1); Fixed.tryMul y x) = _
      rw [hy]
      exact Fixed.tryMul_eq_some.mpr rfl

theorem referencePow_total {x : Decimal} {n : ℕ}
    (h : max x.raw wad ^ (2 * n) < 2 ^ 192 * wad ^ (2 * n - 1)) :
    ∃ z, referencePow x n = some z := by
  cases n with
  | zero => exact ⟨Decimal.one, rfl⟩
  | succ n =>
      exact referencePow_fits (pow_fits_of_le (Nat.succ_pos n) (by omega)
        (Nat.le_max_right _ _) h)

theorem reference_lawful : reference.Lawful where
  pow_zero h := (Option.some.inj h).symm
  pow_chain hn h := by
    obtain ⟨n, rfl⟩ := Nat.exists_eq_succ_of_ne_zero (Nat.pos_iff_ne_zero.mp hn)
    exact referencePow_chain h
  sqrt_floor h := Fixed.ofRaw?_eq_some.mp h

/-- The square root rounded down, one binary digit of it at a time: unlike
`Nat.sqrt`, by structural recursion. -/
def sqrtDigits : ℕ → ℕ → ℕ
  | 0, _ => 0
  | k + 1, n =>
      let r := 2 * sqrtDigits k (n / 4)
      if (r + 1) * (r + 1) ≤ n then r + 1 else r

theorem sqrtDigits_eq {k n : ℕ} (h : n < 4 ^ k) : sqrtDigits k n = Nat.sqrt n := by
  induction k generalizing n with
  | zero =>
      obtain rfl : n = 0 := by simpa using h
      rfl
  | succ k ih =>
      have hquot : n / 4 < 4 ^ k := Nat.div_lt_of_lt_mul (by rwa [Nat.pow_succ'] at h)
      unfold sqrtDigits
      rw [ih hquot]
      have hle := Nat.sqrt_le (n / 4)
      have hlt := Nat.lt_succ_sqrt (n / 4)
      generalize Nat.sqrt (n / 4) = q at hle hlt ⊢
      have hn := Nat.div_add_mod n 4
      have hr := Nat.mod_lt n (by decide : 0 < 4)
      have hlow : (2 * q) * (2 * q) ≤ n := by
        have : (2 * q) * (2 * q) = 4 * (q * q) := by ring
        omega
      have hhigh : n < (2 * q + 2) * (2 * q + 2) := by
        have : (2 * q + 2) * (2 * q + 2) = 4 * (q.succ * q.succ) := by
          rw [Nat.succ_eq_add_one]
          ring
        omega
      rw [Nat.eq_sqrt]
      by_cases hnext : (2 * q + 1) * (2 * q + 1) ≤ n
      · simp only [if_pos hnext]
        exact ⟨hnext, hhigh⟩
      · simp only [if_neg hnext]
        exact ⟨hlow, by omega⟩

/-- The same with square roots that the kernel evaluates. -/
def digitwise : PowSqrt where
  tryPow := referencePow
  trySqrt x := Fixed.ofRaw? (sqrtDigits 128 (x.raw * wad))

theorem digitwise_lawful : digitwise.Lawful where
  pow_zero := reference_lawful.pow_zero
  pow_chain := reference_lawful.pow_chain
  sqrt_floor {x z} h := by
    have hfit : x.raw * wad < 4 ^ 128 := calc
      x.raw * wad < 2 ^ 192 * 2 ^ 60 :=
        Nat.mul_lt_mul_of_lt_of_le x.raw_lt (by decide) (by decide)
      _ ≤ 4 ^ 128 := by decide
    rw [Fixed.ofRaw?_eq_some.mp h, sqrtDigits_eq hfit]

theorem digitwise_total : digitwise.Total where
  pow_total := referencePow_total

end PowSqrt

end SolanaAmm
