import SolanaAmm.Amm.Models

/-!
# Amm — Helpers

`math/helpers.rs`: folds over fixed-point numbers, scaling down by powers
of a thousand, and the product-then-quotient that picks its order of
evaluation by the bit lengths of its factors.
-/

namespace SolanaAmm.Amm

open Result Decimal

def foldProduct (values : List Decimal) : Except AmmError Decimal :=
  values.foldlM (fun acc el => tryMul acc el) Decimal.one

def foldSum (values : List Decimal) : Except AmmError Decimal :=
  values.foldlM (fun acc el => tryAdd acc el) Decimal.zero

structure ScaleDownOutput where
  scaleDown : Decimal
  exponent : ℕ

/-- `1000` as a decimal. -/
def thousand : Decimal := ofU64 1000

/-- Divide by a thousand while above a thousand. The loop of the source
has no bound of its own; `fuel` is larger than the number of iterations
any 192-bit number takes (`scaleDownValue_fuel`). -/
def scaleDownLoop : ℕ → Decimal → ℕ → Except AmmError ScaleDownOutput
  | 0, _, _ => .error .panicked
  | fuel + 1, val, n =>
      if val > thousand then do
        let val' ← tryDiv val thousand
        scaleDownLoop fuel val' (n + 1)
      else pure ⟨val, n⟩

def scaleDownValue (val : Decimal) : Except AmmError ScaleDownOutput :=
  scaleDownLoop 20 val 0

/-! ## try_mul_div -/

/-- `u64::leading_zeros`. -/
def leadingZeros64 (limb : ℕ) : ℕ :=
  if limb = 0 then 64 else 63 - Nat.log2 limb

/-- Leading zeros after the decimal point. `10 ^ 18` is approximated by
`2 ^ 60`, which is why the lowest limb counts for at most four. -/
def integerLeadingZeros (num : Decimal) : ℕ :=
  let lowest := num.raw % 2 ^ 64
  let middle := num.raw / 2 ^ 64 % 2 ^ 64
  let upper := num.raw / 2 ^ 128
  let leadingZeroes :=
    if upper = 0 then
      if middle = 0 then min (leadingZeros64 lowest) 4 + 64 + 64
      else leadingZeros64 middle + 64
    else leadingZeros64 upper
  let maxExponent := 3 * 64 - 60
  maxExponent - leadingZeroes

/-- `a * b / c`, evaluated in the order that is least likely to
overflow. -/
def tryMulDiv (a b c : Decimal) : Except AmmError Decimal :=
  if c < Decimal.one then do
    let ab ← tryMul a b
    tryDiv ab c
  else
    let aLz := integerLeadingZeros a
    let bLz := integerLeadingZeros b
    if aLz + bLz ≥ 130 then
      if aLz ≥ bLz then do
        let ac ← tryDiv a c
        tryMul ac b
      else do
        let bc ← tryDiv b c
        tryMul bc a
    else do
      let ab ← tryMul a b
      tryDiv ab c

end SolanaAmm.Amm
