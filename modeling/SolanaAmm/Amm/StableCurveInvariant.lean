import SolanaAmm.Amm.Helpers

/-!
# Amm — Stable curve invariant

`math/stable_curve_invariant.rs`: the Newton iteration that computes the
invariant of a stable pool from its reserves. Everything is scaled down
by a power of a thousand first, so that the powers fit.
-/

namespace SolanaAmm.Amm

open Result Decimal

def MAX_ITERATIONS : ℕ := 32

structure StableCurveInvariant where
  /-- Number of reserves. -/
  exponent : U64
  initialGuess : Decimal
  sclDownCoef : Decimal
  /-- `(amplifier * n^n - 1) * n^n * product`. -/
  firstOrderCoeff : Decimal
  /-- `amplifier * n^n * sum * n^n * product`. -/
  polynomialThirdTerm : Decimal

/-- Products below `10^6` units are an extreme imbalance. -/
def extremeImbalance : AmmError :=
  .mathOverflow "invalid trade, it creates extreme imbalance on current stable pool"

def minProduct : Decimal := fromScaledVal 1000000

namespace StableCurveInvariant

variable (m : PowSqrt)

/-- The product of the reserves, each divided by `coef` first. -/
def scaledProduct (coef : Decimal) (reserves : List TokenAmount) :
    Except AmmError Decimal :=
  reserves.foldlM (fun acc el => do
    let scaled ← tryDiv (ofU64 el) coef
    tryMul acc scaled) Decimal.one

def new (amp : U64) (reserves : List TokenAmount) :
    Except AmmError StableCurveInvariant := do
  let amp := ofU64 amp
  let sum ← reserves.foldlM (fun acc el => tryAdd acc (ofU64 el)) Decimal.zero
  let sclDownSum ← scaleDownValue sum
  let sclDownCoef ← m.pow thousand sclDownSum.exponent
  let product ← scaledProduct sclDownCoef reserves
  ensure (minProduct ≤ product) extremeImbalance
  let exponent : U64 := Word.wrap reserves.length
  let n ← m.pow (ofU64 exponent) exponent.val
  let nnScaledProduct ← tryMul n product
  let an ← tryMul amp n
  let anSubOne ← trySub an Decimal.one
  let firstOrderCoeff ← tryMul anSubOne nnScaledProduct
  let anSum ← tryMul an sum
  let anSumProduct ← tryMul anSum nnScaledProduct
  let polynomialThirdTerm ← tryDiv anSumProduct sclDownCoef
  pure
    { exponent
      initialGuess := sclDownSum.scaleDown
      sclDownCoef
      firstOrderCoeff
      polynomialThirdTerm }

variable (s : StableCurveInvariant)

def getStableSwapPolynomial (val : Decimal) : Except AmmError Decimal := do
  let firstTerm ← m.pow val (s.exponent.val + 1)
  let secondTerm ← tryMul val s.firstOrderCoeff
  let sum ← tryAdd firstTerm secondTerm
  trySub sum s.polynomialThirdTerm

def getDerivateStableSwapPolynomial (val : Decimal) : Except AmmError Decimal := do
  let n ← tryAdd (ofU64 s.exponent) Decimal.one
  let power ← m.pow val s.exponent.val
  let firstTerm ← tryMul n power
  tryAdd firstTerm s.firstOrderCoeff

def newtonMethodSingleIteration (guess : Decimal) : Except AmmError Decimal := do
  let poly ← s.getStableSwapPolynomial m guess
  let derivative ← s.getDerivateStableSwapPolynomial m guess
  let step ← tryDiv poly derivative
  trySub guess step

/-- The loop of `compute`, entered with `prev_val`. -/
def computeLoop (admissibleError : Decimal) : ℕ → Decimal → Except AmmError Decimal
  | 0, val => tryMul val s.sclDownCoef
  | fuel + 1, prevVal => do
      let newVal ← s.newtonMethodSingleIteration m prevVal
      if prevVal ≤ newVal then do
        let poly ← s.getStableSwapPolynomial m prevVal
        if poly = Decimal.zero then tryMul prevVal s.sclDownCoef
        else .error (.invariantViolation
          "Invalid mathematical assumption: previous value cannot be less or equal to new value")
      else do
        let diff ← trySub prevVal newVal
        if diff ≤ admissibleError then tryMul newVal s.sclDownCoef
        else computeLoop admissibleError fuel newVal

def compute : Except AmmError Decimal := do
  let admissibleError ← okOr (Fixed.tryDiv (ofU64 1) (ofU64 2)) .panicked
  s.computeLoop m admissibleError MAX_ITERATIONS s.initialGuess

end StableCurveInvariant

/-- `stable_curve_invariant::compute`. -/
def computeInvariant (m : PowSqrt) (amp : U64) (reserves : List TokenAmount) :
    Except AmmError Decimal := do
  ensure (amp ≠ 0)
    (.invalidArg "Input value of amplifier is zero, reduces to constant product curve case")
  let s ← StableCurveInvariant.new m amp reserves
  s.compute m

end SolanaAmm.Amm
