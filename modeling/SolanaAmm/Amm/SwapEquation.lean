import SolanaAmm.Amm.StableCurveInvariant

/-!
# Amm — Swap equation

`math/swap_equation.rs`: the balance of the bought reserve after a swap
on a stable curve, as the positive root of a quadratic, and the number of
tokens the trader is owed.
-/

namespace SolanaAmm.Amm

open Result Decimal

/-- `1000u64.pow(exp)`, which panics from `exp = 7` on. -/
def thousandPow (exp : ℕ) : Except AmmError Decimal := do
  let p ← okOr (Word.ofNat? (1000 ^ exp)) .panicked
  pure (ofU64 p)

/-- The linear term of the quadratic without its sign; the flag says that
it is negative. -/
def linearTerm (second first : Decimal) : Except AmmError (Decimal × Bool) :=
  match trySub (ε := AmmError) second first with
  | .ok val => pure (val, false)
  | .error _ => do
      let val ← trySub first second
      pure (val, true)

def getBuyReserveBalanceAfterSwap (m : PowSqrt) (numReserves : U64)
    (amp d sum product : Decimal) : Except AmmError Decimal := do
  let scaleDownOut ← scaleDownValue d
  let d := scaleDownOut.scaleDown
  let exp := scaleDownOut.exponent
  let scale ← thousandPow exp
  let scalePow ← m.pow scale (numReserves.val - 1)
  let product ← tryDiv product scalePow
  ensure (minProduct ≤ product) extremeImbalance
  let sum ← tryDiv sum scale
  let nPowN ← m.pow (ofU64 numReserves) numReserves.val
  let nA ← tryMul nPowN amp
  let nASubOne ← trySub nA Decimal.one
  let linearFirstTerm ← tryMul d nASubOne
  let quadraticTerm ← tryMul amp nPowN
  let linearSecondTerm ← tryMul quadraticTerm sum
  let (b, isSymmetric) ← linearTerm linearSecondTerm linearFirstTerm
  let dPow ← m.pow d (numReserves.val + 1)
  let nProduct ← tryMul nPowN product
  let constantTerm ← tryDiv dPow nProduct
  let bSquare ← m.pow b 2
  let fourA ← tryMul (ofU64 4) quadraticTerm
  let fourAC ← tryMul fourA constantTerm
  let discriminator ← tryAdd bSquare fourAC
  let sqrtDiscriminator ← m.sqrt discriminator
  let twoA ← tryMul (ofU64 2) quadraticTerm
  let numerator ←
    if isSymmetric then tryAdd sqrtDiscriminator b
    else
      okOr (Fixed.trySub sqrtDiscriminator b)
        (.invariantViolation ("Bought token balance after swapped cannot be negative,\n" ++
          "                    invalid inputs"))
  let root ← tryDiv numerator twoA
  let scaleUp ← m.pow thousand exp
  tryMul root scaleUp

/-- The tokens the trader is owed. The caller has checked that the mint
is in the map. -/
def computeDeltaWithdrawTokenAmount (balanceAfterSwap : Decimal)
    (tokensReserves : BTreeMap TokenAmount) (mint : Pubkey) :
    Except AmmError Decimal := do
  let tokens ← okOr tokensReserves[mint]? .panicked
  trySub (ofU64 tokens) balanceAfterSwap

end SolanaAmm.Amm
